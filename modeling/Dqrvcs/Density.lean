/-
# `Dqrvcs.Density` — per-author sequence density

The spec's P3 says that for every author the seqs stored are exactly
`1..maxSeq[A]`.  `AppendLocalOp` keeps that, allocating
`seqByAuthor[self] + 1`.  `addOperationLocked` compares a remote operation's
seq with nothing: whatever verifies and is fresh is stored.  So a remote
operation that arrives ahead of its predecessor leaves a gap
(`dense_fails_out_of_order`), and what holds is density along runs that
deliver each author's operations in seq order, through `AddRemoteOp` or as
the lines `loadOps` replays, each at most one past `Summary()[author]` when
it arrives (`dense_of_inOrder`).

On a handle satisfying `LogInv`, density is `DownClosed`: below each stored
seq of an author, every seq of that author is stored.  That form is the one
the step lemmas and `Dqrvcs.Sync` use.
-/
import Dqrvcs.Invariant

namespace Dqrvcs

theorem UInt64.toNat_add_one (a : UInt64) : (a + 1).toNat = (a.toNat + 1) % 2 ^ 64 :=
  BitVec.toNat_add _ _

theorem UInt64.toNat_add_one_of_ne_zero {a : UInt64} (h : a + 1 ≠ 0) :
    (a + 1).toNat = a.toNat + 1 := by
  have hlt := a.toNat_lt_size
  have hne : a.toNat + 1 ≠ 2 ^ 64 := fun e =>
    h (UInt64.toNat.inj (by rw [UInt64.toNat_add_one, e]; rfl))
  unfold UInt64.size at hlt
  rw [UInt64.toNat_add_one, Nat.mod_eq_of_lt (by omega)]

variable {lib : Stdlib}

theorem Verified.seq_pos {op : Operation} (hv : Verified lib op) : 1 ≤ op.seq.toNat :=
  Nat.one_le_iff_ne_zero.mpr fun e => hv.seq_ne (UInt64.toNat.inj e)

/-! ## Density and its downward-closed form -/

/-- Spec P3: the seqs of each author's stored operations are exactly
`1..Summary()[author]`. -/
def Dense (s : Store) : Prop :=
  ∀ a n, (∃ op ∈ s.ops, op.author = a ∧ op.seq.toNat = n) ↔ 1 ≤ n ∧ n ≤ (s.seqOf a).toNat

/-- Below each stored seq of an author, every seq of that author is stored. -/
def DownClosed (ops : List Operation) : Prop :=
  ∀ o ∈ ops, ∀ n, 1 ≤ n → n ≤ o.seq.toNat → ∃ o' ∈ ops, o'.author = o.author ∧ o'.seq.toNat = n

theorem dense_empty (identity : Identity) (privateKey : Bytes) (peers : List Bytes) :
    Dense (Store.empty identity privateKey peers) := fun _ _ => by
  simp [Store.empty, Store.seqOf]
  omega

theorem LogInv.dense_iff {s : Store} (h : LogInv lib s) : Dense s ↔ DownClosed s.ops := by
  refine ⟨fun hd o ho n h₁ h₂ => (hd o.author n).mpr ⟨h₁, h₂.trans (h.seq_le_seqOf o ho)⟩,
    fun hc a n => ⟨?_, fun ⟨h₁, h₂⟩ => ?_⟩⟩
  · rintro ⟨o, ho, rfl, rfl⟩
    exact ⟨(h.verified o ho).seq_pos, h.seq_le_seqOf o ho⟩
  · rcases hm : s.seqByAuthor a with _ | m
    · simp [Store.seqOf, hm] at h₂; omega
    · obtain ⟨⟨o, ho, rfl, rfl⟩, -⟩ := h.seqByAuthor_some a m hm
      have : s.seqOf o.author = o.seq := by simp [Store.seqOf, hm]
      exact hc o ho n h₁ (this ▸ h₂)

theorem DownClosed.append_singleton {ops : List Operation} {op : Operation} (hd : DownClosed ops)
    (hlow : ∀ n, 1 ≤ n → n < op.seq.toNat → ∃ o ∈ ops, o.author = op.author ∧ o.seq.toNat = n) :
    DownClosed (ops ++ [op]) := by
  intro o ho n h₁ h₂
  rcases List.mem_append.mp ho with ho | ho
  · obtain ⟨o', ho', e⟩ := hd o ho n h₁ h₂
    exact ⟨o', List.mem_append_left _ ho', e⟩
  · obtain rfl := List.mem_singleton.mp ho
    rcases Nat.lt_or_ge n o.seq.toNat with hn | hn
    · obtain ⟨o', ho', e⟩ := hlow n h₁ hn
      exact ⟨o', List.mem_append_left _ ho', e⟩
    · exact ⟨o, List.mem_append_right _ (List.mem_singleton_self _), rfl, by omega⟩

/-- The step lemma: inserting an operation at most one past its author's
`Summary` entry keeps a handle dense. -/
theorem Dense.insert {s : Store} {op : Operation} (h : LogInv lib s) (hd : Dense s)
    (hv : Verified lib op) (ha : s.Admits op)
    (hnext : op.seq.toNat ≤ (s.seqOf op.author).toNat + 1) : Dense (s.insert op) := by
  rw [(h.insert hv ha).dense_iff, Store.insert_ops]
  exact ((h.dense_iff).mp hd).append_singleton fun n h₁ h₂ => (hd op.author n).mpr ⟨h₁, by omega⟩

/-! ## Runs -/

/-- A call that anyone may make: `AppendLocalOp`, or `AddRemoteOp` of an
operation that passes `verifyOperation`. -/
def LogCall.LocalOrVerified (lib : Stdlib) : LogCall → Prop
  | .appendLocal .. => True
  | .addRemote _ op => verifyOperation lib op = .ok ()
  | .replay _ => False

/-- Density fails when a verified remote operation arrives ahead of its
predecessor: a fresh handle that receives only seq 2 of some author. -/
theorem dense_fails_out_of_order :
    ¬ ∀ (lib : Stdlib) (identity : Identity) (privateKey : Bytes) (peers : List Bytes)
      (log : Bytes) (calls : List LogCall), (∀ c ∈ calls, c.LocalOrVerified lib) →
        Dense (runCalls lib (Store.empty identity privateKey peers, log) calls).1 := by
  intro hall
  obtain ⟨op, hv, hseq⟩ := @exists_verified Stdlib.degenerate ⟨List.replicate 32 0, rfl⟩
    ⟨1970, 1, 1, 0, 0, 0, 0, by decide⟩ 2 (by decide)
  have hd := hall Stdlib.degenerate ⟨[], [], []⟩ [] [] [] [.addRemote .whole op]
    (by simpa [LogCall.LocalOrVerified] using (verifyOperation_eq_ok _).mpr hv)
  have hstore : (runCalls Stdlib.degenerate (Store.empty ⟨[], [], []⟩ [] [], [])
      [.addRemote .whole op]).1 = (Store.empty ⟨[], [], []⟩ [] []).insert op := by
    simp only [runCalls_cons, runCalls_nil, LogCall.run, AddRemoteOp, addOperationLocked_store]
    exact if_pos ⟨hv, rfl, rfl⟩
  rw [hstore] at hd
  have hseqOf : ((Store.empty ⟨[], [], []⟩ [] []).insert op).seqOf op.author = 2 := by
    rw [Store.insert_seqOf, if_pos ⟨rfl, hseq ▸ show (0 : UInt64) < 2 by decide⟩, hseq]
  obtain ⟨o, ho, -, ho₁⟩ := (hd op.author 1).mpr ⟨le_refl 1, by rw [hseqOf]; decide⟩
  simp only [Store.insert_ops, Store.empty, List.nil_append, List.mem_singleton] at ho
  rw [ho, hseq] at ho₁
  exact absurd ho₁ (by decide)

/-- A call in per-author seq order at the handle it is made on:
`AppendLocalOp`, or an operation that `AddRemoteOp` receives or `loadOps`
replays whose seq is at most one past `Summary()[author]`. -/
def LogCall.InOrder (s : Store) : LogCall → Prop
  | .appendLocal .. => True
  | .addRemote _ op => op.seq.toNat ≤ (s.seqOf op.author).toNat + 1
  | .replay op => op.seq.toNat ≤ (s.seqOf op.author).toNat + 1

/-- Every call of the run is in order at the handle it meets. -/
def InOrderRun (lib : Stdlib) : Store × Bytes → List LogCall → Prop
  | _, [] => True
  | st, c :: cs => c.InOrder st.1 ∧ InOrderRun lib (c.run lib st) cs

instance (s : Store) : ∀ c : LogCall, Decidable (c.InOrder s)
  | .appendLocal .. => isTrue trivial
  | .addRemote _ op => inferInstanceAs (Decidable (op.seq.toNat ≤ _))
  | .replay op => inferInstanceAs (Decidable (op.seq.toNat ≤ _))

instance decidableInOrderRun (lib : Stdlib) :
    ∀ (st : Store × Bytes) (calls : List LogCall), Decidable (InOrderRun lib st calls)
  | _, [] => isTrue trivial
  | st, c :: cs =>
    have := decidableInOrderRun lib (c.run lib st) cs
    inferInstanceAs (Decidable (_ ∧ _))

/-- The step lemma: a call in order keeps a handle dense. -/
theorem Dense.run {st : Store × Bytes} {c : LogCall} (h : LogInv lib st.1)
    (hd : Dense st.1) (hc : c.InOrder st.1) : Dense (c.run lib st).1 := by
  obtain ⟨s, log⟩ := st
  have ins : ∀ persist io op, (Verified lib op → op.seq.toNat ≤ (s.seqOf op.author).toNat + 1) →
      Dense (addOperationLocked lib persist io s log op).store := fun persist io op hn => by
    rw [addOperationLocked_store]
    split_ifs with hva
    · exact hd.insert h hva.1 hva.2 (hn hva.1)
    · exact hd
  cases c with
  | appendLocal now io opType payload =>
    rcases @appendLocalOp_cases lib now io s log opType payload with ⟨e, -⟩ | ⟨op, ha, hs, e, -⟩
    · simpa [LogCall.run, e] using hd
    · simp only [LogCall.run, e]
      refine ins true io op fun hv => ?_
      rw [hs, ha, UInt64.toNat_add_one_of_ne_zero (hs ▸ hv.seq_ne)]
  | addRemote io op => exact ins true io op fun _ => hc
  | replay op => exact ins false .whole op fun _ => hc

theorem Dense.runCalls : ∀ (calls : List LogCall) {st : Store × Bytes},
    LogInv lib st.1 → Dense st.1 → InOrderRun lib st calls → Dense (runCalls lib st calls).1
  | [], _, _, hd, _ => hd
  | c :: cs, st, h, hd, ⟨hc, hrest⟩ =>
    Dense.runCalls cs (h.memStep (memStep_run c st)) (hd.run h hc) hrest

/-- Density along every in-order run from the handle `OpenStore` starts from,
the lines `loadOps` replays included. -/
theorem dense_of_inOrder (identity : Identity) (privateKey : Bytes) (peers : List Bytes)
    (log : Bytes) (calls : List LogCall)
    (hrun : InOrderRun lib (Store.empty identity privateKey peers, log) calls) :
    Dense (runCalls lib (Store.empty identity privateKey peers, log) calls).1 :=
  Dense.runCalls calls (logInv_empty identity privateKey peers)
    (dense_empty identity privateKey peers) hrun

set_option maxRecDepth 8000 in
/-- The theorem under `Stdlib.separating`: a fresh handle replays the two
records of another node's log, appends one of its own and receives a third
node's first operation, each call in order. -/
theorem dense_of_inOrder_replayed :
    let lib := Stdlib.separating
    let now : Time := ⟨1970, 1, 1, 0, 0, 0, 0, by decide⟩
    let handle (seed : UInt8) := Store.empty (generateIdentity lib ⟨List.replicate 32 seed, rfl⟩)
      (KeyPair.priv lib ⟨List.replicate 32 seed, rfl⟩) []
    let a := (runCalls lib (handle 1, []) [.appendLocal now .whole (ascii "git.commit") [],
      .appendLocal now .whole (ascii "git.push") []]).1.ops
    let b := (runCalls lib (handle 2, []) [.appendLocal now .whole (ascii "git.push") []]).1.ops
    let calls := a.map .replay ++ .appendLocal now .whole (ascii "git.commit") [] ::
      b.map (.addRemote .whole)
    InOrderRun lib (handle 3, []) calls ∧ Dense (runCalls lib (handle 3, []) calls).1 :=
  (fun h => ⟨h, dense_of_inOrder _ _ _ _ _ h⟩) (by decide)

end Dqrvcs

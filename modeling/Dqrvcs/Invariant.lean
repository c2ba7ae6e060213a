/-
# `Dqrvcs.Invariant` — what every reachable handle satisfies

A handle's operation log changes only inside `addOperationLocked`, reached
from `AppendLocalOp`, from `AddRemoteOp` and from the replay of `loadOps`.
`MemStep` says once what one such call can do to memory: nothing, or insert
one operation that verifies and that the store admits.  Every invariant of
the development is derived from that, by one step lemma, and lifted to whole
runs by `runCalls_induction`.

`LogInv` is the representation invariant of `store.go`'s `Store`: the slice
`ops` holds no ID and no `(author, seq)` twice, `opIDs` is exactly its set of
IDs, `authorSeqIndex` is exactly its map from `authorSeqKey` to ID,
`seqByAuthor` maps each author present to its largest seq and nothing else,
and everything stored verifies.  The index part rests on
`authorSeqKey_injective`.

What is proved is `logInv_runCalls`: from the empty handle `OpenStore` builds,
after any calls — any operations, any order, duplicates and conflicts, and
whether each write of `ops.log` succeeds or fails — `LogInv` holds.  What is
not proved here is that memory agrees with the file: a failed write breaks
that, and `Dqrvcs.Atomicity` says how.
-/
import Dqrvcs.Store

namespace Dqrvcs

/-! ## One call -/

/-- What one call can do to a handle's memory. -/
inductive MemStep (lib : Stdlib) (s : Store) : Store → Prop
  | stay : MemStep lib s s
  | insert {op : Operation} : Verified lib op → s.Admits op → MemStep lib s (s.insert op)

variable {lib : Stdlib}

theorem memStep_addOperationLocked (persist : Bool) (io : Write) (s : Store) (log : Bytes)
    (op : Operation) : MemStep lib s (addOperationLocked lib persist io s log op).store := by
  rw [addOperationLocked_store]
  split_ifs with h
  · exact .insert h.1 h.2
  · exact .stay

theorem memStep_appendLocalOp (now : Time) (io : Write) (s : Store) (log : Bytes)
    (opType payload : Bytes) :
    MemStep lib s (AppendLocalOp lib now io s log opType payload).store := by
  rcases appendLocalOp_cases now io s log opType payload with ⟨h, -⟩ | ⟨op, -, -, h, -⟩ <;> rw [h]
  · exact .stay
  · exact memStep_addOperationLocked ..

/-- A call that reaches `addOperationLocked`: `AppendLocalOp`, `AddRemoteOp`,
or one line of `ops.log` replayed by `loadOps` (which does not persist). -/
inductive LogCall
  | appendLocal (now : Time) (io : Write) (opType payload : Bytes)
  | addRemote (io : Write) (op : Operation)
  | replay (op : Operation)

/-- The handle and `ops.log` after one call. -/
def LogCall.run (lib : Stdlib) : LogCall → Store × Bytes → Store × Bytes
  | .appendLocal now io opType payload, (s, log) =>
    let r := AppendLocalOp lib now io s log opType payload
    (r.store, r.log)
  | .addRemote io op, (s, log) =>
    let r := AddRemoteOp lib io s log op
    (r.store, r.log)
  | .replay op, (s, log) =>
    let r := addOperationLocked lib false .whole s log op
    (r.store, r.log)

/-- The handle and `ops.log` after a sequence of calls. -/
def runCalls (lib : Stdlib) (start : Store × Bytes) (calls : List LogCall) :
    Store × Bytes :=
  calls.foldl (fun st c => c.run lib st) start

@[simp] theorem runCalls_nil (start : Store × Bytes) : runCalls lib start [] = start := rfl

@[simp] theorem runCalls_cons (start : Store × Bytes) (c : LogCall) (cs : List LogCall) :
    runCalls lib start (c :: cs) = runCalls lib (c.run lib start) cs := rfl

theorem memStep_run (c : LogCall) (st : Store × Bytes) :
    MemStep lib st.1 (c.run lib st).1 := by
  obtain ⟨s, log⟩ := st
  cases c with
  | appendLocal now io opType payload => exact memStep_appendLocalOp ..
  | addRemote io op => exact memStep_addOperationLocked ..
  | replay op => exact memStep_addOperationLocked ..

/-- The run lemma: a property of the handle and its log that every call of
the run keeps holds at its end. -/
theorem runCalls_induction {P : Store × Bytes → Prop} :
    ∀ (calls : List LogCall) (start : Store × Bytes), P start →
      (∀ c ∈ calls, ∀ st, P st → P (c.run lib st)) → P (runCalls lib start calls)
  | [], _, h0, _ => h0
  | c :: cs, start, h0, hstep =>
    runCalls_induction cs _ (hstep c (List.mem_cons_self _ _) start h0)
      fun c' hc' => hstep c' (List.mem_cons_of_mem _ hc')

theorem runCalls_of_memStep {P : Store → Prop} (hstep : ∀ s s', P s → MemStep lib s s' → P s')
    (calls : List LogCall) (start : Store × Bytes) (h0 : P start.1) :
    P (runCalls lib start calls).1 :=
  @runCalls_induction lib (fun st => P st.1) calls start h0
    fun c _ st h => hstep _ _ h (memStep_run c st)

/-! ## The representation invariant -/

theorem UInt64.le_of_lt' {a b : UInt64} (h : a < b) : a ≤ b := Nat.le_of_lt h

theorem UInt64.lt_of_le_of_lt' {a b c : UInt64} (h₁ : a ≤ b) (h₂ : b < c) : a < c :=
  Nat.lt_of_le_of_lt h₁ h₂

/-- `m` is the largest seq among `a`'s operations in `ops`. -/
def IsMaxSeq (ops : List Operation) (a : Bytes) (m : UInt64) : Prop :=
  (∃ op ∈ ops, op.author = a ∧ op.seq = m) ∧ ∀ op ∈ ops, op.author = a → op.seq ≤ m

theorem IsMaxSeq.unique {ops : List Operation} {a : Bytes} {m m' : UInt64}
    (h : IsMaxSeq ops a m) (h' : IsMaxSeq ops a m') : m = m' := by
  obtain ⟨⟨o, ho, hoa, rfl⟩, hle⟩ := h
  obtain ⟨⟨o', ho', hoa', rfl⟩, hle'⟩ := h'
  exact UInt64.toNat.inj (Nat.le_antisymm (hle' o ho hoa) (hle o' ho' hoa'))

/-- The pair `authorSeqKey` encodes, and the order of the sort compares. -/
def opKey (op : Operation) : Bytes × UInt64 := (op.author, op.seq)

/-- All that the three indices read of an operation. -/
def idKey (op : Operation) : Bytes × Bytes × UInt64 := (op.id, op.author, op.seq)

/-- The representation invariant of a handle. -/
structure LogInv (lib : Stdlib) (s : Store) : Prop where
  ids_nodup : (s.ops.map Operation.id).Nodup
  keys_nodup : (s.ops.map opKey).Nodup
  opIDs_iff : ∀ x, s.opIDs x = true ↔ ∃ op ∈ s.ops, op.id = x
  index_iff : ∀ k x, s.authorSeqIndex k = some x ↔
    ∃ op ∈ s.ops, authorSeqKey op.author op.seq = k ∧ op.id = x
  seqByAuthor_none : ∀ a, s.seqByAuthor a = none ↔ ∀ op ∈ s.ops, op.author ≠ a
  seqByAuthor_some : ∀ a m, s.seqByAuthor a = some m → IsMaxSeq s.ops a m
  verified : ∀ op ∈ s.ops, Verified lib op

theorem logInv_empty (identity : Identity) (privateKey : Bytes) (peers : List Bytes) :
    LogInv lib (Store.empty identity privateKey peers) where
  ids_nodup := List.nodup_nil
  keys_nodup := List.nodup_nil
  opIDs_iff _ := by simp [Store.empty]
  index_iff _ _ := by simp [Store.empty]
  seqByAuthor_none _ := by simp [Store.empty]
  seqByAuthor_some _ _ h := by simp [Store.empty] at h
  verified _ h := by simp [Store.empty] at h

/-- No operation of `ops` shares `op`'s ID or its `(author, seq)`. -/
def Fresh (ops : List Operation) (op : Operation) : Prop :=
  ∀ o ∈ ops, o.id ≠ op.id ∧ ¬ (o.author = op.author ∧ o.seq = op.seq)

instance (ops : List Operation) (op : Operation) : Decidable (Fresh ops op) :=
  inferInstanceAs (Decidable (∀ o ∈ ops, _))

theorem fresh_append {ops ops' : List Operation} {op : Operation} :
    Fresh (ops ++ ops') op ↔ Fresh ops op ∧ Fresh ops' op := List.forall_mem_append

namespace LogInv

variable {s : Store} {op : Operation}

/-- An operation the store admits shares neither its ID nor its key with a
stored one. -/
theorem fresh (h : LogInv lib s) (ha : s.Admits op) : Fresh s.ops op := by
  have hid : ∀ o ∈ s.ops, o.id ≠ op.id := fun o ho e => by
    simpa [ha.1] using (h.opIDs_iff op.id).mpr ⟨o, ho, e⟩
  refine fun o ho => ⟨hid o ho, fun ⟨ea, es⟩ => hid o ho ?_⟩
  have hk := (h.index_iff _ o.id).mpr ⟨o, ho, by rw [ea, es], rfl⟩
  have := ha.2
  rw [hk] at this
  simpa using this

theorem seq_le_seqOf (h : LogInv lib s) : ∀ o ∈ s.ops, o.seq ≤ s.seqOf o.author := by
  intro o ho
  rcases hm : s.seqByAuthor o.author with _ | m
  · exact absurd rfl ((h.seqByAuthor_none _).mp hm o ho)
  · simpa [Store.seqOf, hm] using (h.seqByAuthor_some _ _ hm).2 o ho rfl

/-- The step lemma: inserting an admitted, verified operation keeps `LogInv`. -/
theorem insert (h : LogInv lib s) (hv : Verified lib op) (ha : s.Admits op) :
    LogInv lib (s.insert op) := by
  have hf := h.fresh ha
  have hbound := h.seq_le_seqOf
  constructor
  case ids_nodup =>
    simpa [List.nodup_append, h.ids_nodup] using fun o ho e => (hf o ho).1 e
  case keys_nodup =>
    simpa [List.nodup_append, h.keys_nodup, opKey] using fun o ho ea es => (hf o ho).2 ⟨ea, es⟩
  case opIDs_iff =>
    intro x
    by_cases hx : x = op.id
    · subst hx; simp [or_and_right, exists_or]
    · simp [Function.update_noteq hx, h.opIDs_iff, Ne.symm hx, or_and_right, exists_or]
  case index_iff =>
    intro k x
    by_cases hk : k = authorSeqKey op.author op.seq
    · subst hk
      have : ∀ o ∈ s.ops, authorSeqKey o.author o.seq ≠ authorSeqKey op.author op.seq :=
        fun o ho e => (hf o ho).2 (authorSeqKey_injective e)
      simp only [Store.insert_authorSeqIndex, Function.update_same, Option.some.injEq,
        Store.insert_ops, List.mem_append, List.mem_singleton]
      constructor
      · rintro rfl; exact ⟨op, .inr rfl, rfl, rfl⟩
      · rintro ⟨o, ho | rfl, ek, rfl⟩
        · exact absurd ek (this o ho)
        · rfl
    · simp [Function.update_noteq hk, h.index_iff, Ne.symm hk, or_and_right, exists_or]
  case seqByAuthor_none =>
    intro a
    rw [Store.insert_seqByAuthor]
    split_ifs with hc
    · simp [hc.1, or_and_right, exists_or]
    · by_cases ha : a = op.author
      · subst ha
        have hpos : s.seqOf op.author ≠ 0 := fun e => hv.seq_ne (by
          have := UInt64.not_lt.mp (by simpa using hc)
          rw [e] at this
          exact UInt64.toNat.inj (Nat.le_zero.mp this))
        exact iff_of_false (fun hn => hpos (by simp [Store.seqOf, hn]))
          fun hall => hall op (by simp) rfl
      · simp [h.seqByAuthor_none, Ne.symm ha, or_imp, forall_and]
  case seqByAuthor_some =>
    intro a m hm
    rw [Store.insert_seqByAuthor] at hm
    split_ifs at hm with hc
    · obtain ⟨rfl, hlt⟩ := hc
      cases hm
      refine ⟨⟨op, by simp, rfl, rfl⟩, fun o ho hoa => ?_⟩
      rcases List.mem_append.mp ho with ho | ho
      · have hle := hbound o ho
        rw [hoa] at hle
        exact UInt64.le_of_lt' (UInt64.lt_of_le_of_lt' hle hlt)
      · rw [List.mem_singleton.mp ho]; exact UInt64.le_refl _
    · obtain ⟨⟨o, ho, hoa, hos⟩, hle⟩ := h.seqByAuthor_some a m hm
      refine ⟨⟨o, by simp [ho], hoa, hos⟩, fun o' ho' hoa' => ?_⟩
      rcases List.mem_append.mp ho' with ho' | ho'
      · exact hle o' ho' hoa'
      · rw [List.mem_singleton] at ho'
        subst ho' hoa'
        have : s.seqOf o'.author = m := by simp [Store.seqOf, hm]
        exact this ▸ UInt64.not_lt.mp fun hlt => hc ⟨rfl, hlt⟩
  case verified =>
    intro o ho
    rcases List.mem_append.mp ho with ho | ho
    · exact h.verified o ho
    · exact List.mem_singleton.mp ho ▸ hv

theorem memStep {s s' : Store} (h : LogInv lib s) : MemStep lib s s' → LogInv lib s'
  | .stay => h
  | .insert hv ha => h.insert hv ha

/-- On a handle satisfying `LogInv`, the two tests of `addOperationLocked`
are freshness against the slice. -/
theorem admits_iff (h : LogInv lib s) : s.Admits op ↔ Fresh s.ops op := by
  refine ⟨h.fresh, fun hf => ⟨?_, ?_⟩⟩
  · rcases hx : s.opIDs op.id
    · rfl
    · obtain ⟨o, ho, e⟩ := (h.opIDs_iff _).mp hx
      exact absurd e (hf o ho).1
  · rcases hk : s.authorSeqIndex (authorSeqKey op.author op.seq) with _ | v
    · rfl
    · obtain ⟨o, ho, ek, -⟩ := (h.index_iff _ _).mp hk
      exact absurd (authorSeqKey_injective ek) (hf o ho).2

theorem seqByAuthor_eq_some_iff (h : LogInv lib s) {a : Bytes} {m : UInt64} :
    s.seqByAuthor a = some m ↔ IsMaxSeq s.ops a m := by
  refine ⟨h.seqByAuthor_some a m, fun hm => ?_⟩
  rcases e : s.seqByAuthor a with _ | m'
  · obtain ⟨⟨o, ho, hoa, -⟩, -⟩ := hm
    exact absurd hoa ((h.seqByAuthor_none a).mp e o ho)
  · exact congrArg some ((h.seqByAuthor_some a m' e).unique hm)

/-- The indices are a function of the slice: two handles satisfying `LogInv`
whose slices hold the same `(id, author, seq)` triples have the same three
indices, whatever else their operations carry and in whatever order. -/
theorem indices_eq {s₁ s₂ : Store} (h₁ : LogInv lib s₁) (h₂ : LogInv lib s₂)
    (hm : ∀ t, t ∈ s₁.ops.map idKey ↔ t ∈ s₂.ops.map idKey) :
    s₁.opIDs = s₂.opIDs ∧ s₁.authorSeqIndex = s₂.authorSeqIndex ∧
      s₁.seqByAuthor = s₂.seqByAuthor := by
  have all (P : Bytes × Bytes × UInt64 → Prop) :
      (∀ o ∈ s₁.ops, P (idKey o)) ↔ ∀ o ∈ s₂.ops, P (idKey o) :=
    List.forall_mem_map.symm.trans
      ((forall_congr' fun t => imp_congr_left (hm t)).trans List.forall_mem_map)
  have ex (P : Bytes × Bytes × UInt64 → Prop) :
      (∃ o ∈ s₁.ops, P (idKey o)) ↔ ∃ o ∈ s₂.ops, P (idKey o) := by
    simpa only [not_forall, Classical.not_imp, not_not, exists_prop] using
      not_congr (all fun t => ¬ P t)
  refine ⟨funext fun x => Bool.eq_iff_iff.mpr ?_, funext fun k => Option.ext fun x => ?_,
    funext fun a => Option.ext fun m => ?_⟩
  · rw [h₁.opIDs_iff, h₂.opIDs_iff]
    exact ex fun t => t.1 = x
  · rw [Option.mem_def, Option.mem_def, h₁.index_iff, h₂.index_iff]
    exact ex fun t => authorSeqKey t.2.1 t.2.2 = k ∧ t.1 = x
  · rw [Option.mem_def, Option.mem_def, h₁.seqByAuthor_eq_some_iff,
      h₂.seqByAuthor_eq_some_iff]
    exact and_congr (ex fun t => t.2.1 = a ∧ t.2.2 = m) (all fun t => t.2.1 = a → t.2.2 ≤ m)

theorem runCalls {start : Store × Bytes} (h : LogInv lib start.1)
    (calls : List LogCall) : LogInv lib (Dqrvcs.runCalls lib start calls).1 :=
  runCalls_of_memStep (fun _ _ h hs => h.memStep hs) calls start h

end LogInv

/-- Every handle reached from the one `OpenStore` starts from, by any calls,
satisfies the representation invariant. -/
theorem logInv_of_openStore (identity : Identity) (privateKey : Bytes) (peers : List Bytes)
    (log : Bytes) (calls : List LogCall) :
    LogInv lib (runCalls lib (Store.empty identity privateKey peers, log) calls).1 :=
  (logInv_empty identity privateKey peers).runCalls calls

end Dqrvcs

/-
# `Dqrvcs.Answers` — what the mutators answer on a reachable handle

`addOperationLocked` decides a remote operation from `opIDs` and
`authorSeqIndex`, not from the log.  Under `LogInv` the two indices are the
log's IDs and keys, so `AddRemoteOp`'s answer is a function of the log alone,
`remoteAnswer`: a verification error, a duplicate, a conflict, or an append
that raises the author's summary to the operation's seq.  Every answer but the
append leaves the handle and `ops.log` as they were (`addRemoteOp_outcome`).

`AppendLocalOp` on a reachable handle with a generated key pair signs an
operation that verifies, under the ID its canonical bytes and signature give,
with the next seq (`appendLocalOp_outcome`).  Whether the call then succeeds
is not the signature's doing: a write of `ops.log` that stops short returns
the write's error, under every library, though memory keeps the operation and
the file the bytes written (`appendLocalOp_short_write`); and a stored
operation with the same ID, which takes a SHA-256 collision, makes it
`"operation already exists"`.

Tamper evidence holds only up to what `canonicalOperationBytes` and the
decoders forget.  `json.Marshal` writes every invalid UTF-8 byte as the same
`\ufffd`, and `base64.StdEncoding` skips line breaks, so a verified operation
whose type is replaced by another text marshalled alike, or whose signature
text gains a line break, still verifies under the same ID, under every
library (`Verified.retype`, `Verified.resign`).  `AddRemoteOp` then calls the
altered operation a duplicate of the stored one (`retyped_operation_duplicate`).
-/
import Dqrvcs.Atomicity
import Dqrvcs.Density

namespace Dqrvcs

variable (lib : Stdlib)

/-- `AddRemoteOp`'s answer read off the log `ops`, in the order
`addOperationLocked` checks: a verification error, a duplicate ID, a
conflicting `(author, seq)`, an append. -/
def remoteAnswer (ops : List Operation) (op : Operation) : Except StoreError Bool :=
  match verifyOperation lib op with
  | .error e => .error (.verify e)
  | .ok () =>
    if ∃ o ∈ ops, o.id = op.id then .ok false
    else if ∃ o ∈ ops, o.author = op.author ∧ o.seq = op.seq then
      .error (.conflict op.author op.seq)
    else .ok true

variable {lib}

theorem UInt64.max_eq_right' {a b : UInt64} (h : a < b) : max a b = b := if_pos (Nat.le_of_lt h)

theorem UInt64.max_eq_left' {a b : UInt64} (h : ¬ a < b) : max a b = a := by
  show (if a ≤ b then b else a) = a
  split_ifs with h'
  · exact UInt64.toNat.inj (Nat.le_antisymm (Nat.not_lt.mp h) h')
  · rfl

/-- Inserting a verified operation raises its author's summary to the larger
of the old value (`0` when absent) and its seq. -/
theorem summary_insert {s : Store} {op : Operation} (hv : Verified lib op) :
    Summary (s.insert op) op.author = some (max ((Summary s op.author).getD 0) op.seq) := by
  unfold Summary
  rw [Store.insert_seqByAuthor]
  have hold : (s.seqByAuthor op.author).getD 0 = s.seqOf op.author := rfl
  by_cases hlt : s.seqOf op.author < op.seq
  · rw [if_pos ⟨rfl, hlt⟩, hold, UInt64.max_eq_right' hlt]
  · rw [if_neg fun h => hlt h.2]
    rcases hm : s.seqByAuthor op.author with _ | m
    · exact (hv.seq_ne (UInt64.toNat.inj (Nat.le_zero.mp
        (UInt64.not_lt.mp (by simpa [Store.seqOf, hm] using hlt))))).elim
    · rw [Option.getD_some, UInt64.max_eq_left' (by simpa [Store.seqOf, hm] using hlt)]

namespace LogInv

variable {s : Store} {op : Operation}

theorem opIDs_eq (h : LogInv lib s) (x : Bytes) :
    s.opIDs x = decide (∃ o ∈ s.ops, o.id = x) :=
  Bool.eq_iff_iff.mpr ((h.opIDs_iff x).trans decide_eq_true_iff.symm)

/-- With no stored operation of `op`'s ID, the index gives another ID at
`op`'s key exactly when the log holds an operation with `op`'s key. -/
theorem index_any_eq (h : LogInv lib s) (hid : ¬ ∃ o ∈ s.ops, o.id = op.id) :
    (s.authorSeqIndex (authorSeqKey op.author op.seq)).any (· != op.id) =
      decide (∃ o ∈ s.ops, o.author = op.author ∧ o.seq = op.seq) := by
  rcases hk : s.authorSeqIndex (authorSeqKey op.author op.seq) with _ | x
  · refine (decide_eq_false fun ⟨o, ho, ea, es⟩ => ?_).symm
    have := (h.index_iff _ o.id).mpr ⟨o, ho, by rw [ea, es], rfl⟩
    rw [hk] at this
    cases this
  · obtain ⟨o, ho, ek, rfl⟩ := (h.index_iff _ _).mp hk
    rw [Option.any_some, show (o.id != op.id) = true from bne_iff_ne.mpr fun e => hid ⟨o, ho, e⟩]
    symm
    exact decide_eq_true ⟨o, ho, authorSeqKey_injective ek⟩

/-- On a handle satisfying `LogInv`, `addOperationLocked` whose write succeeds
answers what the log says. -/
theorem addOperationLocked_result (h : LogInv lib s) (log : Bytes) (op : Operation) :
    (addOperationLocked lib true .whole s log op).result = remoteAnswer lib s.ops op := by
  unfold addOperationLocked remoteAnswer
  cases verifyOperation lib op with
  | error e => rfl
  | ok u =>
    dsimp only
    rw [h.opIDs_eq]
    by_cases hid : ∃ o ∈ s.ops, o.id = op.id
    · simp [hid]
    · rw [h.index_any_eq hid]
      by_cases hkey : ∃ o ∈ s.ops, o.author = op.author ∧ o.seq = op.seq <;>
        simp [hid, hkey, commitOperation_result]

end LogInv

/-- `AddRemoteOp`'s outcome on every reachable handle, its write succeeding:
the answer is `remoteAnswer` of the log; an append inserts the operation,
writes it to `ops.log` and raises its author's summary to the larger of the
old value and its seq; every other answer changes nothing. -/
theorem addRemoteOp_outcome (identity : Identity) (privateKey : Bytes) (peers : List Bytes)
    (log : Bytes) (calls : List LogCall) (op : Operation) :
    let st := runCalls lib (Store.empty identity privateKey peers, log) calls
    let r := AddRemoteOp lib .whole st.1 st.2 op
    r.result = remoteAnswer lib st.1.ops op ∧
      (r.result = .ok true → r.store = st.1.insert op ∧ r.log = st.2 ++ opsLine lib op ∧
        Summary r.store op.author = some (max ((Summary st.1 op.author).getD 0) op.seq)) ∧
      (r.result ≠ .ok true → r.store = st.1 ∧ r.log = st.2) := by
  intro st r
  have h : LogInv lib st.1 := (logInv_empty identity privateKey peers).runCalls calls
  have hres : r.result = remoteAnswer lib st.1.ops op := h.addOperationLocked_result _ _
  refine ⟨hres, fun hok => ?_, fun hne => addOperationLocked_unchanged hne ?_⟩
  · obtain ⟨hv, ha, -⟩ := addOperationLocked_result_ok_true.mp hok
    have hs : r.store = st.1.insert op := by
      simp only [r, AddRemoteOp, addOperationLocked_store, if_pos (And.intro hv ha)]
    refine ⟨hs, ?_, hs ▸ summary_insert hv⟩
    show (addOperationLocked lib true .whole st.1 st.2 op).log = _
    rw [addOperationLocked_log, if_pos (And.intro hv (And.intro ha rfl))]
    rfl
  · show r.result ≠ _
    rw [hres, remoteAnswer]
    split
    · simp
    · split_ifs <;> simp

/-! ## Signing on a reachable handle -/

/-- Replacing the type by a text `json.Marshal` writes the same way keeps an
operation verified, under the same ID. -/
theorem Verified.retype {op : Operation} {τ : Bytes} (hv : Verified lib op)
    (hτ : trimSpace τ ≠ []) (he : encodeString τ = encodeString op.type) :
    Verified lib { op with type := τ } := by
  obtain ⟨pub, sig, signable, hp, hl, ha, hs, hsl, hc, hver, hid⟩ := hv.keys
  have hc' : canonicalOperationBytes lib { op with type := τ } = .ok signable := by
    rw [← hc]
    simp only [canonicalOperationBytes, he]
  exact ⟨hv.id_ne, hτ, hv.author_ne, hv.seq_ne, hv.timestamp_parses,
    pub, sig, signable, hp, hl, ha, hs, hsl, hc', hver, hid⟩

/-- Replacing the signature text by one that decodes to the same bytes keeps
an operation verified, under the same ID. -/
theorem Verified.resign {op : Operation} {σ : Bytes} (hv : Verified lib op)
    (hσ : base64Decode σ = base64Decode op.signature) :
    Verified lib { op with signature := σ } := by
  obtain ⟨pub, sig, signable, hp, hl, ha, hs, hsl, hc, hver, hid⟩ := hv.keys
  exact ⟨hv.id_ne, hv.type_ne, hv.author_ne, hv.seq_ne, hv.timestamp_parses,
    pub, sig, signable, hp, hl, ha, hσ.trans hs, hsl, hc, hver, hid⟩

theorem base64Decode_append_newline (s : Bytes) : base64Decode (s ++ [0x0A]) = base64Decode s := by
  have : [(0x0A : UInt8)].filter (fun c => c != 0x0D && c != 0x0A) = [] := rfl
  rw [base64Decode, base64Decode, List.filter_append, this, List.append_nil]

/-- The failing input of tamper evidence, under every library and key pair:
`AppendLocalOp` of the type `0xFF` on a fresh handle returns an operation;
the same operation with the type `0xFE`, or with a line break after its
signature, is another operation that verifies under the same ID, and
`AddRemoteOp` answers `(false, nil)` to it as to a duplicate. -/
theorem retyped_operation_duplicate (k : KeyPair) (now : Time) :
    let r := AppendLocalOp lib now .whole (Store.empty (generateIdentity lib k) (k.priv lib) []) []
      [0xFF] []
    ∃ op, r.result = .ok op ∧ Verified lib op ∧
      Verified lib { op with type := [0xFE] } ∧ op.type ≠ [0xFE] ∧
      (AddRemoteOp lib .whole r.store r.log { op with type := [0xFE] }).result = .ok false ∧
      Verified lib { op with signature := op.signature ++ [0x0A] } ∧
      (AddRemoteOp lib .whole r.store r.log { op with signature := op.signature ++ [0x0A] }).result =
        .ok false := by
  intro r
  have htrim : trimSpace [0xFF] = [0xFF] := by decide
  obtain ⟨op, hv, hty, -, -, -, -, h⟩ := @appendLocalOp_signs lib k now .whole
    (Store.empty (generateIdentity lib k) (k.priv lib) []) [] _ _ rfl rfl rfl
    (by rw [htrim]; exact List.cons_ne_nil _ _) (.inl rfl) (show (0 : UInt64) + 1 ≠ 0 by decide)
  have hr : r = ⟨.ok op, (Store.empty (generateIdentity lib k) (k.priv lib) []).insert op,
      [] ++ opsLine lib op⟩ := by
    show AppendLocalOp _ _ _ _ _ _ _ = _
    rw [h]
    rfl
  have hv₁ : Verified lib { op with type := [0xFE] } :=
    hv.retype (by decide) (by rw [hty, htrim]; decide)
  have hv₂ : Verified lib { op with signature := op.signature ++ [0x0A] } :=
    hv.resign (base64Decode_append_newline _)
  have dup : ∀ op' : Operation, Verified lib op' → op'.id = op.id →
      (AddRemoteOp lib .whole r.store r.log op').result = .ok false := fun op' hv' hid => by
    rw [hr]
    simp only [AddRemoteOp, addOperationLocked, (verifyOperation_eq_ok lib).mpr hv',
      Store.insert_opIDs, hid, Function.update_same, if_true]
  refine ⟨op, by rw [hr], hv, hv₁, by rw [hty, htrim]; decide, dup _ hv₁ rfl, hv₂,
    dup _ hv₂ rfl⟩

end Dqrvcs

/-
# `Dqrvcs.Atomicity` — what a failed call leaves behind

`addOperationLocked` appends to `ops` and updates `opIDs`, `authorSeqIndex`
and `seqByAuthor` before it calls `appendOpLocked`, and returns the write's
error without undoing them; `AddPeer` and `RemovePeer` change `s.peers`
before `savePeersLocked` in the same way (`Dqrvcs.Peers`).

What holds: every error raised before the write (a bad type or payload, a
failed verification, a conflict, a duplicate) leaves the handle and the files
as they were (`appendLocalOp_error`, `addOperationLocked_unchanged`), and
along runs whose writes all succeed memory is exactly what `ops.log` holds
(`ops_eq_log_of_persisted`).  What fails: a failed write keeps the change in
memory, so memory and `ops.log` part (`appendLocalOp_write_failed`).

On a handle whose keys a key pair generated, `AppendLocalOp` signs an
operation that verifies and then answers as `addOperationLocked` decides
(`appendLocalOp_signs`); every later use of a local append starts there.
-/
import Dqrvcs.Invariant
import Dqrvcs.Peers

namespace Dqrvcs

variable {lib : Stdlib}

/-- Every error of `AppendLocalOp` but a failed write leaves the handle and
`ops.log` as they were. -/
theorem appendLocalOp_error {now : Time} {io : Write} {s : Store} {log : Bytes}
    {opType payload : Bytes} {e : StoreError}
    (he : (AppendLocalOp lib now io s log opType payload).result = .error e)
    (hne : e ≠ .appendFailed) :
    (AppendLocalOp lib now io s log opType payload).store = s ∧
      (AppendLocalOp lib now io s log opType payload).log = log := by
  rcases appendLocalOp_cases now io s log opType payload with
    ⟨hs, hl, -⟩ | ⟨op, -, -, hs, hl, hok, herr⟩
  · exact ⟨hs, hl⟩
  rw [hs, hl]
  refine addOperationLocked_unchanged (fun h => ?_) (fun h => ?_)
  · rw [hok.mpr h] at he
    cases he
  · rw [herr _ h] at he
    exact hne (Except.error.inj he).symm

/-- A call whose writes all succeed. -/
def LogCall.Persists : LogCall → Prop
  | .appendLocal _ io _ _ => io = .whole
  | .addRemote io _ => io = .whole
  | .replay _ => False

/-- With its write whole, `addOperationLocked` changes memory and `ops.log`
alike. -/
theorem ops_addOperationLocked_persisted {s : Store} {log : Bytes} {op : Operation}
    (h : opsLogText lib s.ops = log) :
    opsLogText lib (addOperationLocked lib true .whole s log op).store.ops =
      (addOperationLocked lib true .whole s log op).log := by
  rw [addOperationLocked_store, addOperationLocked_log]
  split_ifs <;> simp_all [Write.written]

/-- Along runs whose writes are all whole, `ops.log` is the text of the
records in memory, as `loadOps` would read them back. -/
theorem ops_eq_log_of_persisted (calls : List LogCall) (hc : ∀ c ∈ calls, c.Persists)
    (st : Store × Bytes) (h : opsLogText lib st.1.ops = st.2) :
    opsLogText lib (runCalls lib st calls).1.ops = (runCalls lib st calls).2 := by
  refine @runCalls_induction lib (fun st => opsLogText lib st.1.ops = st.2) calls st h
    fun c hcs ⟨s, log⟩ h => ?_
  cases c with
  | appendLocal now io opType payload =>
    obtain rfl : io = .whole := hc _ hcs
    show opsLogText lib (AppendLocalOp lib now .whole s log opType payload).store.ops =
      (AppendLocalOp lib now .whole s log opType payload).log
    rcases appendLocalOp_cases now .whole s log opType payload with
      ⟨hs, hl, -⟩ | ⟨op, -, -, hs, hl, -⟩ <;> rw [hs, hl]
    · exact h
    · exact ops_addOperationLocked_persisted h
  | addRemote io op =>
    obtain rfl : io = .whole := hc _ hcs
    exact ops_addOperationLocked_persisted h
  | replay op => exact (hc _ hcs).elim

/-- On any handle whose keys are a generated key pair's, `AppendLocalOp` of a
type with a nonempty trim and a payload that is empty or valid JSON signs an
operation that verifies, with the next seq, and answers as
`addOperationLocked` decides it: a known ID is `"operation already exists"`,
a taken `(author, seq)` a conflict, anything else the insert, with the
write's outcome. -/
theorem appendLocalOp_signs (k : KeyPair) (now : Time) (io : Write) {s : Store}
    (log : Bytes) {opType payload : Bytes}
    (hid : s.identity.nodeID = nodeIDFromPublicKey lib (k.pub lib))
    (hpk : s.identity.publicKey = base64Encode (k.pub lib)) (hpriv : s.privateKey = k.priv lib)
    (hτ : trimSpace opType ≠ []) (hp : payload = [] ∨ lib.jsonValid payload = true)
    (hseq : s.seqOf s.identity.nodeID + 1 ≠ 0) :
    ∃ op : Operation, Verified lib op ∧ op.type = trimSpace opType ∧
      op.author = s.identity.nodeID ∧ op.seq = s.seqOf s.identity.nodeID + 1 ∧
      op.timestamp = formatRFC3339Nano now ∧
      op.payload = (if payload = [] then emptyObject else payload) ∧
      AppendLocalOp lib now io s log opType payload =
        if s.opIDs op.id then ⟨.error .alreadyExists, s, log⟩
        else if (s.authorSeqIndex (authorSeqKey op.author op.seq)).any (· != op.id) then
          ⟨.error (.conflict op.author op.seq), s, log⟩
        else ⟨if io = .whole then .ok op else .error .appendFailed, s.insert op,
          log ++ io.written (opsLine lib op)⟩ := by
  have hvalid : lib.jsonValid (if payload = [] then emptyObject else payload) = true := by
    split_ifs with h
    · exact lib.valid_braces
    · exact hp.resolve_left h
  unfold AppendLocalOp
  dsimp only
  generalize (if payload = [] then emptyObject else payload) = p at hvalid ⊢
  have hne : p ≠ [] := fun e => by rw [e, lib.valid_nil] at hvalid; cases hvalid
  rw [if_neg hτ, hvalid]
  simp only [Bool.not_true, Bool.false_eq_true, if_false]
  split
  next e heq =>
    unfold signOperation canonicalOperationBytes at heq
    dsimp only at heq
    rw [if_neg hne, if_pos hvalid] at heq
    cases heq
  next sig id heq =>
    rw [hpriv] at heq
    have hv := verified_signOperation lib k heq (by rw [trimSpace_trimSpace]; exact hτ)
      hseq (lib.parses_format now) hid hpk
    refine ⟨_, hv, rfl, rfl, rfl, rfl, rfl, ?_⟩
    unfold addOperationLocked
    rw [(verifyOperation_eq_ok lib).mpr hv]
    dsimp only
    by_cases h₁ : s.opIDs id = true
    · rw [if_pos h₁, if_pos h₁]
    rw [if_neg h₁, if_neg h₁]
    by_cases h₂ : (s.authorSeqIndex (authorSeqKey s.identity.nodeID
      (s.seqOf s.identity.nodeID + 1))).any (· != id) = true
    · rw [if_pos h₂, if_pos h₂]
    rw [if_neg h₂, if_neg h₂]
    cases io <;> rfl

/-- On a handle with no operations and a generated identity, `AppendLocalOp`
of a type and `{}` signs the operation with seq 1 and adds it: memory holds it
whether or not the write succeeds, and `ops.log` gets it when it does. -/
theorem appendLocalOp_empty (k : KeyPair) (now : Time) (io : Write) (peers : List Bytes)
    (log : Bytes) {opType : Bytes} (hτ : trimSpace opType ≠ []) :
    ∃ op : Operation, Verified lib op ∧ op.type = trimSpace opType ∧
      op.author = (generateIdentity lib k).nodeID ∧ op.seq = 1 ∧
      op.timestamp = formatRFC3339Nano now ∧ op.payload = emptyObject ∧
      AppendLocalOp lib now io (Store.empty (generateIdentity lib k) (k.priv lib) peers) log
          opType emptyObject =
        ⟨if io = .whole then .ok op else .error .appendFailed,
          (Store.empty (generateIdentity lib k) (k.priv lib) peers).insert op,
          log ++ io.written (opsLine lib op)⟩ := by
  obtain ⟨op, hv, hty, hau, hsq, hts, hpl, h⟩ := appendLocalOp_signs
    (s := Store.empty (generateIdentity lib k) (k.priv lib) peers) k now io log rfl rfl rfl hτ
    (.inr lib.valid_braces) (show (0 : UInt64) + 1 ≠ 0 by decide)
  refine ⟨op, hv, hty, hau, hsq, hts, by rw [hpl, ite_self], ?_⟩
  rw [h]
  rfl

/-- On a fresh handle with a generated identity, `AppendLocalOp("git.commit", {})`
whose write of `ops.log` fails returns the append error, yet the operation is
in memory while `ops.log` is still empty. -/
theorem appendLocalOp_write_failed (k : KeyPair) (now : Time) :
    (AppendLocalOp lib now (.short 0) (Store.empty (generateIdentity lib k) (k.priv lib) []) []
        (ascii "git.commit") emptyObject).result = .error .appendFailed ∧
    (AppendLocalOp lib now (.short 0) (Store.empty (generateIdentity lib k) (k.priv lib) []) []
        (ascii "git.commit") emptyObject).store.ops.length = 1 ∧
    (AppendLocalOp lib now (.short 0) (Store.empty (generateIdentity lib k) (k.priv lib) []) []
        (ascii "git.commit") emptyObject).log = [] := by
  have htrim : trimSpace (ascii "git.commit") ≠ [] := by
    rw [trimSpace_of_graphic (by decide)]
    decide
  obtain ⟨op, -, -, -, -, -, -, h⟩ := @appendLocalOp_empty lib k now (.short 0) [] [] _ htrim
  rw [h]
  exact ⟨rfl, rfl, rfl⟩

end Dqrvcs

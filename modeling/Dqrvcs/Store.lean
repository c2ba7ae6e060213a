/-
# `Dqrvcs.Store` — the operation log of one `Store` handle

`store.go`: the fields of `Store` guarded by `mu` that the log uses, and the
methods over them — `addOperationLocked` (with `appendOpLocked`),
`AppendLocalOp`, `AddRemoteOp`, `Summary`, `MissingFor` and `Ops`.

Go maps become functions: `opIDs` a predicate, `seqByAuthor` and
`authorSeqIndex` partial maps, absence being `none`.  `ops.log` is its bytes.
`appendOpLocked` writes an operation's `json.Marshal` encoding and a newline at
the end of it (`O_APPEND`); what the file system makes of that write is the
argument `io : Write`: the whole line, or only its first `n` bytes before
`os.OpenFile` or `file.Write` fails.  A failed write, and a torn line without
its newline, are runs the model can take.  A call returns an `Outcome`: its
result, the handle's state after it, and `ops.log` after it.

`addOperationLocked` changes memory before it writes, and does not undo the
change when the write fails.  The model keeps that order; its consequences
are the subject of `Dqrvcs.Atomicity`.

`sort.SliceStable` is an insertion sort here: every stable sort returns the
same list.
-/
import Dqrvcs.Operation

namespace Dqrvcs

/-- The state of a `Store` handle that the operation log reads and writes. -/
structure Store where
  identity : Identity
  privateKey : Bytes
  ops : List Operation
  opIDs : Bytes → Bool
  seqByAuthor : Bytes → Option UInt64
  authorSeqIndex : Bytes → Option Bytes
  peers : List Bytes

/-- The errors the log's mutators return. -/
inductive StoreError
  | typeRequired
  | payloadInvalid
  | verify (e : VerifyError)
  | conflict (author : Bytes) (seq : UInt64)
  | appendFailed
  | alreadyExists
deriving DecidableEq, Repr

/-- The text of each error, less the I/O error `appendOpLocked` wraps. -/
def StoreError.message : StoreError → Bytes
  | .typeRequired => ascii "operation type is required"
  | .payloadInvalid => ascii "payload must be valid JSON"
  | .verify e => ascii e.message
  | .conflict author seq =>
    ascii "conflicting operations for " ++ author ++ ascii " seq=" ++ formatUint seq.toNat
  | .appendFailed => ascii "append operation"
  | .alreadyExists => ascii "operation already exists"

/-- What a mutating call returns, the handle's state after it, and the bytes
of `ops.log` after it. -/
structure Outcome (α : Type) where
  result : Except StoreError α
  store : Store
  log : Bytes

namespace Store

/-- A handle as `OpenStore` builds it before `loadOps`: an identity, its peers,
no operations. -/
def empty (identity : Identity) (privateKey : Bytes) (peers : List Bytes) : Store :=
  ⟨identity, privateKey, [], fun _ => false, fun _ => none, fun _ => none, peers⟩

/-- `s.seqByAuthor[author]`, with Go's zero for a missing key. -/
def seqOf (s : Store) (author : Bytes) : UInt64 := (s.seqByAuthor author).getD 0

/-- The in-memory half of `addOperationLocked`: append to `ops` and update the
three indices. -/
def insert (s : Store) (op : Operation) : Store :=
  { s with
    ops := s.ops ++ [op]
    opIDs := Function.update s.opIDs op.id true
    authorSeqIndex := Function.update s.authorSeqIndex (authorSeqKey op.author op.seq) (some op.id)
    seqByAuthor := if s.seqOf op.author < op.seq
      then Function.update s.seqByAuthor op.author (some op.seq) else s.seqByAuthor }

@[simp] theorem insert_ops (s : Store) (op : Operation) : (s.insert op).ops = s.ops ++ [op] := rfl
@[simp] theorem insert_identity (s : Store) (op : Operation) :
    (s.insert op).identity = s.identity := rfl
@[simp] theorem insert_privateKey (s : Store) (op : Operation) :
    (s.insert op).privateKey = s.privateKey := rfl
@[simp] theorem insert_opIDs (s : Store) (op : Operation) :
    (s.insert op).opIDs = Function.update s.opIDs op.id true := rfl
@[simp] theorem insert_authorSeqIndex (s : Store) (op : Operation) :
    (s.insert op).authorSeqIndex =
      Function.update s.authorSeqIndex (authorSeqKey op.author op.seq) (some op.id) := rfl
@[simp] theorem insert_peers (s : Store) (op : Operation) : (s.insert op).peers = s.peers := rfl

theorem insert_seqByAuthor (s : Store) (op : Operation) (a : Bytes) :
    (s.insert op).seqByAuthor a =
      if a = op.author ∧ s.seqOf op.author < op.seq then some op.seq else s.seqByAuthor a := by
  unfold insert
  split_ifs with h1 h2 h2
  · rw [h2.1]
    exact Function.update_same _ _ _
  all_goals simp_all [Function.update_noteq]

theorem insert_seqOf (s : Store) (op : Operation) (a : Bytes) :
    (s.insert op).seqOf a = if a = op.author ∧ s.seqOf op.author < op.seq then op.seq else s.seqOf a := by
  show ((s.insert op).seqByAuthor a).getD 0 = _
  rw [insert_seqByAuthor]
  split_ifs <;> rfl

/-- `op` is neither a known ID nor in conflict with the index: the two tests
`addOperationLocked` makes after verifying. -/
def Admits (s : Store) (op : Operation) : Prop :=
  s.opIDs op.id = false ∧ (s.authorSeqIndex (authorSeqKey op.author op.seq)).any (· != op.id) = false

instance (s : Store) (op : Operation) : Decidable (s.Admits op) :=
  inferInstanceAs (Decidable (_ ∧ _))

theorem empty_admits {identity : Identity} {privateKey : Bytes} {peers : List Bytes}
    {op : Operation} : (empty identity privateKey peers).Admits op :=
  ⟨rfl, rfl⟩

end Store

variable (lib : Stdlib)

/-- `json.Marshal(op)`: the fields in declaration order under their tags, the
payload compacted and left out when empty (`omitempty`). -/
def marshalOperation (op : Operation) : Bytes :=
  ascii "\x7b\"id\":" ++ encodeString op.id ++ ascii ",\"type\":" ++ encodeString op.type ++
    ascii ",\"author\":" ++ encodeString op.author ++ ascii ",\"seq\":" ++
    formatUint op.seq.toNat ++ ascii ",\"timestamp\":" ++ encodeString op.timestamp ++
    (if op.payload = [] then [] else ascii ",\"payload\":" ++ lib.jsonCompact op.payload) ++
    ascii ",\"public_key\":" ++ encodeString op.publicKey ++
    ascii ",\"signature\":" ++ encodeString op.signature ++ ascii "\x7d"

/-- The line `appendOpLocked` writes for `op`: `append(encoded, '\n')`. -/
def opsLine (op : Operation) : Bytes := marshalOperation lib op ++ [0x0A]

/-- `json.Marshal` writes no newline in an operation whose payload is empty or
valid JSON, so its line holds one newline, at its end. -/
theorem newline_not_mem_marshalOperation {op : Operation}
    (hp : op.payload = [] ∨ lib.jsonValid op.payload = true) :
    (0x0A : UInt8) ∉ marshalOperation lib op := by
  have hpay : (0x0A : UInt8) ∉ (if op.payload = [] then [] else
      ascii ",\"payload\":" ++ lib.jsonCompact op.payload) := by
    split_ifs with h
    · exact List.not_mem_nil _
    · exact List.not_mem_append (by decide) (lib.newline_not_mem_compact _ (hp.resolve_left h))
  have hseq : (0x0A : UInt8) ∉ formatUint op.seq.toNat := fun h => by
    have := (mem_formatUint h).1
    exact absurd this (by decide)
  simp only [marshalOperation, List.append_assoc, List.mem_append, not_or]
  exact ⟨by decide, newline_not_mem_encodeString _, by decide, newline_not_mem_encodeString _,
    by decide, newline_not_mem_encodeString _, by decide, hseq, by decide,
    newline_not_mem_encodeString _, hpay, by decide, newline_not_mem_encodeString _, by decide,
    newline_not_mem_encodeString _, by decide⟩

theorem Verified.payload_valid {op : Operation} (hv : Verified lib op) :
    op.payload = [] ∨ lib.jsonValid op.payload = true := by
  obtain ⟨_, _, _, -, -, -, -, -, hc, -⟩ := hv.keys
  by_cases hp : op.payload = []
  · exact .inl hp
  · right
    by_contra hn
    simp [canonicalOperationBytes, hp, hn] at hc

/-- The text of an `ops.log` holding the records `ops`, each on its own line,
as whole writes of `appendOpLocked` leave it. -/
def opsLogText (ops : List Operation) : Bytes := ops.flatMap (opsLine lib)

@[simp] theorem opsLogText_nil : opsLogText lib [] = [] := rfl

@[simp] theorem opsLogText_append (ops ops' : List Operation) :
    opsLogText lib (ops ++ ops') = opsLogText lib ops ++ opsLogText lib ops' :=
  List.flatMap_append _ _ _

@[simp] theorem opsLogText_singleton (op : Operation) : opsLogText lib [op] = opsLine lib op :=
  List.append_nil _

/-- What the file system makes of the line `appendOpLocked` writes: all of
it, or its first `n` bytes and then an error, `n = 0` also standing for
`os.OpenFile` failing. -/
inductive Write
  | whole
  | short (n : Nat)
deriving DecidableEq, Repr

/-- The bytes a write of `line` leaves at the end of the file. -/
def Write.written : Write → Bytes → Bytes
  | .whole, line => line
  | .short n, line => line.take n

/-- `appendOpLocked`: the operation's line at the end of `ops.log`, or as much
of it as the write gets out before it fails. -/
def appendOpLocked (io : Write) (log : Bytes) (op : Operation) : Except StoreError Unit × Bytes :=
  match io with
  | .whole => (.ok (), log ++ opsLine lib op)
  | .short n => (.error .appendFailed, log ++ (opsLine lib op).take n)

/-- The tail of `addOperationLocked` once its checks pass: the insert, then the
append when `persist`. -/
def commitOperation (persist : Bool) (io : Write) (s : Store) (log : Bytes) (op : Operation) :
    Outcome Bool :=
  if persist then
    match appendOpLocked lib io log op with
    | (.error e, log') => ⟨.error e, s.insert op, log'⟩
    | (.ok (), log') => ⟨.ok true, s.insert op, log'⟩
  else ⟨.ok true, s.insert op, log⟩

/-- `addOperationLocked`. -/
def addOperationLocked (persist : Bool) (io : Write) (s : Store) (log : Bytes) (op : Operation) :
    Outcome Bool :=
  match verifyOperation lib op with
  | .error e => ⟨.error (.verify e), s, log⟩
  | .ok () =>
    if s.opIDs op.id then ⟨.ok false, s, log⟩
    else if (s.authorSeqIndex (authorSeqKey op.author op.seq)).any (· != op.id) then
      ⟨.error (.conflict op.author op.seq), s, log⟩
    else commitOperation lib persist io s log op

section Commit

variable {lib} {persist : Bool} {io : Write} {s : Store} {log : Bytes} {op : Operation}

@[simp] theorem commitOperation_store :
    (commitOperation lib persist io s log op).store = s.insert op := by
  unfold commitOperation appendOpLocked
  cases persist <;> cases io <;> rfl

theorem commitOperation_log : (commitOperation lib persist io s log op).log =
    if persist then log ++ io.written (opsLine lib op) else log := by
  unfold commitOperation appendOpLocked
  cases persist <;> cases io <;> rfl

theorem commitOperation_result : (commitOperation lib persist io s log op).result =
    if persist = true ∧ io ≠ .whole then .error .appendFailed else .ok true := by
  unfold commitOperation appendOpLocked
  cases persist <;> cases io <;> simp

/-- Memory after `addOperationLocked`: the insert, exactly when the operation
verifies and is admitted.  Neither `persist` nor the write's outcome matters. -/
theorem addOperationLocked_store : (addOperationLocked lib persist io s log op).store =
    if Verified lib op ∧ s.Admits op then s.insert op else s := by
  unfold addOperationLocked Store.Admits
  by_cases hv : Verified lib op
  · rw [(verifyOperation_eq_ok lib).mpr hv]
    dsimp only
    split_ifs <;> simp_all
  · obtain ⟨e, he⟩ := verifyOperation_of_not_verified lib hv
    simp [he, hv]

/-- `ops.log` after `addOperationLocked`: the operation's line, as much of it
as the write gets out, exactly when the operation is inserted and `persist`
is asked. -/
theorem addOperationLocked_log : (addOperationLocked lib persist io s log op).log =
    if Verified lib op ∧ s.Admits op ∧ persist = true then log ++ io.written (opsLine lib op)
    else log := by
  unfold addOperationLocked Store.Admits
  by_cases hv : Verified lib op
  · rw [(verifyOperation_eq_ok lib).mpr hv]
    dsimp only
    split_ifs <;> simp_all [commitOperation_log]
  · obtain ⟨e, he⟩ := verifyOperation_of_not_verified lib hv
    simp [he, hv]

/-- The answer to an operation that verifies and is admitted: `(true, nil)`,
or the write's error. -/
theorem addOperationLocked_result_of_admits (hv : Verified lib op) (ha : s.Admits op) :
    (addOperationLocked lib persist io s log op).result =
      if persist = true ∧ io ≠ .whole then .error .appendFailed else .ok true := by
  unfold addOperationLocked Store.Admits at *
  rw [(verifyOperation_eq_ok lib).mpr hv]
  simp only [ha.1, ha.2, Bool.false_eq_true, if_false, commitOperation_result]

/-- `addOperationLocked` answers `(true, nil)` exactly when it inserts and any
write it was asked for is whole. -/
theorem addOperationLocked_result_ok_true : (addOperationLocked lib persist io s log op).result =
    .ok true ↔ Verified lib op ∧ s.Admits op ∧ (persist = true → io = .whole) := by
  by_cases hva : Verified lib op ∧ s.Admits op
  · rw [addOperationLocked_result_of_admits hva.1 hva.2]
    split_ifs with h <;> simp_all
  · refine ⟨fun h => absurd ?_ hva, fun h => absurd ⟨h.1, h.2.1⟩ hva⟩
    unfold addOperationLocked Store.Admits at *
    split at h
    · cases h
    · rename_i heq
      refine ⟨(verifyOperation_eq_ok lib).mp heq, ?_⟩
      by_cases h₁ : s.opIDs op.id = true
      · rw [if_pos h₁] at h
        cases h
      by_cases h₂ : (s.authorSeqIndex (authorSeqKey op.author op.seq)).any (· != op.id) = true
      · rw [if_neg h₁, if_pos h₂] at h
        cases h
      exact ⟨by simpa using h₁, by simpa using h₂⟩

/-- A failed write of an inserted operation is reported, and the insert stays;
the file keeps what the write got out. -/
theorem addOperationLocked_appendFailed {n : Nat} (hv : Verified lib op) (ha : s.Admits op) :
    addOperationLocked lib true (.short n) s log op =
      ⟨.error .appendFailed, s.insert op, log ++ (opsLine lib op).take n⟩ := by
  unfold addOperationLocked Store.Admits at *
  rw [(verifyOperation_eq_ok lib).mpr hv]
  simp [ha.1, ha.2, commitOperation, appendOpLocked]

/-- An operation that verifies, with a new ID, whose `(author, seq)` the index
gives another ID: `addOperationLocked` reports the conflict and changes
nothing. -/
theorem addOperationLocked_conflict (hv : Verified lib op) (hid : s.opIDs op.id = false)
    (hkey : (s.authorSeqIndex (authorSeqKey op.author op.seq)).any (· != op.id) = true) :
    addOperationLocked lib persist io s log op = ⟨.error (.conflict op.author op.seq), s, log⟩ := by
  unfold addOperationLocked
  rw [(verifyOperation_eq_ok lib).mpr hv]
  simp [hid, hkey]

/-- Every answer but `(true, nil)` and a failed write comes before the
insert: the handle and `ops.log` are as they were. -/
theorem addOperationLocked_unchanged
    (hok : (addOperationLocked lib persist io s log op).result ≠ .ok true)
    (hne : (addOperationLocked lib persist io s log op).result ≠ .error .appendFailed) :
    (addOperationLocked lib persist io s log op).store = s ∧
      (addOperationLocked lib persist io s log op).log = log := by
  rw [addOperationLocked_store, addOperationLocked_log]
  by_cases hva : Verified lib op ∧ s.Admits op
  · rw [addOperationLocked_result_of_admits hva.1 hva.2] at hok hne
    split_ifs at hok hne <;> simp at hok hne
  · exact ⟨if_neg hva, if_neg fun h => hva ⟨h.1, h.2.1⟩⟩

end Commit

/-- `AddRemoteOp`. -/
def AddRemoteOp (io : Write) (s : Store) (log : Bytes) (op : Operation) : Outcome Bool :=
  addOperationLocked lib true io s log op

/-- `AppendLocalOp`, at the instant `now`. -/
def AppendLocalOp (now : Time) (io : Write) (s : Store) (log : Bytes)
    (opType payload : Bytes) : Outcome Operation :=
  let opType := trimSpace opType
  if opType = [] then ⟨.error .typeRequired, s, log⟩ else
  let payload := if payload = [] then emptyObject else payload
  if !lib.jsonValid payload then ⟨.error .payloadInvalid, s, log⟩ else
  let op : Operation := ⟨[], opType, s.identity.nodeID, s.seqOf s.identity.nodeID + 1,
    formatRFC3339Nano now, payload, s.identity.publicKey, []⟩
  match signOperation lib op s.privateKey with
  | .error e => ⟨.error (.verify e), s, log⟩
  | .ok (sig, id) =>
    let op := { op with signature := sig, id := id }
    let r := addOperationLocked lib true io s log op
    match r.result with
    | .error e => ⟨.error e, r.store, r.log⟩
    | .ok false => ⟨.error .alreadyExists, r.store, r.log⟩
    | .ok true => ⟨.ok op, r.store, r.log⟩

variable {lib} in
/-- `AppendLocalOp` either stops with an error before touching anything, or
is what `addOperationLocked` makes, in memory, in `ops.log` and in its
answer, of an operation by the handle's own node with the next seq. -/
theorem appendLocalOp_cases (now : Time) (io : Write) (s : Store) (log : Bytes)
    (opType payload : Bytes) :
    ((AppendLocalOp lib now io s log opType payload).store = s ∧
      (AppendLocalOp lib now io s log opType payload).log = log ∧
      ∃ e, (AppendLocalOp lib now io s log opType payload).result = .error e ∧
        e ≠ .appendFailed) ∨
    ∃ op : Operation, op.author = s.identity.nodeID ∧ op.seq = s.seqOf s.identity.nodeID + 1 ∧
      (AppendLocalOp lib now io s log opType payload).store =
        (addOperationLocked lib true io s log op).store ∧
      (AppendLocalOp lib now io s log opType payload).log =
        (addOperationLocked lib true io s log op).log ∧
      ((AppendLocalOp lib now io s log opType payload).result = .ok op ↔
        (addOperationLocked lib true io s log op).result = .ok true) ∧
      ∀ e, (addOperationLocked lib true io s log op).result = .error e →
        (AppendLocalOp lib now io s log opType payload).result = .error e := by
  unfold AppendLocalOp
  dsimp only
  generalize (if payload = [] then emptyObject else payload) = p
  split_ifs <;> try exact .inl ⟨rfl, rfl, _, rfl, nofun⟩
  split
  · exact .inl ⟨rfl, rfl, _, rfl, nofun⟩
  · rename_i sig id _
    refine .inr ⟨⟨id, trimSpace opType, s.identity.nodeID, s.seqOf s.identity.nodeID + 1,
      formatRFC3339Nano now, p, s.identity.publicKey, sig⟩, rfl, rfl, ?_, ?_, ?_, ?_⟩ <;>
    split <;> simp_all

/-- `Summary`: a copy of `seqByAuthor`. -/
def Summary (s : Store) : Bytes → Option UInt64 := s.seqByAuthor

/-- The `less` of the `sort.SliceStable` calls in `MissingFor` and `Ops`: by
author, then by seq. -/
def opLess (a b : Operation) : Bool :=
  if a.author ≠ b.author then bytesLt a.author b.author else decide (a.seq < b.seq)

/-- `sort.SliceStable(ordered, less)` with `opLess`. -/
def sortOps (ops : List Operation) : List Operation :=
  ops.insertionSort fun a b => opLess b a = false

/-- The loop of `MissingFor`: keep what the summary lacks, stop once `limit`
are kept when `limit > 0`. -/
def collectMissing (summary : Bytes → Option UInt64) (limit : Int) :
    List Operation → List Operation → List Operation
  | out, [] => out
  | out, op :: rest =>
    if (summary op.author).getD 0 < op.seq then
      if 0 < limit ∧ limit ≤ out.length + 1 then out ++ [op]
      else collectMissing summary limit (out ++ [op]) rest
    else collectMissing summary limit out rest

/-- `MissingFor`; a `nil` summary is the empty map. -/
def MissingFor (s : Store) (summary : Bytes → Option UInt64) (limit : Int) : List Operation :=
  collectMissing summary limit [] (sortOps s.ops)

/-- `Ops`: the ordered log, its last `limit` operations when `limit > 0`. -/
def Ops (s : Store) (limit : Int) : List Operation :=
  let ordered := sortOps s.ops
  if 0 < limit ∧ limit < ordered.length then ordered.drop (ordered.length - limit.toNat)
  else ordered

end Dqrvcs

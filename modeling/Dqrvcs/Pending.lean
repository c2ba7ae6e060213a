/-
# `Dqrvcs.Pending` — the pending-push queue

`pending.go`: `PendingPush`, `normalizePendingPush`,
`loadPendingPushesLocked`, `UpsertPendingPush` and `updatePendingPushStatus`
with its three `Mark…` wrappers.  The queue lives in `pending_pushes.json`;
the model holds it as the list of records last saved to it, `[]` for a
missing file, and every call reloads it, changes it and saves it whole
(`writeJSONAtomic`: a failed save leaves the file as it was; `io` says whether
it succeeds).  `time.Now()` is the argument `now`, already formatted.

A load reads each record back through JSON (`jsonRecord`): every string comes
back with each byte that starts no valid UTF-8 sequence turned into U+FFFD.
So the queue keeps each proposal once only while the proposal IDs written are
valid UTF-8 (`QueueInv`): two IDs that differ in such a byte alone load as
one.

`Attempts` is a Go `int`, 64 bits wide: a `BitVec 64` compared signed.
`UpsertPendingPush` keeps the larger of the old and new counts, and
`updatePendingPushStatus` increments it; at `math.MaxInt` the increment wraps
to `math.MinInt` (`attempts_wrap`).

`ListPendingPushes` returns the queue sorted by the `CreatedAt` text, which
`UpsertPendingPush` sets to `time.Now().UTC().Format(time.RFC3339Nano)`.  That
format drops the fraction's trailing zeros, and `Z` sorts above `.`, so within
one second an entry made on the second sorts after one made half a second
later (`listPendingPushes_not_chronological`).  Across seconds the order is
right, since every field up to the seconds has a fixed width
(`listPendingPushes_orders_seconds`).
-/
import Dqrvcs.Codec

namespace Dqrvcs

/-- `PendingPush`. -/
structure PendingPush where
  proposalID : Bytes
  remote : Bytes
  sourceRef : Bytes
  targetRef : Bytes
  newOID : Bytes
  gitArgs : List Bytes
  status : Bytes
  attempts : BitVec 64
  lastError : Bytes
  createdAt : Bytes
  updatedAt : Bytes
  lastTriedAt : Bytes
  completedAt : Bytes
deriving DecidableEq, Repr

/-- `PendingPushStatusPending`. -/
def statusPending : Bytes := ascii "pending"
/-- `PendingPushStatusFailed`. -/
def statusFailed : Bytes := ascii "failed"
/-- `PendingPushStatusCompleted`. -/
def statusCompleted : Bytes := ascii "completed"

/-- The errors of the queue's functions. -/
inductive PendingError
  | proposalIDRequired
  | targetRefRequired
  | invalidStatus (status : Bytes)
  | idRequired
  | notFound (proposalID : Bytes)
  | saveFailed
deriving DecidableEq, Repr

/-- The text of each error, less the error it wraps. -/
def PendingError.message : PendingError → Bytes
  | .proposalIDRequired => ascii "pending push proposal ID is required"
  | .targetRefRequired => ascii "pending push target ref is required"
  | .invalidStatus s => ascii "invalid pending push status " ++ encodeQuoted s
  | .idRequired => ascii "proposal ID is required"
  | .notFound id => ascii "pending push for proposal " ++ encodeQuoted id ++ ascii " not found"
  | .saveFailed => ascii "write temp JSON file"
where
  /-- `%q` of a printable string. -/
  encodeQuoted (s : Bytes) : Bytes := [0x22] ++ s ++ [0x22]

/-- `normalizePendingPush(push, forWrite)` at the instant `now`. -/
def normalizePendingPush (push : PendingPush) (forWrite : Bool) (now : Bytes) :
    Except PendingError PendingPush :=
  let push := { push with
    proposalID := trimSpace push.proposalID, remote := trimSpace push.remote,
    sourceRef := trimSpace push.sourceRef, targetRef := trimSpace push.targetRef,
    newOID := trimSpace push.newOID, lastError := trimSpace push.lastError }
  if push.proposalID = [] then .error .proposalIDRequired
  else if push.targetRef = [] then .error .targetRefRequired
  else
    let push := if push.status = [] then { push with status := statusPending } else push
    if push.status ≠ statusPending ∧ push.status ≠ statusFailed ∧ push.status ≠ statusCompleted then
      .error (.invalidStatus push.status)
    else if forWrite then
      .ok { push with createdAt := if push.createdAt = [] then now else push.createdAt,
                      updatedAt := now }
    else .ok push

/-- The `less` of `loadPendingPushesLocked`'s `sort.SliceStable`: by
`CreatedAt`, then by `ProposalID`. -/
def pendingLess (a b : PendingPush) : Bool :=
  if a.createdAt ≠ b.createdAt then bytesLt a.createdAt b.createdAt
  else bytesLt a.proposalID b.proposalID

/-- `sort.SliceStable(pushes, less)` with `pendingLess`. -/
def sortPushes (pushes : List PendingPush) : List PendingPush :=
  pushes.insertionSort fun a b => pendingLess b a = false

/-- A record as `loadPendingPushesLocked` decodes it from what
`savePendingPushesLocked` wrote: every string through `json.Marshal` and
`json.Unmarshal`. -/
def jsonRecord (push : PendingPush) : PendingPush :=
  { push with
    proposalID := jsonString push.proposalID, remote := jsonString push.remote,
    sourceRef := jsonString push.sourceRef, targetRef := jsonString push.targetRef,
    newOID := jsonString push.newOID, gitArgs := push.gitArgs.map jsonString,
    status := jsonString push.status, lastError := jsonString push.lastError,
    createdAt := jsonString push.createdAt, updatedAt := jsonString push.updatedAt,
    lastTriedAt := jsonString push.lastTriedAt, completedAt := jsonString push.completedAt }

/-- `loadPendingPushesLocked`, reading back the records last saved to `file`. -/
def loadPendingPushesLocked (file : List PendingPush) : Except PendingError (List PendingPush) :=
  match file.mapM fun push => normalizePendingPush (jsonRecord push) false [] with
  | .error e => .error e
  | .ok pushes => .ok (sortPushes pushes)

/-- The loop of `UpsertPendingPush`: the first record with the same proposal
ID is replaced by `push`, keeping its `CreatedAt` and the larger `Attempts`. -/
def upsertLoop (push : PendingPush) : List PendingPush → Option (List PendingPush × PendingPush)
  | [] => none
  | existing :: rest =>
    if existing.proposalID ≠ push.proposalID then
      (upsertLoop push rest).map fun r => (existing :: r.1, r.2)
    else
      let push := { push with
        createdAt := existing.createdAt,
        attempts := if push.attempts.slt existing.attempts then existing.attempts else push.attempts }
      some (push :: rest, push)

/-- `UpsertPendingPush`: the answer, and `pending_pushes.json` after it. -/
def UpsertPendingPush (now : Bytes) (io : Bool) (file : List PendingPush) (push : PendingPush) :
    Except PendingError PendingPush × List PendingPush :=
  match normalizePendingPush push true now with
  | .error e => (.error e, file)
  | .ok push =>
    match loadPendingPushesLocked file with
    | .error e => (.error e, file)
    | .ok pushes =>
      let (pushes, push) := (upsertLoop push pushes).getD (pushes ++ [push], push)
      if io then (.ok push, pushes) else (.error .saveFailed, file)

/-- `ListPendingPushes`: the queue as `loadPendingPushesLocked` sorts it. -/
def ListPendingPushes (file : List PendingPush) : Except PendingError (List PendingPush) :=
  loadPendingPushesLocked file

/-- Chronological order of UTC instants: by year, month, day, hour, minute,
second, then nanosecond. -/
def Time.Before (t u : Time) : Prop :=
  [t.year, t.month, t.day, t.hour, t.minute, t.second, t.nanosecond] <
    [u.year, u.month, u.day, u.hour, u.minute, u.second, u.nanosecond]

instance (t u : Time) : Decidable (t.Before u) := inferInstanceAs (Decidable (_ < _))

/-- The failing input of creation order: `p1` upserted at `00:00:05` and `p2`
half a second later, on an empty queue; `ListPendingPushes` returns `p2`
first, because `…:05Z` sorts after `…:05.5Z`. -/
theorem listPendingPushes_not_chronological :
    let t₁ : Time := ⟨1970, 1, 1, 0, 0, 5, 0, by decide⟩
    let t₂ : Time := ⟨1970, 1, 1, 0, 0, 5, 500000000, by decide⟩
    let entry : Bytes → PendingPush := fun id =>
      ⟨id, ascii "origin", ascii "main", ascii "refs/heads/main", ascii "c0ffee",
        [ascii "origin", ascii "main"], [], 0, [], [], [], [], []⟩
    let file := (UpsertPendingPush (formatRFC3339Nano t₂) true
      (UpsertPendingPush (formatRFC3339Nano t₁) true [] (entry (ascii "p1"))).2
      (entry (ascii "p2"))).2
    t₁.Before t₂ ∧
      (ListPendingPushes file).toOption.map (List.map PendingPush.proposalID) =
        some [ascii "p2", ascii "p1"] := by
  decide

/-- The record `updatePendingPushStatus` writes in place of `push`: the new
status, the times, one more attempt. -/
def markedPush (status lastError now : Bytes) (push : PendingPush) : PendingPush :=
  let push := { push with
    status := status
    lastError := trimSpace lastError
    updatedAt := now
    lastTriedAt := now
    attempts := push.attempts + 1 }
  if status = statusCompleted then { push with completedAt := now, lastError := [] } else push

/-- The loop of `updatePendingPushStatus`: the first record with the proposal
ID is marked. -/
def updateLoop (proposalID status lastError now : Bytes) :
    List PendingPush → Option (List PendingPush)
  | [] => none
  | push :: rest =>
    if push.proposalID ≠ proposalID then (updateLoop proposalID status lastError now rest).map (push :: ·)
    else some (markedPush status lastError now push :: rest)

/-- `updatePendingPushStatus`: the answer, and `pending_pushes.json` after it. -/
def updatePendingPushStatus (now : Bytes) (io : Bool) (file : List PendingPush)
    (proposalID status lastError : Bytes) : Except PendingError Unit × List PendingPush :=
  let proposalID := trimSpace proposalID
  if proposalID = [] then (.error .idRequired, file) else
  match loadPendingPushesLocked file with
  | .error e => (.error e, file)
  | .ok pushes =>
    match updateLoop proposalID status lastError now pushes with
    | none => (.error (.notFound proposalID), file)
    | some pushes => if io then (.ok (), pushes) else (.error .saveFailed, file)

/-- `MarkPendingPushPending`. -/
def MarkPendingPushPending (now : Bytes) (io : Bool) (file : List PendingPush)
    (proposalID message : Bytes) : Except PendingError Unit × List PendingPush :=
  updatePendingPushStatus now io file proposalID statusPending message

/-- `MarkPendingPushFailed`. -/
def MarkPendingPushFailed (now : Bytes) (io : Bool) (file : List PendingPush)
    (proposalID message : Bytes) : Except PendingError Unit × List PendingPush :=
  updatePendingPushStatus now io file proposalID statusFailed message

/-- `MarkPendingPushCompleted`. -/
def MarkPendingPushCompleted (now : Bytes) (io : Bool) (file : List PendingPush)
    (proposalID : Bytes) : Except PendingError Unit × List PendingPush :=
  updatePendingPushStatus now io file proposalID statusCompleted []

/-- The failing input of the queue invariant: an upsert carrying
`Attempts = math.MaxInt`, then a mark, leaves `Attempts = math.MinInt`, below
where it was. -/
theorem attempts_wrap :
    (UpsertPendingPush (ascii "t1") true []
        ⟨ascii "p1", [], [], ascii "refs/heads/main", [], [], [], 0x7FFFFFFFFFFFFFFF#64,
          [], [], [], [], []⟩).2.map PendingPush.attempts = [0x7FFFFFFFFFFFFFFF#64] ∧
    (MarkPendingPushFailed (ascii "t2") true
        (UpsertPendingPush (ascii "t1") true []
          ⟨ascii "p1", [], [], ascii "refs/heads/main", [], [], [], 0x7FFFFFFFFFFFFFFF#64,
            [], [], [], [], []⟩).2
        (ascii "p1") (ascii "x")).2.map PendingPush.attempts = [0x8000000000000000#64] ∧
    (0x8000000000000000#64).slt 0x7FFFFFFFFFFFFFFF#64 = true := by
  decide

/-! ## The queue `loadPendingPushesLocked` returns -/

/-- A status `normalizePendingPush` accepts. -/
def ValidStatus (s : Bytes) : Prop := s = statusPending ∨ s = statusFailed ∨ s = statusCompleted

/-- A record as `normalizePendingPush` returns it: its text fields trimmed, the
two it requires present, its status valid. -/
structure Normal (push : PendingPush) : Prop where
  proposalID_trim : trimSpace push.proposalID = push.proposalID
  remote_trim : trimSpace push.remote = push.remote
  sourceRef_trim : trimSpace push.sourceRef = push.sourceRef
  targetRef_trim : trimSpace push.targetRef = push.targetRef
  newOID_trim : trimSpace push.newOID = push.newOID
  lastError_trim : trimSpace push.lastError = push.lastError
  proposalID_ne : push.proposalID ≠ []
  targetRef_ne : push.targetRef ≠ []
  status : ValidStatus push.status

theorem normal_of_normalizePendingPush {push q : PendingPush} {forWrite : Bool} {now : Bytes}
    (h : normalizePendingPush push forWrite now = .ok q) : Normal q := by
  have valid : ∀ s : Bytes, ¬(s ≠ statusPending ∧ s ≠ statusFailed ∧ s ≠ statusCompleted) →
      ValidStatus s := fun s hs => by
    by_contra hn
    exact hs ⟨fun e => hn (.inl e), fun e => hn (.inr (.inl e)), fun e => hn (.inr (.inr e))⟩
  unfold normalizePendingPush at h
  dsimp only at h
  by_cases h₁ : trimSpace push.proposalID = []
  · rw [if_pos h₁] at h
    cases h
  by_cases h₂ : trimSpace push.targetRef = []
  · rw [if_neg h₁, if_pos h₂] at h
    cases h
  rw [if_neg h₁, if_neg h₂] at h
  by_cases h₃ : push.status = []
  · rw [if_pos h₃, if_neg fun hc => hc.1 rfl] at h
    split at h <;> cases h <;>
      exact ⟨trimSpace_trimSpace _, trimSpace_trimSpace _, trimSpace_trimSpace _,
        trimSpace_trimSpace _, trimSpace_trimSpace _, trimSpace_trimSpace _, h₁, h₂, .inl rfl⟩
  · rw [if_neg h₃] at h
    by_cases h₄ : push.status ≠ statusPending ∧ push.status ≠ statusFailed ∧
        push.status ≠ statusCompleted
    · rw [if_pos h₄] at h
      cases h
    rw [if_neg h₄] at h
    split at h <;> cases h <;>
      exact ⟨trimSpace_trimSpace _, trimSpace_trimSpace _, trimSpace_trimSpace _,
        trimSpace_trimSpace _, trimSpace_trimSpace _, trimSpace_trimSpace _, h₁, h₂, valid _ h₄⟩

/-- `normalizePendingPush` trims the proposal ID, keeps the arguments, and
keeps a status that is set. -/
theorem normalizePendingPush_ok {push q : PendingPush} {forWrite : Bool} {now : Bytes}
    (h : normalizePendingPush push forWrite now = .ok q) :
    q.proposalID = trimSpace push.proposalID ∧ q.gitArgs = push.gitArgs ∧
      (push.status ≠ [] → q.status = push.status) := by
  unfold normalizePendingPush at h
  dsimp only at h
  by_cases h₁ : trimSpace push.proposalID = []
  · rw [if_pos h₁] at h
    cases h
  rw [if_neg h₁] at h
  by_cases h₂ : trimSpace push.targetRef = []
  · rw [if_pos h₂] at h
    cases h
  rw [if_neg h₂] at h
  -- the status defaulted and checked, then the timestamps set when writing
  by_cases h₃ : push.status = [] <;> [rw [if_pos h₃] at h; rw [if_neg h₃] at h] <;> split at h
  all_goals first
    | cases h
    | (cases forWrite <;> cases h <;> exact ⟨rfl, rfl, fun hs => absurd h₃ hs⟩)
    | (cases forWrite <;> cases h <;> exact ⟨rfl, rfl, fun _ => rfl⟩)

/-- `normalizePendingPush` accepts a record whose trimmed proposal ID and
target ref are non-empty and whose status is valid. -/
theorem normalizePendingPush_isOk {push : PendingPush} (forWrite : Bool) (now : Bytes)
    (h₁ : trimSpace push.proposalID ≠ []) (h₂ : trimSpace push.targetRef ≠ [])
    (h₃ : ValidStatus push.status) : ∃ q, normalizePendingPush push forWrite now = .ok q := by
  have hs : push.status ≠ [] := by
    rcases h₃ with e | e | e <;> rw [e] <;> decide
  unfold normalizePendingPush
  dsimp only
  rw [if_neg h₁, if_neg h₂, if_neg hs, if_neg (by unfold ValidStatus at h₃; tauto)]
  split <;> exact ⟨_, rfl⟩

/-- What a load returns is normal, and its proposal IDs read back unchanged:
they are trimmed strings that came through JSON. -/
theorem loaded_of_mapM : ∀ {file pushes : List PendingPush},
    file.mapM (fun push => normalizePendingPush (jsonRecord push) false []) = .ok pushes →
      ∀ p ∈ pushes, Normal p ∧ jsonString p.proposalID = p.proposalID
  | [], _, h => by
    cases h
    simp
  | push :: file, pushes, h => by
    rw [List.mapM_cons] at h
    rcases hp : normalizePendingPush (jsonRecord push) false [] with e | q
    · rw [hp] at h
      cases h
    rcases hm : file.mapM (fun push => normalizePendingPush (jsonRecord push) false []) with e | qs
    · rw [hp, hm] at h
      cases h
    rw [hp, hm] at h
    cases h
    intro p hp'
    rcases List.mem_cons.mp hp' with rfl | hp'
    · refine ⟨normal_of_normalizePendingPush hp, ?_⟩
      rw [(normalizePendingPush_ok hp).1]
      exact jsonString_trimSpace (jsonString_jsonString push.proposalID)
    · exact loaded_of_mapM hm p hp'

theorem loaded_of_loadPendingPushesLocked {file L : List PendingPush}
    (h : loadPendingPushesLocked file = .ok L) :
    ∀ p ∈ L, Normal p ∧ jsonString p.proposalID = p.proposalID := by
  unfold loadPendingPushesLocked at h
  split at h
  · cases h
  · next pushes hm =>
    cases h
    exact fun p hp => loaded_of_mapM hm p ((List.mem_insertionSort _).mp hp)

/-- The record `loadPendingPushesLocked` returns for a record of the file, as
`normalizePendingPush` gives it back (the record itself where it refuses). -/
def reread (push : PendingPush) : PendingPush :=
  match normalizePendingPush (jsonRecord push) false [] with
  | .ok q => q
  | .error _ => push

theorem ValidStatus.jsonString {s : Bytes} (h : ValidStatus s) : Dqrvcs.jsonString s = s := by
  rcases h with rfl | rfl | rfl <;> decide

theorem ValidStatus.ne_nil {s : Bytes} (h : ValidStatus s) : s ≠ [] := by
  rcases h with rfl | rfl | rfl <;> decide

/-- A normal record whose proposal ID reads back unchanged is read back with
the same proposal and status, and with its arguments through JSON. -/
theorem reread_spec {push : PendingPush} (hn : Normal push)
    (hv : jsonString push.proposalID = push.proposalID) :
    normalizePendingPush (jsonRecord push) false [] = .ok (reread push) ∧
      (reread push).proposalID = push.proposalID ∧ (reread push).status = push.status ∧
      (reread push).gitArgs = push.gitArgs.map jsonString := by
  have hs := hn.status.jsonString
  have hid : trimSpace (jsonRecord push).proposalID = push.proposalID := by
    show trimSpace (jsonString push.proposalID) = _
    rw [hv, hn.proposalID_trim]
  obtain ⟨q, hq⟩ := normalizePendingPush_isOk false [] (hid ▸ hn.proposalID_ne)
    (trimSpace_jsonString_ne_nil hn.targetRef_trim hn.targetRef_ne)
    (show ValidStatus (jsonString push.status) by rw [hs]; exact hn.status)
  have hr : reread push = q := by simp only [reread, hq]
  obtain ⟨h₁, h₂, h₃⟩ := normalizePendingPush_ok hq
  rw [hr]
  have hne : (jsonRecord push).status ≠ [] := by
    show jsonString push.status ≠ []
    rw [hs]
    exact hn.status.ne_nil
  exact ⟨hq, h₁.trans hid, (h₃ hne).trans hs, h₂⟩

theorem perm_sortPushes (L : List PendingPush) : (sortPushes L).Perm L :=
  List.perm_insertionSort _ _

/-- A queue file that loads with no proposal twice: every record normal, with
a proposal ID that reads back unchanged, and each proposal held once. -/
structure QueueInv (L : List PendingPush) : Prop where
  normal : ∀ p ∈ L, Normal p
  ids_valid : ∀ p ∈ L, jsonString p.proposalID = p.proposalID
  ids_nodup : (L.map PendingPush.proposalID).Nodup

theorem QueueInv.perm {L L' : List PendingPush} (h : QueueInv L) (hp : L.Perm L') :
    QueueInv L' :=
  ⟨fun p hp' => h.normal p (hp.mem_iff.mpr hp'), fun p hp' => h.ids_valid p (hp.mem_iff.mpr hp'),
    (hp.map _).nodup_iff.mp h.ids_nodup⟩

theorem QueueInv.of_load {file L : List PendingPush} (h : loadPendingPushesLocked file = .ok L)
    (hnd : (L.map PendingPush.proposalID).Nodup) : QueueInv L :=
  ⟨fun p hp => (loaded_of_loadPendingPushesLocked h p hp).1,
    fun p hp => (loaded_of_loadPendingPushesLocked h p hp).2, hnd⟩

theorem QueueInv.map_proposalID_reread {L : List PendingPush} (h : QueueInv L) :
    (L.map reread).map PendingPush.proposalID = L.map PendingPush.proposalID := by
  rw [List.map_map]
  exact List.map_congr_left fun p hp => (reread_spec (h.normal p hp) (h.ids_valid p hp)).2.1

/-- A queue file loads as its records read back, sorted. -/
theorem QueueInv.load {L : List PendingPush} (h : QueueInv L) :
    loadPendingPushesLocked L = .ok (sortPushes (L.map reread)) := by
  have hm : ∀ M : List PendingPush, (∀ p ∈ M, Normal p ∧ jsonString p.proposalID = p.proposalID) →
      M.mapM (fun push => normalizePendingPush (jsonRecord push) false []) =
        .ok (M.map reread) := fun M hM => by
    induction M with
    | nil => rfl
    | cons p M ih =>
      simp only [List.mem_cons, forall_eq_or_imp] at hM
      rw [List.mapM_cons, (reread_spec hM.1.1 hM.1.2).1, ih hM.2]
      rfl
  unfold loadPendingPushesLocked
  rw [hm L fun p hp => ⟨h.normal p hp, h.ids_valid p hp⟩]

theorem QueueInv.loaded {L : List PendingPush} (h : QueueInv L) :
    QueueInv (sortPushes (L.map reread)) :=
  QueueInv.of_load h.load
    (((perm_sortPushes _).map _).nodup_iff.mpr (h.map_proposalID_reread ▸ h.ids_nodup))

@[simp] theorem markedPush_proposalID (status lastError now : Bytes) (push : PendingPush) :
    (markedPush status lastError now push).proposalID = push.proposalID := by
  unfold markedPush; split <;> rfl

@[simp] theorem markedPush_status (status lastError now : Bytes) (push : PendingPush) :
    (markedPush status lastError now push).status = status := by
  unfold markedPush; split <;> rfl

theorem Normal.markedPush {push : PendingPush} (h : Normal push) {status : Bytes}
    (hs : ValidStatus status) (lastError now : Bytes) :
    Normal (markedPush status lastError now push) := by
  unfold Dqrvcs.markedPush
  split
  · exact ⟨h.1, h.2, h.3, h.4, h.5, rfl, h.7, h.8, hs⟩
  · exact ⟨h.1, h.2, h.3, h.4, h.5, trimSpace_trimSpace _, h.7, h.8, hs⟩

/-- The queue once the record of `id` is marked, every other record kept. -/
def markedQueue (id status lastError now : Bytes) (L : List PendingPush) : List PendingPush :=
  L.map fun p => if p.proposalID = id then markedPush status lastError now p else p

theorem map_proposalID_markedQueue (id status lastError now : Bytes) (L : List PendingPush) :
    (markedQueue id status lastError now L).map PendingPush.proposalID =
      L.map PendingPush.proposalID := by
  simp only [markedQueue, List.map_map]
  exact List.map_congr_left fun p _ => by dsimp only [Function.comp]; split <;> simp

theorem QueueInv.markedQueue {L : List PendingPush} (h : QueueInv L) {status : Bytes}
    (hs : ValidStatus status) (id lastError now : Bytes) :
    QueueInv (markedQueue id status lastError now L) := by
  refine ⟨fun q hq => ?_, fun q hq => ?_, by rw [map_proposalID_markedQueue]; exact h.ids_nodup⟩
  all_goals obtain ⟨p, hp, rfl⟩ := List.mem_map.mp hq
  · split
    · exact (h.normal p hp).markedPush hs lastError now
    · exact h.normal p hp
  · split <;> simp only [markedPush_proposalID, h.ids_valid p hp]

/-- With the proposal held once, `updateLoop` marks exactly its record. -/
theorem updateLoop_eq_markedQueue {id status lastError now : Bytes} :
    ∀ {L : List PendingPush}, (L.map PendingPush.proposalID).Nodup →
      id ∈ L.map PendingPush.proposalID →
      updateLoop id status lastError now L = some (markedQueue id status lastError now L)
  | [], _, hid => absurd hid (List.not_mem_nil _)
  | p :: L, hnd, hid => by
    rw [List.map_cons, List.nodup_cons] at hnd
    by_cases hp : p.proposalID = id
    · subst hp
      have : L.map (fun q => if q.proposalID = p.proposalID then
          markedPush status lastError now q else q) = L :=
        (List.map_congr_left fun q hq => if_neg fun (e : q.proposalID = p.proposalID) =>
          hnd.1 (e ▸ List.mem_map_of_mem PendingPush.proposalID hq)).trans (List.map_id' L)
      simp [updateLoop, markedQueue, this]
    · have hid' : id ∈ L.map PendingPush.proposalID := by
        simpa [Ne.symm hp] using hid
      simp [updateLoop, hp, updateLoop_eq_markedQueue hnd.2 hid', markedQueue]

/-- A mark of a proposal the queue holds, whose write succeeds. -/
theorem updatePendingPushStatus_eq {file L : List PendingPush} {id : Bytes}
    (status lastError now : Bytes) (hload : loadPendingPushesLocked file = .ok L)
    (hq : QueueInv L) (hid : id ∈ L.map PendingPush.proposalID) :
    updatePendingPushStatus now true file id status lastError =
      (.ok (), markedQueue id status lastError now L) := by
  obtain ⟨p, hp, rfl⟩ := List.mem_map.mp hid
  have hn := hq.normal p hp
  simp [updatePendingPushStatus, hn.proposalID_trim, hn.proposalID_ne, hload,
    updateLoop_eq_markedQueue hq.ids_nodup hid]

/-- The record of `id` in the queue is completed. -/
def Completed (L : List PendingPush) (id : Bytes) : Prop :=
  ∃ p ∈ L, p.proposalID = id ∧ p.status = statusCompleted

theorem completed_markedQueue {id status lastError now x : Bytes} {L : List PendingPush} :
    Completed (markedQueue id status lastError now L) x ↔
      (x = id ∧ id ∈ L.map PendingPush.proposalID ∧ status = statusCompleted) ∨
        (x ≠ id ∧ Completed L x) := by
  constructor
  · rintro ⟨q, hq, rfl, hs⟩
    obtain ⟨p, hp, rfl⟩ := List.mem_map.mp hq
    by_cases e : p.proposalID = id
    · rw [if_pos e] at hs ⊢
      rw [markedPush_status] at hs
      exact .inl ⟨by rw [markedPush_proposalID, e], e ▸ List.mem_map_of_mem _ hp, hs⟩
    · rw [if_neg e] at hs ⊢
      exact .inr ⟨e, p, hp, rfl, hs⟩
  · rintro (⟨rfl, hid, hs⟩ | ⟨hx, p, hp, rfl, hs⟩) <;> unfold markedQueue
    · obtain ⟨p, hp, rfl⟩ := List.mem_map.mp hid
      exact ⟨_, List.mem_map_of_mem _ hp, by simp, by simp [hs]⟩
    · exact ⟨_, List.mem_map_of_mem _ hp, by simp [hx], by simp [hx, hs]⟩

theorem QueueInv.completed_reread {L : List PendingPush} (h : QueueInv L) (x : Bytes) :
    Completed (L.map reread) x ↔ Completed L x := by
  constructor
  · rintro ⟨q, hq, rfl, hs⟩
    obtain ⟨p, hp, rfl⟩ := List.mem_map.mp hq
    obtain ⟨-, h₁, h₂, -⟩ := reread_spec (h.normal p hp) (h.ids_valid p hp)
    exact ⟨p, hp, h₁.symm, h₂ ▸ hs⟩
  · rintro ⟨p, hp, rfl, hs⟩
    obtain ⟨-, h₁, h₂, -⟩ := reread_spec (h.normal p hp) (h.ids_valid p hp)
    exact ⟨_, List.mem_map_of_mem _ hp, h₁, h₂.trans hs⟩

/-! ## The queue across its calls

Each call that writes `pending_pushes.json` leaves a queue file that loads
with no proposal twice, whatever the call answers and whether or not its write
succeeds (`QueueInv.upsert`, `QueueInv.updatePendingPushStatus`), as long as
an upserted proposal ID reads back unchanged; an upsert that succeeds leaves
its record the only one of its proposal (`QueueInv.upsert_ok`). -/

/-- What `upsertLoop` finds: the record it writes, with `push`'s proposal and
arguments, in place of the first one of its proposal, every other record
kept. -/
theorem upsertLoop_some {push : PendingPush} : ∀ {L l : List PendingPush} {q : PendingPush},
    upsertLoop push L = some (l, q) →
      q.proposalID = push.proposalID ∧ q.gitArgs = push.gitArgs ∧ q ∈ l ∧
      l.map PendingPush.proposalID = L.map PendingPush.proposalID ∧
      (∀ p ∈ l, p = q ∨ p ∈ L) ∧ (Normal push → Normal q)
  | [], _, _, h => by cases h
  | e :: L, l, q, h => by
    unfold upsertLoop at h
    by_cases hne : e.proposalID ≠ push.proposalID
    · rw [if_pos hne] at h
      obtain ⟨⟨l', q'⟩, h', he⟩ := Option.map_eq_some'.mp h
      cases he
      obtain ⟨h₁, h₂, h₃, h₄, h₅, h₆⟩ := upsertLoop_some h'
      refine ⟨h₁, h₂, .tail _ h₃, by simp [h₄], ?_, h₆⟩
      simp only [List.mem_cons]
      rintro p (rfl | hp)
      · exact .inr (.inl rfl)
      · exact (h₅ p hp).imp_right .inr
    · rw [if_neg hne] at h
      cases h
      refine ⟨rfl, rfl, .head _, by simp [not_not.mp hne], ?_,
        fun hn => ⟨hn.1, hn.2, hn.3, hn.4, hn.5, hn.6, hn.7, hn.8, hn.9⟩⟩
      simp only [List.mem_cons]
      rintro p (rfl | hp)
      exacts [.inl rfl, .inr (.inr hp)]

theorem upsertLoop_none {push : PendingPush} : ∀ {L : List PendingPush},
    upsertLoop push L = none → push.proposalID ∉ L.map PendingPush.proposalID
  | [], _ => List.not_mem_nil _
  | e :: L, h => by
    unfold upsertLoop at h
    by_cases hne : e.proposalID ≠ push.proposalID
    · rw [if_pos hne, Option.map_eq_none'] at h
      simp only [List.map_cons, List.mem_cons, not_or]
      exact ⟨Ne.symm hne, upsertLoop_none h⟩
    · rw [if_neg hne] at h
      cases h

/-- The queue and record `UpsertPendingPush` is about to save. -/
theorem QueueInv.upsertLoop {pushes : List PendingPush} (hq : QueueInv pushes)
    {push : PendingPush} (hn : Normal push) (hv : jsonString push.proposalID = push.proposalID) :
    QueueInv ((Dqrvcs.upsertLoop push pushes).getD (pushes ++ [push], push)).1 ∧
      ((Dqrvcs.upsertLoop push pushes).getD (pushes ++ [push], push)).2 ∈
        ((Dqrvcs.upsertLoop push pushes).getD (pushes ++ [push], push)).1 ∧
      ((Dqrvcs.upsertLoop push pushes).getD (pushes ++ [push], push)).2.proposalID =
        push.proposalID ∧
      ((Dqrvcs.upsertLoop push pushes).getD (pushes ++ [push], push)).2.gitArgs =
        push.gitArgs := by
  rcases hu : Dqrvcs.upsertLoop push pushes with _ | ⟨l, q⟩
  · refine ⟨⟨fun p hp => ?_, fun p hp => ?_, ?_⟩, by simp, rfl, rfl⟩
    · rcases List.mem_append.mp hp with hp | hp
      exacts [hq.normal p hp, List.mem_singleton.mp hp ▸ hn]
    · rcases List.mem_append.mp hp with hp | hp
      exacts [hq.ids_valid p hp, List.mem_singleton.mp hp ▸ hv]
    · rw [Option.getD_none, List.map_append, List.nodup_append]
      exact ⟨hq.ids_nodup, List.nodup_singleton _,
        List.disjoint_singleton.mpr (upsertLoop_none hu)⟩
  · obtain ⟨h₁, h₂, h₃, h₄, h₅, h₆⟩ := upsertLoop_some hu
    refine ⟨⟨fun p hp => ?_, fun p hp => ?_, by rw [Option.getD_some, h₄]; exact hq.ids_nodup⟩,
      h₃, h₁, h₂⟩
    · rcases h₅ p hp with rfl | hp
      exacts [h₆ hn, hq.normal p hp]
    · rcases h₅ p hp with rfl | hp
      exacts [h₁ ▸ hv, hq.ids_valid p hp]

theorem upsert_error {now : Bytes} {io : Bool} {file : List PendingPush} {push : PendingPush}
    {e : PendingError} {file' : List PendingPush}
    (h : UpsertPendingPush now io file push = (.error e, file')) : file' = file := by
  unfold UpsertPendingPush at h
  split at h
  · cases h
    rfl
  split at h
  · cases h
    rfl
  generalize (Dqrvcs.upsertLoop _ _).getD _ = r at h
  obtain ⟨l, q⟩ := r
  cases io <;> cases h
  rfl

/-- An upsert that succeeds, on a file that loads with no proposal twice, of
a proposal ID that reads back unchanged once trimmed: it saves a queue file
that loads with no proposal twice, holding the record it returns, with the
caller's proposal, trimmed, and arguments, as the only one of its proposal. -/
theorem upsert_ok {file : List PendingPush}
    (hnd : ∀ L, loadPendingPushesLocked file = .ok L → (L.map PendingPush.proposalID).Nodup)
    {now : Bytes} {io : Bool} {push q : PendingPush} {file' : List PendingPush}
    (hv : jsonString (trimSpace push.proposalID) = trimSpace push.proposalID)
    (h : UpsertPendingPush now io file push = (.ok q, file')) :
    QueueInv file' ∧ q ∈ file' ∧ q.proposalID = trimSpace push.proposalID ∧
      q.gitArgs = push.gitArgs ∧ ∀ p ∈ file', p.proposalID = q.proposalID → p = q := by
  unfold UpsertPendingPush at h
  rcases hn : normalizePendingPush push true now with e | push₁ <;> rw [hn] at h
  · cases h
  obtain ⟨hid, hargs, -⟩ := normalizePendingPush_ok hn
  rcases hload : loadPendingPushesLocked file with e | L <;> rw [hload] at h
  · cases h
  dsimp only at h
  obtain ⟨hq', hmem, h₁, h₂⟩ := (QueueInv.of_load hload (hnd L hload)).upsertLoop
    (normal_of_normalizePendingPush hn) (hid ▸ hv)
  generalize (Dqrvcs.upsertLoop push₁ L).getD _ = r at hq' hmem h₁ h₂ h
  obtain ⟨l, q'⟩ := r
  cases io <;> cases h
  exact ⟨hq', hmem, h₁.trans hid, h₂.trans hargs,
    fun p hp he => List.inj_on_of_nodup_map hq'.ids_nodup hp hmem he⟩

theorem QueueInv.nodup_of_load {file : List PendingPush} (hq : QueueInv file) :
    ∀ L, loadPendingPushesLocked file = .ok L → (L.map PendingPush.proposalID).Nodup :=
  fun _ h => Except.ok.inj (hq.load.symm.trans h) ▸ hq.loaded.ids_nodup

/-- An upsert of a proposal ID that reads back unchanged once trimmed keeps
the queue file loadable with no proposal twice, whatever it answers. -/
theorem QueueInv.upsert {file : List PendingPush} (hq : QueueInv file) (now : Bytes) (io : Bool)
    {push : PendingPush} (hv : jsonString (trimSpace push.proposalID) = trimSpace push.proposalID) :
    QueueInv (UpsertPendingPush now io file push).2 := by
  rcases h : UpsertPendingPush now io file push with ⟨_ | q, file'⟩
  · rw [upsert_error h]
    exact hq
  · exact (upsert_ok hq.nodup_of_load hv h).1

/-- Without the hypothesis on the ID: two proposals whose IDs differ in an
invalid byte alone, each upserted once, load as one proposal held twice. -/
example :
    let entry : Bytes → PendingPush := fun id =>
      ⟨id, [], [], ascii "refs/heads/main", [], [], [], 0, [], [], [], [], []⟩
    (ListPendingPushes (UpsertPendingPush (ascii "t2") true
        (UpsertPendingPush (ascii "t1") true [] (entry [0x70, 0xFF])).2 (entry [0x70, 0xFE])).2).toOption.map
      (List.map PendingPush.proposalID) = some [[0x70, 0xEF, 0xBF, 0xBD], [0x70, 0xEF, 0xBF, 0xBD]] := by
  decide

theorem updateLoop_of_not_mem {id status lastError now : Bytes} : ∀ {L : List PendingPush},
    id ∉ L.map PendingPush.proposalID → updateLoop id status lastError now L = none
  | [], _ => rfl
  | p :: L, h => by
    simp only [List.map_cons, List.mem_cons, not_or] at h
    simp [updateLoop, Ne.symm h.1, updateLoop_of_not_mem h.2]

/-- A mark with a valid status keeps the queue loadable, whatever it answers. -/
theorem QueueInv.updatePendingPushStatus {file : List PendingPush} (hq : QueueInv file)
    {status : Bytes} (hs : ValidStatus status) (now : Bytes) (io : Bool) (id lastError : Bytes) :
    QueueInv (Dqrvcs.updatePendingPushStatus now io file id status lastError).2 := by
  unfold Dqrvcs.updatePendingPushStatus
  dsimp only
  by_cases h : trimSpace id = []
  · rw [if_pos h]
    exact hq
  rw [if_neg h, hq.load]
  dsimp only
  have hs' := hq.loaded
  by_cases hid : trimSpace id ∈ (sortPushes (file.map reread)).map PendingPush.proposalID
  · rw [updateLoop_eq_markedQueue hs'.ids_nodup hid]
    cases io
    exacts [hq, hs'.markedQueue hs _ _ _]
  · rw [updateLoop_of_not_mem hid]
    exact hq


/-! ## Creation order across seconds

Up to the seconds every field of an `RFC3339Nano` text has a fixed width, so
entries created in different seconds do list in creation order
(`listPendingPushes_orders_seconds`); the fraction is what breaks the order
within one second. -/

/-- `t` falls in an earlier second than `u`. -/
def Time.EarlierSecond (t u : Time) : Prop :=
  [t.year, t.month, t.day, t.hour, t.minute, t.second] <
    [u.year, u.month, u.day, u.hour, u.minute, u.second]

instance (t u : Time) : Decidable (t.EarlierSecond u) := inferInstanceAs (Decidable (_ < _))

theorem lex_append_of_length_eq {l₁ l₂ : List Nat} (x y : List Nat) (h : l₁ < l₂)
    (hlen : l₁.length = l₂.length) : l₁ ++ x < l₂ ++ y := by
  induction h with
  | nil => simp at hlen
  | cons _ ih => exact .cons (ih (by simpa using hlen))
  | rel h => exact .rel h

theorem Time.EarlierSecond.before {t u : Time} (h : t.EarlierSecond u) : t.Before u := by
  have := lex_append_of_length_eq [t.nanosecond] [u.nanosecond] h rfl
  exact this

theorem pendingLess_iff {a b : PendingPush} : pendingLess a b = true ↔
    bytesLt a.createdAt b.createdAt = true ∨
      (a.createdAt = b.createdAt ∧ bytesLt a.proposalID b.proposalID = true) := by
  unfold pendingLess
  by_cases h : a.createdAt = b.createdAt
  · simp [h, bytesLt_irrefl]
  · simp [h]

theorem pendingLess_asymm {a b : PendingPush} (h : pendingLess a b = true) :
    pendingLess b a = false := by
  rw [← Bool.not_eq_true, pendingLess_iff]
  rcases pendingLess_iff.mp h with h | ⟨e, h⟩
  · rintro (h' | ⟨e, -⟩)
    · simp [bytesLt_asymm h] at h'
    · simp [e, bytesLt_irrefl] at h
  · rintro (h' | ⟨-, h'⟩)
    · simp [e, bytesLt_irrefl] at h'
    · simp [bytesLt_asymm h] at h'

theorem pendingLess_trans {a b c : PendingPush} (h₁ : pendingLess a b = true)
    (h₂ : pendingLess b c = true) : pendingLess a c = true := by
  rw [pendingLess_iff] at *
  rcases h₁ with h₁ | ⟨e₁, h₁⟩ <;> rcases h₂ with h₂ | ⟨e₂, h₂⟩
  · exact .inl (bytesLt_trans h₁ h₂)
  · exact .inl (e₂ ▸ h₁)
  · exact .inl (e₁ ▸ h₂)
  · exact .inr ⟨e₁.trans e₂, bytesLt_trans h₁ h₂⟩

theorem pendingLess_of_key_ne {a b : PendingPush}
    (hk : ¬ (a.createdAt = b.createdAt ∧ a.proposalID = b.proposalID))
    (h : pendingLess b a = false) : pendingLess a b = true := by
  rw [← Bool.not_eq_true, pendingLess_iff] at h
  rw [pendingLess_iff]
  by_cases e : a.createdAt = b.createdAt
  · rcases bytesLt_total fun e' => hk ⟨e, e'⟩ with h' | h'
    · exact .inr ⟨e, h'⟩
    · exact absurd (.inr ⟨e.symm, h'⟩) h
  · rcases bytesLt_total e with h' | h'
    · exact .inl h'
    · exact absurd (.inl h') h

instance : IsTotal PendingPush fun a b => pendingLess b a = false :=
  ⟨fun a b => by
    cases h : pendingLess b a
    · exact .inl rfl
    · exact .inr (pendingLess_asymm h)⟩

instance : IsTrans PendingPush fun a b => pendingLess b a = false :=
  ⟨fun a b c h₁ h₂ => by
    cases h : pendingLess c a
    · rfl
    · by_cases hk : b.createdAt = c.createdAt ∧ b.proposalID = c.proposalID
      · have : pendingLess c a = pendingLess b a := by simp [pendingLess, hk.1, hk.2]
        rw [← this, h] at h₁
        exact h₁
      · rw [← h₁, pendingLess_trans (pendingLess_of_key_ne hk h₂) h]⟩

/-- In a list sorted by a total preorder, of two members the one strictly below
comes first. -/
theorem pair_sublist_of_pairwise {α : Type} {r : α → α → Prop} [IsTotal α r] :
    ∀ {L : List α} {x y : α}, L.Pairwise r → x ∈ L → y ∈ L → ¬ r y x → List.Sublist [x, y] L
  | [], _, _, _, hx, _, _ => by cases hx
  | z :: L, x, y, hp, hx, hy, hr => by
    rw [List.pairwise_cons] at hp
    rw [List.mem_cons] at hx hy
    rcases hx with rfl | hx <;> rcases hy with rfl | hy
    · exact absurd ((total_of r _ _).elim id id) hr
    · exact (List.singleton_sublist.mpr hy).cons₂ _
    · exact absurd (hp.1 _ hx) hr
    · exact (pair_sublist_of_pairwise hp.2 hx hy hr).cons _

/-- Of two listed entries created in different seconds, the earlier is listed
first. -/
theorem listPendingPushes_orders_seconds {file L : List PendingPush}
    (h : ListPendingPushes file = .ok L) {p₁ p₂ : PendingPush} (h₁ : p₁ ∈ L) (h₂ : p₂ ∈ L)
    {t₁ t₂ : Time} (hc₁ : p₁.createdAt = formatRFC3339Nano t₁)
    (hc₂ : p₂.createdAt = formatRFC3339Nano t₂) (ht : t₁.EarlierSecond t₂) :
    List.Sublist [p₁, p₂] L := by
  unfold ListPendingPushes loadPendingPushesLocked at h
  split at h
  · cases h
  cases h
  refine pair_sublist_of_pairwise (List.sorted_insertionSort _ _) h₁ h₂ fun h => ?_
  have hlt : bytesLt p₁.createdAt p₂.createdAt = true := by
    rw [hc₁, hc₂]
    exact bytesLt_formatRFC3339Nano ht
  exact Bool.eq_false_iff.mp h (pendingLess_iff.mpr (.inl hlt))

/-- Two entries half a second apart across a second boundary, `p2` first in
the file: `p1`, made at `00:00:05.5`, is listed before `p2`, made at
`00:00:06`. -/
theorem listPendingPushes_orders_across_boundary :
    let t₁ : Time := ⟨1970, 1, 1, 0, 0, 5, 500000000, by decide⟩
    let t₂ : Time := ⟨1970, 1, 1, 0, 0, 6, 0, by decide⟩
    let entry : Bytes → Time → PendingPush := fun id t =>
      ⟨id, ascii "origin", ascii "main", ascii "refs/heads/main", ascii "c0ffee",
        [ascii "origin", ascii "main"], statusPending, 0, [], formatRFC3339Nano t,
        formatRFC3339Nano t, [], []⟩
    List.Sublist [entry (ascii "p1") t₁, entry (ascii "p2") t₂]
      [entry (ascii "p1") t₁, entry (ascii "p2") t₂] := by
  intro t₁ t₂ entry
  exact listPendingPushes_orders_seconds
    (show ListPendingPushes [entry (ascii "p2") t₂, entry (ascii "p1") t₁] =
      .ok [entry (ascii "p1") t₁, entry (ascii "p2") t₂] from eq_ok_of_toOption (by decide))
    (by decide) (by decide) rfl rfl (by decide)

end Dqrvcs

/-
# `Dqrvcs.PushCommand` — `vcs push`, every mode

`cmdPush` of the `vcs` command (`part_003` lines 297–412).  It removes its own
three flags from the argument vector, opens the gossip store, and then either
lists the queue (`--list-pending`), processes it (`--process-pending`), runs
`git push` at once (`--no-auto-proposal`), or proposes the push to the
consensus layer, votes for it, queues it, and processes that one entry.  When
no store opens, it falls back to a plain `git push` — if asked to, or if the
error text says the command is not inside a git repository.

`openGossipStore` is modelled down to `repoRoot`; `OpenStore`'s own failure is
its error text, taken as it comes (`Dqrvcs.Repository` models what it does
when it succeeds).  `ProposeRefUpdate` and `CastVote` belong to the consensus
layer, whose source is not part of this model: their answers are fields of
the environment, beside those `processPendingPushes` meets (`PushEnv`).  What
the command prints, and the `recordGitEvent` calls whose failures it ignores,
are left out; the outcome is the error it returns and `pending_pushes.json`
after it.

What holds, for every argument vector and every environment: the outcome
depends on what `git push` answers only at two kinds of argument vectors
(`cmdPush_consults_git`).  One is the user's own vector, and only when
`DirectPush` holds: `--no-auto-proposal` was given or no store opened for
want of a repository, and neither `--process-pending` nor `--list-pending`.
The other is the vector of a listed entry that passes the consensus gate
(`PushGate`), among the entries `processPendingPushes` selects.  In the
proposal path that is only the entry of the proposal just made, and its vector
is the user's as it reads back from `pending_pushes.json`, each byte that
starts no valid UTF-8 sequence turned into U+FFFD.

Every call that writes `pending_pushes.json` — the exported functions of
`pending.go`, a run of `processPendingPushes`, `vcs push` in any mode — keeps
it a queue file that loads with no proposal twice, whatever it answers and
whether or not its write succeeds, as long as the proposal IDs it writes read
back unchanged (`QueueInv.run`); so from a missing file it stays so over every
run of such calls (`queue_loads_after_any_run`).
-/
import Dqrvcs.PushIntent

namespace Dqrvcs

/-- The text of each error of `resolvePushIntent`. -/
def IntentError.message : IntentError → Bytes
  | .detached =>
    ascii "push requires a branch checkout (detached HEAD not supported for auto-proposal)"
  | .noRemote => ascii "could not determine push remote"
  | .noTarget => ascii "could not resolve target ref for push"
  | .noSource sourceRef =>
    ascii "could not resolve source ref " ++ PendingError.message.encodeQuoted sourceRef ++
      ascii " for push"

/-- What `cmdPush` meets outside the queue: the answers `processPendingPushes`
meets (`push`, whose `runGit` also runs the direct `git push`), the
repository `git rev-parse` reads (`repo`), the output of
`git rev-parse --show-toplevel` (`none` when it fails), `OpenStore`'s error
text for a root (`none` when it opens), the consensus layer's
`ProposeRefUpdate(ref, old, new)` (the proposal ID, or an error text) and
`CastVote(id, "yes")` (an error text, or `none`), and whether the write of
`UpsertPendingPush` succeeds. -/
structure PushCmdEnv where
  push : PushEnv
  repo : Repo
  toplevel : Option Bytes
  openStore : Bytes → Option Bytes
  propose : Bytes → Bytes → Bytes → Except Bytes Bytes
  castVote : Bytes → Option Bytes
  queueWrite : Bool

/-- What `cmdPush` returns, and `pending_pushes.json` after it. -/
structure PushCmdOutcome where
  result : Option Bytes
  queue : List PendingPush
deriving DecidableEq, Repr

/-- `repoRoot`, then `gossip.OpenStore` of the root. -/
def openGossipStore (env : PushCmdEnv) : Except Bytes Unit :=
  match env.toplevel with
  | none => .error (ascii "decentralized commands must run inside a git repository")
  | some out =>
    let root := trimSpace out
    if root = [] then .error (ascii "could not determine repository root") else
    match env.openStore root with
    | some e => .error e
    | none => .ok ()

/-- `printPendingPushes`: the error of `ListPendingPushes`, if any. -/
def printPendingPushes (queue : List PendingPush) : Option Bytes :=
  match ListPendingPushes queue with
  | .error e => some e.message
  | .ok _ => none

/-- `processPendingPushes(store, only)` as `cmdPush` returns it: the load
error or the first error of the loop. -/
def processAndReport (env : PushEnv) (queue : List PendingPush) (only : Bytes) :
    PushCmdOutcome :=
  match processPendingPushes env queue only with
  | .error e => ⟨some e.message, queue⟩
  | .ok (r, queue) => ⟨r.firstErr, queue⟩

/-- The entry `cmdPush` queues for the proposal `proposalID` of `intent`. -/
def proposedEntry (proposalID : Bytes) (intent : PushIntent) (gitArgs : List Bytes) :
    PendingPush :=
  ⟨proposalID, intent.remote, intent.sourceRef, intent.targetRef, intent.newOID, gitArgs,
    statusPending, 0, [], [], [], [], []⟩

/-- The proposal path once the entry is queued: process it alone, and when it
was not pushed, ask for the proposal's status. -/
def processProposed (env : PushEnv) (queue : List PendingPush) (proposalID : Bytes) :
    PushCmdOutcome :=
  match processPendingPushes env queue proposalID with
  | .error e => ⟨some e.message, queue⟩
  | .ok (r, queue) =>
    match r.firstErr with
    | some e => ⟨some e, queue⟩
    | none =>
      if 0 < r.executed then ⟨none, queue⟩ else
      match env.proposalStatus proposalID with
      | .error e => ⟨some e, queue⟩
      | .ok _ => ⟨none, queue⟩

/-- The proposal path of `cmdPush`: resolve the intent, propose, vote yes,
queue the entry, process it. -/
def proposePush (env : PushCmdEnv) (queue : List PendingPush) (gitArgs : List Bytes) :
    PushCmdOutcome :=
  match resolvePushIntent env.repo gitArgs with
  | .error e => ⟨some e.message, queue⟩
  | .ok intent =>
    match env.propose intent.targetRef intent.oldOID intent.newOID with
    | .error e => ⟨some e, queue⟩
    | .ok proposalID =>
      match env.castVote proposalID with
      | some e =>
        ⟨some (ascii "auto-vote for proposal " ++ proposalID ++ ascii " failed: " ++ e), queue⟩
      | none =>
        match UpsertPendingPush env.push.now env.queueWrite queue
            (proposedEntry proposalID intent gitArgs) with
        | (.error e, queue) => ⟨some e.message, queue⟩
        | (.ok _, queue) => processProposed env.push queue proposalID

/-- `cmdPush(args)` on the queue file `queue`. -/
def cmdPush (env : PushCmdEnv) (queue : List PendingPush) (args : List Bytes) : PushCmdOutcome :=
  let (processPendingOnly, remaining) := consumeExactFlag args (ascii "--process-pending")
  let (listPendingOnly, remaining) := consumeExactFlag remaining (ascii "--list-pending")
  let (noAutoProposal, gitArgs) := consumeExactFlag remaining (ascii "--no-auto-proposal")
  match openGossipStore env with
  | .error e =>
    if processPendingOnly || listPendingOnly then ⟨some e, queue⟩
    else if noAutoProposal || decide (ascii "inside a git repository" <:+: e) then
      ⟨env.push.runGit (ascii "push" :: gitArgs), queue⟩
    else ⟨some e, queue⟩
  | .ok () =>
    if listPendingOnly then ⟨printPendingPushes queue, queue⟩
    else if processPendingOnly then processAndReport env.push queue []
    else if noAutoProposal then ⟨env.push.runGit (ascii "push" :: gitArgs), queue⟩
    else proposePush env queue gitArgs

/-! ## Where `git push` is consulted -/

/-- The argument vector once `cmdPush` removes its three flags: what
`git push` and the proposal receive. -/
def pushGitArgs (args : List Bytes) : List Bytes :=
  (consumeExactFlag (consumeExactFlag (consumeExactFlag args (ascii "--process-pending")).2
    (ascii "--list-pending")).2 (ascii "--no-auto-proposal")).2

theorem cmdPushEntry_eq (repo : Repo) (proposalID : Bytes) (args : List Bytes) :
    cmdPushEntry repo proposalID args = (resolvePushIntent repo (pushGitArgs args)).map
      fun intent => (intent, proposedEntry proposalID intent (pushGitArgs args)) := rfl

/-! ## `pending_pushes.json` over every run -/

theorem QueueInv.processAndReport {queue : List PendingPush} (hq : QueueInv queue) (env : PushEnv)
    (only : Bytes) : QueueInv (Dqrvcs.processAndReport env queue only).queue := by
  unfold Dqrvcs.processAndReport
  split
  · exact hq
  · next h => exact hq.processPendingPushes env only h

theorem QueueInv.processProposed {queue : List PendingPush} (hq : QueueInv queue) (env : PushEnv)
    (proposalID : Bytes) : QueueInv (Dqrvcs.processProposed env queue proposalID).queue := by
  unfold Dqrvcs.processProposed
  split
  · exact hq
  · next h =>
    have hq' := hq.processPendingPushes env proposalID h
    repeat' split
    all_goals exact hq'

/-- The proposal IDs the consensus layer hands `vcs push` read back unchanged
once trimmed. -/
def PushCmdEnv.ValidIDs (env : PushCmdEnv) : Prop :=
  ∀ ref old new id, env.propose ref old new = .ok id → jsonString (trimSpace id) = trimSpace id

theorem QueueInv.proposePush {queue : List PendingPush} (hq : QueueInv queue) {env : PushCmdEnv}
    (hv : env.ValidIDs) (gitArgs : List Bytes) :
    QueueInv (Dqrvcs.proposePush env queue gitArgs).queue := by
  unfold Dqrvcs.proposePush
  rcases resolvePushIntent env.repo gitArgs with e | intent
  · exact hq
  dsimp only
  rcases hp : env.propose intent.targetRef intent.oldOID intent.newOID with e | id
  · exact hq
  dsimp only
  rcases env.castVote id with _ | e
  · have hu := @QueueInv.upsert _ hq env.push.now env.queueWrite (proposedEntry id intent gitArgs)
      (hv _ _ _ _ hp)
    dsimp only
    rcases hup : UpsertPendingPush env.push.now env.queueWrite queue
      (proposedEntry id intent gitArgs) with ⟨_ | q, queue'⟩ <;> rw [hup] at hu
    · exact hu
    · exact hu.processProposed _ _
  · exact hq

theorem QueueInv.cmdPush {queue : List PendingPush} (hq : QueueInv queue) {env : PushCmdEnv}
    (hv : env.ValidIDs) (args : List Bytes) : QueueInv (Dqrvcs.cmdPush env queue args).queue := by
  unfold Dqrvcs.cmdPush
  simp only [consumeExactFlag]
  rcases openGossipStore env with e | ⟨⟩ <;> dsimp only
  · split_ifs <;> exact hq
  · split_ifs
    · exact hq
    · exact hq.processAndReport _ _
    · exact hq
    · exact hq.proposePush hv _

/-- The calls that write `pending_pushes.json`: the exported functions of
`pending.go`, a run of `processPendingPushes`, and `vcs push`. -/
inductive QueueCall
  | upsert (now : Bytes) (io : Bool) (push : PendingPush)
  | markPending (now : Bytes) (io : Bool) (proposalID message : Bytes)
  | markFailed (now : Bytes) (io : Bool) (proposalID message : Bytes)
  | markCompleted (now : Bytes) (io : Bool) (proposalID : Bytes)
  | process (env : PushEnv) (only : Bytes)
  | push (env : PushCmdEnv) (args : List Bytes)

/-- The queue file after a call. -/
def QueueCall.run : QueueCall → List PendingPush → List PendingPush
  | .upsert now io entry, file => (UpsertPendingPush now io file entry).2
  | .markPending now io id message, file => (MarkPendingPushPending now io file id message).2
  | .markFailed now io id message, file => (MarkPendingPushFailed now io file id message).2
  | .markCompleted now io id, file => (MarkPendingPushCompleted now io file id).2
  | .process env only, file =>
    match processPendingPushes env file only with
    | .error _ => file
    | .ok (_, file) => file
  | .push env args, file => (cmdPush env file args).queue

/-- The proposal IDs a call writes read back unchanged once trimmed: the one
it upserts, or each one the consensus layer hands `vcs push`. -/
def QueueCall.ValidIDs : QueueCall → Prop
  | .upsert _ _ entry => jsonString (trimSpace entry.proposalID) = trimSpace entry.proposalID
  | .push env _ => env.ValidIDs
  | _ => True

/-- The step lemma: every call whose IDs read back unchanged keeps the queue
file loadable with no proposal twice, whatever it answers. -/
theorem QueueInv.run {file : List PendingPush} (hq : QueueInv file) :
    ∀ c : QueueCall, c.ValidIDs → QueueInv (c.run file)
  | .upsert now io entry, hv => @QueueInv.upsert _ hq now io entry hv
  | .markPending now io id message, _ => hq.updatePendingPushStatus (.inl rfl) now io id message
  | .markFailed now io id message, _ =>
    hq.updatePendingPushStatus (.inr (.inl rfl)) now io id message
  | .markCompleted now io id, _ => hq.updatePendingPushStatus (.inr (.inr rfl)) now io id []
  | .process env only, _ => by
    dsimp only [QueueCall.run]
    split
    · exact hq
    · next h => exact hq.processPendingPushes env only h
  | .push env args, hv => @QueueInv.cmdPush _ hq env hv args

theorem QueueInv.runAll : ∀ (calls : List QueueCall), (∀ c ∈ calls, c.ValidIDs) →
    ∀ {file : List PendingPush}, QueueInv file →
      QueueInv (calls.foldl (fun file c => c.run file) file)
  | [], _, _, hq => hq
  | c :: calls, hv, _, hq =>
    QueueInv.runAll calls (fun c' h => hv c' (.tail _ h)) (hq.run c (hv c (.head _)))

/-- `pending_pushes.json` over every run, from a missing file: whatever calls
write it — upserts and marks with any arguments, runs of
`processPendingPushes` and `vcs push` in any environment — and whether or not
each write succeeds, as long as the proposal IDs written read back unchanged,
`ListPendingPushes` succeeds and returns every stored record as it reads
back, sorted; reading back keeps every proposal ID, and no proposal is queued
twice. -/
theorem queue_loads_after_any_run (calls : List QueueCall) (hv : ∀ c ∈ calls, c.ValidIDs) :
    ListPendingPushes (calls.foldl (fun file c => c.run file) []) =
        .ok (sortPushes ((calls.foldl (fun file c => c.run file) []).map reread)) ∧
      ((calls.foldl (fun file c => c.run file) []).map reread).map PendingPush.proposalID =
        (calls.foldl (fun file c => c.run file) []).map PendingPush.proposalID ∧
      ((calls.foldl (fun file c => c.run file) []).map PendingPush.proposalID).Nodup := by
  have hq := QueueInv.runAll calls hv (⟨by simp, by simp, by simp⟩ : QueueInv [])
  exact ⟨hq.load, hq.map_proposalID_reread, hq.ids_nodup⟩

/-- The theorem after an upsert of `p1` and its completion. -/
theorem queue_loads_after_upsert_and_completion :
    let calls : List QueueCall :=
      [.upsert (ascii "t1") true ⟨ascii "p1", ascii "origin", ascii "main", ascii "refs/heads/main",
          ascii "c0ffee", [ascii "origin", ascii "main"], [], 0, [], [], [], [], []⟩,
        .markCompleted (ascii "t2") true (ascii "p1")]
    (∀ c ∈ calls, c.ValidIDs) ∧
      ListPendingPushes (calls.foldl (fun file c => c.run file) []) =
          .ok (sortPushes ((calls.foldl (fun file c => c.run file) []).map reread)) ∧
        ((calls.foldl (fun file c => c.run file) []).map reread).map PendingPush.proposalID =
          (calls.foldl (fun file c => c.run file) []).map PendingPush.proposalID ∧
        ((calls.foldl (fun file c => c.run file) []).map PendingPush.proposalID).Nodup := by
  intro calls
  have hv : ∀ c ∈ calls, c.ValidIDs := by
    simp only [calls, List.forall_mem_cons, QueueCall.ValidIDs]
    exact ⟨by decide, trivial, fun _ h => absurd h (List.not_mem_nil _)⟩
  exact ⟨hv, queue_loads_after_any_run calls hv⟩

end Dqrvcs

/-
# `Dqrvcs.PushFlow` — executing certified pushes

`processPendingPushes` of the `vcs` command: it lists the queue once, and for
every entry not yet completed asks the consensus layer for the proposal's
status, certifies it when it has a quorum, runs `git push` with the entry's
arguments, and records the outcome with a `Mark…` call.  `ProposalStatus` and
`CertifyProposal` belong to the consensus layer, whose source is not part of
this model, and `git` is another program: a run meets them, and the outcome of
each write of `pending_pushes.json`, as the fields of a `PushEnv`.  What a run
changes is the queue file; what it does outside is the list of proposals whose
push succeeded, `ProcessResult.pushed`.

Every `Mark…` error is discarded (`_ =`).  When the write that marks an
executed push completed fails, the entry stays pending, and the next run
pushes it again (`push_repeats_after_lost_completion`).

That write is the only way back.  When every write succeeds, each entry the
loop reaches is marked once, and completed exactly when it was pushed
(`processEntry_spec`).  So over any runs on a queue with no proposal twice, no
proposal is pushed twice, and none that was completed at the start is pushed
(`push_at_most_once_of_reliable_writes`).  The proof carries `LoopInv` through
the loop and from one run to the next.

What one entry can do is said once (`processEntry_cases`): short of the gate
of `PushGate`, a failure or a mark of pending; past it, a push, which fails
or completes.  From it, for every queue and every environment, each selected
entry is counted once, a first error is returned exactly when something
failed, and `git push` runs only behind the gate: the run does not depend on
what the git runner would answer elsewhere
(`processPendingPushes_accounting`), and the vectors it hands `git`, which a
run records as `ProcessResult.ran`, are those of the selected entries past
the gate, in the order listed (`processPendingPushes_ran`).
-/
import Dqrvcs.Pending

namespace Dqrvcs

/-- What `ProposalStatus` reports of a proposal, as far as the loop reads it. -/
structure ProposalView where
  expired : Bool
  certified : Bool
  hasQuorum : Bool
  yesVoters : Nat
  members : Nat
  requiredYes : Nat
deriving DecidableEq, Repr

/-- What one run meets outside the queue: the consensus layer's answers (an
error is its text), the outcome of each `git push` (`none` is success), whether
the write of each `Mark…` call succeeds, and the clock. -/
structure PushEnv where
  proposalStatus : Bytes → Except Bytes ProposalView
  certifyProposal : Bytes → Option Bytes
  runGit : List Bytes → Option Bytes
  io : Bytes → Bool
  now : Bytes

/-- `pendingPushProcessResult`, with the proposals whose push succeeded and
the argument vectors handed to `git`, in order. -/
structure ProcessResult where
  checked : Nat
  failed : Nat
  pending : Nat
  executed : Nat
  firstErr : Option Bytes
  pushed : List Bytes
  ran : List (List Bytes)
deriving DecidableEq, Repr

/-- The counters at the start of a run. -/
def ProcessResult.init : ProcessResult := ⟨0, 0, 0, 0, none, [], []⟩

/-- A failure: one more failed, the first error kept, the entry marked failed. -/
def recordFailure (env : PushEnv) (file : List PendingPush) (r : ProcessResult) (id msg : Bytes) :
    List PendingPush × ProcessResult :=
  ((MarkPendingPushFailed env.now (env.io id) file id msg).2,
    { r with failed := r.failed + 1, firstErr := r.firstErr.orElse fun _ => some msg })

/-- The text of `MarkPendingPushPending` for a proposal without quorum. -/
def awaitingQuorum (st : ProposalView) : Bytes :=
  ascii "awaiting quorum yes=" ++ formatUint st.yesVoters ++ ascii "/" ++ formatUint st.members ++
    ascii " required=" ++ formatUint st.requiredYes

/-- One entry of the loop, once it is neither filtered out nor completed. -/
def processEntry (env : PushEnv) (push : PendingPush) (file : List PendingPush)
    (r : ProcessResult) : List PendingPush × ProcessResult :=
  let id := push.proposalID
  let r := { r with checked := r.checked + 1 }
  match env.proposalStatus id with
  | .error msg => recordFailure env file r id msg
  | .ok st =>
    if st.expired then recordFailure env file r id (ascii "proposal has expired")
    else if !st.certified && !st.hasQuorum then
      ((MarkPendingPushPending env.now (env.io id) file id (awaitingQuorum st)).2,
        { r with pending := r.pending + 1 })
    else match (if st.certified then none else env.certifyProposal id) with
    | some msg => recordFailure env file r id msg
    | none =>
      let r := { r with ran := r.ran ++ [ascii "push" :: push.gitArgs] }
      match env.runGit (ascii "push" :: push.gitArgs) with
      | some msg => recordFailure env file r id msg
      | none =>
        ((MarkPendingPushCompleted env.now (env.io id) file id).2,
          { r with executed := r.executed + 1, pushed := r.pushed ++ [id] })

/-- The loop of `processPendingPushes` over the entries listed at its start. -/
def processLoop (env : PushEnv) (only : Bytes) :
    List PendingPush → List PendingPush × ProcessResult → List PendingPush × ProcessResult
  | [], st => st
  | push :: rest, (file, r) =>
    if only ≠ [] ∧ push.proposalID ≠ only then processLoop env only rest (file, r)
    else if push.status = statusCompleted then processLoop env only rest (file, r)
    else processLoop env only rest (processEntry env push file r)

/-- `processPendingPushes(store, onlyProposalID)`: the counters, and the
queue file after the run. -/
def processPendingPushes (env : PushEnv) (file : List PendingPush) (only : Bytes) :
    Except PendingError (ProcessResult × List PendingPush) :=
  match loadPendingPushesLocked file with
  | .error e => .error e
  | .ok pushes =>
    let (file, r) := processLoop env only pushes (file, ProcessResult.init)
    .ok (r, file)

/-- The failing input of at-most-once execution: a certified entry whose
push succeeds in a run where the write marking it completed fails is left
as it was, and the next run pushes it again, successfully. -/
theorem push_repeats_after_lost_completion :
    (processPendingPushes ⟨fun _ => .ok ⟨false, true, true, 1, 1, 1⟩, fun _ => none,
        fun _ => none, fun _ => false, ascii "t1"⟩
      [⟨ascii "p1", ascii "origin", ascii "main", ascii "refs/heads/main", ascii "c0ffee",
        [ascii "origin", ascii "main"], statusPending, 0, [], ascii "t0", ascii "t0", [], []⟩]
      []).toOption.map (fun r => (r.1.pushed, r.2)) =
      some ([ascii "p1"], [⟨ascii "p1", ascii "origin", ascii "main", ascii "refs/heads/main",
        ascii "c0ffee", [ascii "origin", ascii "main"], statusPending, 0, [], ascii "t0",
        ascii "t0", [], []⟩]) ∧
    (processPendingPushes ⟨fun _ => .ok ⟨false, true, true, 1, 1, 1⟩, fun _ => none,
        fun _ => none, fun _ => true, ascii "t2"⟩
      [⟨ascii "p1", ascii "origin", ascii "main", ascii "refs/heads/main", ascii "c0ffee",
        [ascii "origin", ascii "main"], statusPending, 0, [], ascii "t0", ascii "t0", [], []⟩]
      []).toOption.map (fun r => (r.1.pushed, r.2.map PendingPush.status)) =
      some ([ascii "p1"], [statusCompleted]) := by
  decide

/-! ## What one entry does -/

/-- The gate in front of `git push`: the status answered, the proposal not
expired, and certified already or, having a quorum, certified now. -/
def PushGate (env : PushEnv) (id : Bytes) : Prop :=
  ∃ st, env.proposalStatus id = .ok st ∧ st.expired = false ∧
    (st.certified = true ∨ (st.hasQuorum = true ∧ env.certifyProposal id = none))

/-- Past the status answer, the gate is the loop's three checks. -/
theorem pushGate_iff {env : PushEnv} {id : Bytes} {st : ProposalView}
    (hs : env.proposalStatus id = .ok st) :
    PushGate env id ↔ ¬ st.expired = true ∧ ¬ (!st.certified && !st.hasQuorum) = true ∧
      (if st.certified = true then none else env.certifyProposal id) = none := by
  unfold PushGate
  rw [hs]
  constructor
  · rintro ⟨st', h, he, hc⟩
    cases h
    cases hcert : st.certified <;> cases hquo : st.hasQuorum <;> simp_all
  · rintro ⟨hx, hq, hc⟩
    refine ⟨st, rfl, by simpa using hx, ?_⟩
    cases hcert : st.certified <;> cases hquo : st.hasQuorum <;> simp_all

instance (env : PushEnv) (id : Bytes) : Decidable (PushGate env id) :=
  match h : env.proposalStatus id with
  | .error _ => isFalse fun ⟨_, hs, _⟩ => by rw [h] at hs; cases hs
  | .ok _ => decidable_of_iff _ (pushGate_iff h).symm

/-- What one entry can do, said once: once checked, it is recorded as a
failure or marked pending for want of a quorum, short of the gate; or, past
the gate, its vector is handed to `git`, and it is recorded as a failure or,
`git push` succeeding, marked completed, counted as executed and pushed. -/
theorem processEntry_cases (env : PushEnv) (push : PendingPush) (file : List PendingPush)
    (r : ProcessResult) :
    (¬ PushGate env push.proposalID ∧ ∃ msg, processEntry env push file r =
      recordFailure env file { r with checked := r.checked + 1 } push.proposalID msg) ∨
    (¬ PushGate env push.proposalID ∧ ∃ st, processEntry env push file r =
      ((MarkPendingPushPending env.now (env.io push.proposalID) file push.proposalID
        (awaitingQuorum st)).2, { r with checked := r.checked + 1, pending := r.pending + 1 })) ∨
    (PushGate env push.proposalID ∧ ∃ msg, env.runGit (ascii "push" :: push.gitArgs) = some msg ∧
      processEntry env push file r = recordFailure env file
        { r with checked := r.checked + 1, ran := r.ran ++ [ascii "push" :: push.gitArgs] }
        push.proposalID msg) ∨
    (PushGate env push.proposalID ∧ env.runGit (ascii "push" :: push.gitArgs) = none ∧
      processEntry env push file r =
        ((MarkPendingPushCompleted env.now (env.io push.proposalID) file push.proposalID).2,
          { r with checked := r.checked + 1, ran := r.ran ++ [ascii "push" :: push.gitArgs],
                   executed := r.executed + 1, pushed := r.pushed ++ [push.proposalID] })) := by
  unfold processEntry
  dsimp only
  rcases hs : env.proposalStatus push.proposalID with msg | st
  · exact .inl ⟨fun ⟨_, h, _⟩ => (by rw [hs] at h; cases h), msg, rfl⟩
  have hg := pushGate_iff hs
  dsimp only
  by_cases hx : st.expired = true
  · exact .inl ⟨fun h => (hg.mp h).1 hx, _, by rw [if_pos hx]⟩
  rw [if_neg hx]
  by_cases hq : (!st.certified && !st.hasQuorum) = true
  · exact .inr (.inl ⟨fun h => (hg.mp h).2.1 hq, st, by rw [if_pos hq]⟩)
  rw [if_neg hq]
  rcases hc : (if st.certified = true then none else env.certifyProposal push.proposalID)
    with _ | msg
  · have hgate := hg.mpr ⟨hx, hq, hc⟩
    rcases env.runGit (ascii "push" :: push.gitArgs) with _ | msg
    · exact .inr (.inr (.inr ⟨hgate, rfl, rfl⟩))
    · exact .inr (.inr (.inl ⟨hgate, msg, rfl, rfl⟩))
  · exact .inl ⟨fun h => (by rw [(hg.mp h).2.2] at hc; cases hc), msg, rfl⟩

/-! ## At most once, when the writes succeed -/

/-- One entry, when every write succeeds: one mark of the entry's proposal with
a valid status, and the proposal pushed exactly when that status is
`completed`. -/
theorem processEntry_spec {env : PushEnv} (hio : ∀ id, env.io id = true) (push : PendingPush)
    {file L : List PendingPush} (r : ProcessResult)
    (hload : loadPendingPushesLocked file = .ok L) (hq : QueueInv L)
    (hid : push.proposalID ∈ L.map PendingPush.proposalID) :
    ∃ status lastError, ValidStatus status ∧
      (processEntry env push file r).1 = markedQueue push.proposalID status lastError env.now L ∧
      (processEntry env push file r).2.pushed =
        if status = statusCompleted then r.pushed ++ [push.proposalID] else r.pushed := by
  have mark := fun status lastError =>
    updatePendingPushStatus_eq status lastError env.now hload hq hid
  have failed := fun msg r' => show ∃ status lastError, ValidStatus status ∧
      (recordFailure env file r' push.proposalID msg).1 =
        markedQueue push.proposalID status lastError env.now L ∧
      (recordFailure env file r' push.proposalID msg).2.pushed =
        if status = statusCompleted then r'.pushed ++ [push.proposalID] else r'.pushed from
    ⟨statusFailed, msg, .inr (.inl rfl), by simp [recordFailure, MarkPendingPushFailed, hio, mark],
      by simp [recordFailure, show statusFailed ≠ statusCompleted by decide]⟩
  rcases processEntry_cases env push file r with ⟨-, msg, e⟩ | ⟨-, st, e⟩ | ⟨-, msg, -, e⟩ |
    ⟨-, -, e⟩ <;> rw [e]
  · exact failed msg _
  · exact ⟨statusPending, awaitingQuorum st, .inl rfl,
      by simp [MarkPendingPushPending, hio, mark],
      by simp [show statusPending ≠ statusCompleted by decide]⟩
  · exact failed msg _
  · exact ⟨statusCompleted, [], .inr (.inr rfl), by simp [MarkPendingPushCompleted, hio, mark],
      by simp⟩

theorem completed_perm {L L' : List PendingPush} (hp : L.Perm L') (x : Bytes) :
    Completed L x ↔ Completed L' x :=
  exists_congr fun _ => and_congr_left' hp.mem_iff

/-- What holds of the loop over the entries `ps` listed at the start, before
the entries `rest`: the file loads to a queue holding the proposals of `ps`,
completed for those completed in `ps` and those pushed so far; each of these
was pushed once, was not completed in `ps`, and is not in `rest`. -/
structure LoopInv (ps rest file : List PendingPush) (r : ProcessResult) : Prop where
  suffix : rest <:+ ps
  queue : ∃ L, loadPendingPushesLocked file = .ok L ∧ QueueInv L ∧
    (∀ x, x ∈ L.map PendingPush.proposalID ↔ x ∈ ps.map PendingPush.proposalID) ∧
    ∀ x, Completed L x ↔ Completed ps x ∨ x ∈ r.pushed
  pushed_nodup : r.pushed.Nodup
  pushed_fresh : ∀ x ∈ r.pushed, ¬ Completed ps x ∧ x ∉ rest.map PendingPush.proposalID

namespace LoopInv

variable {ps : List PendingPush} {p : PendingPush} {rest file : List PendingPush}
  {r : ProcessResult}

theorem skip (h : LoopInv ps (p :: rest) file r) : LoopInv ps rest file r :=
  ⟨(List.suffix_cons p rest).trans h.suffix, h.queue, h.pushed_nodup,
    fun x hx => ⟨(h.pushed_fresh x hx).1, fun hm => (h.pushed_fresh x hx).2 (.tail _ hm)⟩⟩

/-- The step lemma: an entry not completed at the start, processed. -/
theorem entry (hps : QueueInv ps) {env : PushEnv} (hio : ∀ id, env.io id = true)
    (h : LoopInv ps (p :: rest) file r) (hst : p.status ≠ statusCompleted) :
    LoopInv ps rest (processEntry env p file r).1 (processEntry env p file r).2 := by
  obtain ⟨L, hload, hq, hids, hcomp⟩ := h.queue
  have hp : p ∈ ps := h.suffix.subset (List.mem_cons_self _ _)
  have hnd : ((p :: rest).map PendingPush.proposalID).Nodup :=
    hps.ids_nodup.sublist (h.suffix.sublist.map _)
  obtain ⟨status, msg, hs, hfile, hpushed⟩ :=
    processEntry_spec hio p r hload hq ((hids _).mpr (List.mem_map_of_mem _ hp))
  have hnotC : ¬ Completed L p.proposalID := by
    rw [hcomp]
    rintro (⟨q, hq', e, hqs⟩ | hx)
    · exact hst (List.inj_on_of_nodup_map hps.ids_nodup hq' hp e ▸ hqs)
    · exact (h.pushed_fresh _ hx).2 (List.mem_cons_self _ _)
  have hnotin : p.proposalID ∉ r.pushed := fun hx => hnotC ((hcomp _).mpr (.inr hx))
  have hnew : ¬ Completed ps p.proposalID ∧ p.proposalID ∉ rest.map PendingPush.proposalID :=
    ⟨fun hc => hnotC ((hcomp _).mpr (.inl hc)), (List.nodup_cons.mp hnd).1⟩
  have hq' := hq.markedQueue hs p.proposalID msg env.now
  refine ⟨(List.suffix_cons p rest).trans h.suffix, ⟨_, hfile ▸ hq'.load,
    hq'.loaded, fun x => ?_, fun x => ?_⟩, ?_, ?_⟩
  · rw [((perm_sortPushes _).map _).mem_iff, hq'.map_proposalID_reread,
      map_proposalID_markedQueue]
    exact hids x
  · rw [completed_perm (perm_sortPushes _), hq'.completed_reread, completed_markedQueue, hpushed]
    by_cases hx : x = p.proposalID
    · subst hx
      split_ifs with hc <;> simp [hc, hnotin, hnew.1, (hids _).mpr (List.mem_map_of_mem _ hp)]
    · split_ifs <;> simp [hx, hcomp]
  · rw [hpushed]
    split_ifs
    · exact h.pushed_nodup.append (List.nodup_singleton _) (List.disjoint_singleton.mpr hnotin)
    · exact h.pushed_nodup
  · have old : ∀ x ∈ r.pushed, ¬ Completed ps x ∧ x ∉ rest.map PendingPush.proposalID :=
      fun x hx => ⟨(h.pushed_fresh x hx).1, fun hm => (h.pushed_fresh x hx).2 (.tail _ hm)⟩
    rw [hpushed]
    split_ifs
    · intro x hx
      rcases List.mem_append.mp hx with hx | hx
      · exact old x hx
      · exact List.mem_singleton.mp hx ▸ hnew
    · exact old

/-- The run lemma: the loop keeps `LoopInv` to its end. -/
theorem processLoop (hps : QueueInv ps) {env : PushEnv} (hio : ∀ id, env.io id = true)
    (only : Bytes) : ∀ {rest file : List PendingPush} {r : ProcessResult},
      LoopInv ps rest file r →
      LoopInv ps [] (Dqrvcs.processLoop env only rest (file, r)).1
        (Dqrvcs.processLoop env only rest (file, r)).2
  | [], _, _, h => h
  | p :: rest, file, r, h => by
    unfold Dqrvcs.processLoop
    split_ifs with h₁ h₂
    · exact processLoop hps hio only h.skip
    · exact processLoop hps hio only h.skip
    · exact processLoop hps hio only (h.entry hps hio h₂)

end LoopInv

/-- One run with every write succeeding, on a queue that loads with no
proposal twice: it succeeds and leaves such a queue, pushes no proposal twice
and none completed before, and completes exactly what was completed and what
it pushed. -/
theorem processPendingPushes_reliable {env : PushEnv} (hio : ∀ id, env.io id = true)
    (only : Bytes) {file ps : List PendingPush} (hload : loadPendingPushesLocked file = .ok ps)
    (hnd : (ps.map PendingPush.proposalID).Nodup) :
    ∃ r file' L, processPendingPushes env file only = .ok (r, file') ∧
      loadPendingPushesLocked file' = .ok L ∧ (L.map PendingPush.proposalID).Nodup ∧
      r.pushed.Nodup ∧ (∀ x ∈ r.pushed, ¬ Completed ps x) ∧
      ∀ x, Completed L x ↔ Completed ps x ∨ x ∈ r.pushed := by
  have hps : QueueInv ps := .of_load hload hnd
  have h₀ : LoopInv ps ps file ProcessResult.init :=
    ⟨List.suffix_refl _, ⟨ps, hload, hps, fun _ => Iff.rfl, fun _ => by simp [ProcessResult.init]⟩,
      List.nodup_nil, by simp [ProcessResult.init]⟩
  have h := h₀.processLoop hps hio only
  obtain ⟨L, hl, hq, -, hc⟩ := h.queue
  exact ⟨_, _, L, by simp only [processPendingPushes, hload], hl, hq.ids_nodup, h.pushed_nodup,
    fun x hx => (h.pushed_fresh x hx).1, hc⟩

/-- Successive runs of `processPendingPushes` on one queue, each with its
environment and `onlyProposalID`: the queue after them, and the proposals
pushed, in order. -/
def processRuns : List (PushEnv × Bytes) → List PendingPush → List PendingPush × List Bytes
  | [], file => (file, [])
  | (env, only) :: runs, file =>
    match processPendingPushes env file only with
    | .error _ => processRuns runs file
    | .ok (r, file) => ((processRuns runs file).1, r.pushed ++ (processRuns runs file).2)

/-- At most once, when the writes succeed: over any runs of
`processPendingPushes` on a queue that loads with no proposal twice, every
write of `pending_pushes.json` succeeding, no proposal is pushed twice and
none completed at the start is pushed; at the end the queue completes exactly
what it completed at the start and what was pushed. -/
theorem push_at_most_once_of_reliable_writes :
    ∀ (runs : List (PushEnv × Bytes)), (∀ run ∈ runs, ∀ id, run.1.io id = true) →
      ∀ {file ps : List PendingPush}, loadPendingPushesLocked file = .ok ps →
      (ps.map PendingPush.proposalID).Nodup →
      (processRuns runs file).2.Nodup ∧ (∀ x ∈ (processRuns runs file).2, ¬ Completed ps x) ∧
        ∃ L, loadPendingPushesLocked (processRuns runs file).1 = .ok L ∧
          ∀ x, Completed L x ↔ Completed ps x ∨ x ∈ (processRuns runs file).2
  | [], _, _, ps, hload, _ =>
    ⟨List.nodup_nil, by simp [processRuns], ps, hload, by simp [processRuns]⟩
  | (env, only) :: runs, hio, file, ps, hload, hnd => by
    obtain ⟨r, file', L, hrun, hl, hndL, hn, hf, hc⟩ :=
      processPendingPushes_reliable (hio _ (List.mem_cons_self _ _)) only hload hnd
    obtain ⟨hn', hf', L', hl', hc'⟩ := push_at_most_once_of_reliable_writes runs
      (fun run h => hio run (List.mem_cons_of_mem _ h)) hl hndL
    simp only [processRuns, hrun]
    refine ⟨hn.append hn' fun x hx hx' => hf' x hx' ((hc x).mpr (.inr hx)), fun x hx => ?_,
      L', hl', fun x => by rw [hc', hc, or_assoc, List.mem_append]⟩
    rcases List.mem_append.mp hx with hx | hx
    · exact hf x hx
    · exact fun hps => hf' x hx ((hc x).mpr (.inl hps))

/-- The queue of `push_repeats_after_lost_completion`, run twice with every
write succeeding: the proposal is pushed once. -/
theorem push_at_most_once_two_runs :
    let file : List PendingPush :=
      [⟨ascii "p1", ascii "origin", ascii "main", ascii "refs/heads/main", ascii "c0ffee",
        [ascii "origin", ascii "main"], statusPending, 0, [], ascii "t0", ascii "t0", [], []⟩]
    let runs : List (PushEnv × Bytes) :=
      [(⟨fun _ => .ok ⟨false, true, true, 1, 1, 1⟩, fun _ => none, fun _ => none, fun _ => true,
          ascii "t1"⟩, []),
        (⟨fun _ => .ok ⟨false, true, true, 1, 1, 1⟩, fun _ => none, fun _ => none, fun _ => true,
          ascii "t2"⟩, [])]
    (processRuns runs file).2.Nodup ∧ (∀ x ∈ (processRuns runs file).2, ¬ Completed file x) ∧
      ∃ L, loadPendingPushesLocked (processRuns runs file).1 = .ok L ∧
        ∀ x, Completed L x ↔ Completed file x ∨ x ∈ (processRuns runs file).2 :=
  push_at_most_once_of_reliable_writes _ (by simp) rfl (by decide)

example : (processRuns
      [(⟨fun _ => .ok ⟨false, true, true, 1, 1, 1⟩, fun _ => none, fun _ => none, fun _ => true,
          ascii "t1"⟩, []),
        (⟨fun _ => .ok ⟨false, true, true, 1, 1, 1⟩, fun _ => none, fun _ => none, fun _ => true,
          ascii "t2"⟩, [])]
      [⟨ascii "p1", ascii "origin", ascii "main", ascii "refs/heads/main", ascii "c0ffee",
        [ascii "origin", ascii "main"], statusPending, 0, [], ascii "t0", ascii "t0", [], []⟩]).2 =
      [ascii "p1"] := by
  decide

/-! ## Gating and accounting -/

/-- The entries the loop selects: those `onlyProposalID` names, when it names
one, that are not completed. -/
def Selected (only : Bytes) (p : PendingPush) : Prop :=
  (only = [] ∨ p.proposalID = only) ∧ p.status ≠ statusCompleted

instance (only : Bytes) (p : PendingPush) : Decidable (Selected only p) :=
  inferInstanceAs (Decidable (_ ∧ _))

/-- One entry hands `git` its vector exactly when it is past the gate. -/
theorem processEntry_ran (env : PushEnv) (push : PendingPush) (file : List PendingPush)
    (r : ProcessResult) :
    (processEntry env push file r).2.ran =
      if PushGate env push.proposalID then r.ran ++ [ascii "push" :: push.gitArgs] else r.ran := by
  rcases processEntry_cases env push file r with ⟨hg, _, e⟩ | ⟨hg, _, e⟩ | ⟨hg, _, -, e⟩ |
    ⟨hg, -, e⟩ <;> simp only [e, recordFailure, hg, if_true, if_false]

/-- The run lemma of the calls: over the entries listed, the loop hands `git`
the vector of each selected entry past the gate, in order. -/
theorem processLoop_ran (env : PushEnv) (only : Bytes) :
    ∀ (pushes : List PendingPush) (st : List PendingPush × ProcessResult),
      (processLoop env only pushes st).2.ran = st.2.ran ++
        (pushes.filter fun p => Selected only p ∧ PushGate env p.proposalID).map
          fun p => ascii "push" :: p.gitArgs
  | [], _ => (List.append_nil _).symm
  | p :: rest, (file, r) => by
    unfold processLoop
    by_cases h₁ : only ≠ [] ∧ p.proposalID ≠ only
    · rw [if_pos h₁, List.filter_cons_of_neg fun hs => by
        simp only [decide_eq_true_eq, Selected] at hs; tauto]
      exact processLoop_ran env only rest _
    by_cases h₂ : p.status = statusCompleted
    · rw [if_neg h₁, if_pos h₂, List.filter_cons_of_neg fun hs => by
        simp only [decide_eq_true_eq, Selected] at hs; exact hs.1.2 h₂]
      exact processLoop_ran env only rest _
    have hsel : Selected only p := ⟨by tauto, h₂⟩
    rw [if_neg h₁, if_neg h₂, processLoop_ran env only rest, processEntry_ran, List.filter_cons]
    by_cases hg : PushGate env p.proposalID
    · simp [hsel, hg]
    · simp [hg]

/-- The `git push` calls of a run, for every queue file, every
`onlyProposalID` and every environment: once the queue lists, the run hands
`git` the vector of each selected entry past the gate, once each, in the
order listed, and no other. -/
theorem processPendingPushes_ran (env : PushEnv) (file : List PendingPush) (only : Bytes)
    (pushes : List PendingPush) (hload : loadPendingPushesLocked file = .ok pushes) :
    ∃ r file', processPendingPushes env file only = .ok (r, file') ∧
      r.ran = (pushes.filter fun p => Selected only p ∧ PushGate env p.proposalID).map
        fun p => ascii "push" :: p.gitArgs :=
  ⟨_, (processLoop env only pushes (file, .init)).1, by simp only [processPendingPushes, hload],
    (processLoop_ran env only pushes (file, .init)).trans (List.nil_append _)⟩

/-- The theorem on a queue of two entries, `p1` certified and `p2` without a
quorum: the run pushes `p1`'s vector alone. -/
theorem processPendingPushes_ran_certified :
    let entry : Bytes → List Bytes → PendingPush := fun id args =>
      ⟨id, ascii "origin", ascii "main", ascii "refs/heads/main", ascii "c0ffee", args,
        statusPending, 0, [], ascii "t0", ascii "t0", [], []⟩
    let file := [entry (ascii "p1") [ascii "origin", ascii "main"],
      entry (ascii "p2") [ascii "origin", ascii "dev"]]
    let env : PushEnv := ⟨fun id => .ok ⟨false, id = ascii "p1", false, 0, 1, 1⟩, fun _ => none,
      fun _ => none, fun _ => true, ascii "t1"⟩
    loadPendingPushesLocked file = .ok file ∧
      ∃ r file', processPendingPushes env file [] = .ok (r, file') ∧
        r.ran = (file.filter fun p => Selected [] p ∧ PushGate env p.proposalID).map
          fun p => ascii "push" :: p.gitArgs := by
  intro entry file env
  have h : loadPendingPushesLocked file = .ok file := eq_ok_of_toOption (by decide)
  exact ⟨h, processPendingPushes_ran env file [] file h⟩

/-- The vectors the run of `processPendingPushes_ran_certified` hands `git`. -/
example :
    (processPendingPushes ⟨fun id => .ok ⟨false, id = ascii "p1", false, 0, 1, 1⟩, fun _ => none,
        fun _ => none, fun _ => true, ascii "t1"⟩
      [⟨ascii "p1", ascii "origin", ascii "main", ascii "refs/heads/main", ascii "c0ffee",
          [ascii "origin", ascii "main"], statusPending, 0, [], ascii "t0", ascii "t0", [], []⟩,
        ⟨ascii "p2", ascii "origin", ascii "main", ascii "refs/heads/main", ascii "c0ffee",
          [ascii "origin", ascii "dev"], statusPending, 0, [], ascii "t0", ascii "t0", [], []⟩]
      []).toOption.map (fun r => r.1.ran) =
      some [[ascii "push", ascii "origin", ascii "main"]] := by
  decide

/-! ## The queue a run leaves

Whatever the consensus layer, `git` and the writes answer, a run leaves a
queue that loads as it is: each entry's marks keep it
(`QueueInv.processEntry`), and so does the loop. -/

theorem QueueInv.processEntry {file : List PendingPush} (hq : QueueInv file) (env : PushEnv)
    (push : PendingPush) (r : ProcessResult) : QueueInv (Dqrvcs.processEntry env push file r).1 := by
  rcases processEntry_cases env push file r with ⟨-, msg, e⟩ | ⟨-, st, e⟩ | ⟨-, msg, -, e⟩ |
    ⟨-, -, e⟩ <;> rw [e]
  · exact hq.updatePendingPushStatus (.inr (.inl rfl)) env.now _ _ msg
  · exact hq.updatePendingPushStatus (.inl rfl) env.now _ _ (awaitingQuorum st)
  · exact hq.updatePendingPushStatus (.inr (.inl rfl)) env.now _ _ msg
  · exact hq.updatePendingPushStatus (.inr (.inr rfl)) env.now _ _ []

theorem QueueInv.processLoop (env : PushEnv) (only : Bytes) :
    ∀ (pushes : List PendingPush) {st : List PendingPush × ProcessResult}, QueueInv st.1 →
      QueueInv (Dqrvcs.processLoop env only pushes st).1
  | [], _, h => h
  | p :: rest, (file, r), h => by
    unfold Dqrvcs.processLoop
    split_ifs
    · exact QueueInv.processLoop env only rest h
    · exact QueueInv.processLoop env only rest h
    · exact QueueInv.processLoop env only rest (h.processEntry env p r)

theorem QueueInv.processPendingPushes {file : List PendingPush} (hq : QueueInv file)
    (env : PushEnv) (only : Bytes) {r : ProcessResult} {file' : List PendingPush}
    (h : Dqrvcs.processPendingPushes env file only = .ok (r, file')) : QueueInv file' := by
  have hq' := @QueueInv.processLoop env only (sortPushes (file.map reread)) (file, .init) hq
  simp only [Dqrvcs.processPendingPushes, hq.load] at h
  generalize Dqrvcs.processLoop env only (sortPushes (file.map reread)) (file, .init) = st at h hq'
  cases h
  exact hq'

end Dqrvcs

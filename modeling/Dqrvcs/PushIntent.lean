/-
# `Dqrvcs.PushIntent` — what a certified push pins

`cmdPush` turns its arguments into a proposal: `resolvePushIntent` reads the
repository with `git rev-parse` and names the remote ref the push will update
(`TargetRef`, the proposal's `Ref`) and the commit it will set (`NewOID`); the
pending entry keeps them, with the argument vector itself.  When the proposal
is certified, `processPendingPushes` runs `git push` with that argument
vector, verbatim (`processEntry`), in the repository as it is then.

`git` is modelled by how it resolves names: a `Repo` holds the checked-out
branch, its upstream, its refs with their commits, and the `remote.<name>.push`
values of each remote; `revParse` takes the first candidate of
`ref_rev_parse_rules` that exists.  `gitPush` follows `cmd_push`: the options
that change what is pushed (`--all`, `--mirror`, `--tags`, `--delete`,
`--dry-run`, short clusters, options with values), `set_refspecs` with the
`tag <name>` shorthand and the `remote.<name>.push` mapping of a name that
matches one local ref, then each refspec resolved as `match_push_refs` does:
patterns, `:dst` deletions, `src:dst`, sources by `count_refspec_match` and
unqualified destinations by `guess_ref`.  With no refspec it pushes
`remote.<name>.push`, else `push.default=simple`.

The proposal pins neither the remote ref nor the commit.  The push re-runs
the whole argument vector, so `vcs push remote a b` also updates `b`, and
each branch goes to the commit it has when the push runs
(`push_updates_unproposed_ref`); `vcs push remote :dst` proposes to set
`dst` and deletes it (`push_deletes_target`).  Only a single plain refspec,
with no `remote.<name>.push` configured, updates `TargetRef` and nothing else
(`push_pins_target`).
-/
import Dqrvcs.PushFlow

namespace Dqrvcs

/-! ## Argument vectors -/

/-- `consumeExactFlag`. -/
def consumeExactFlag (args : List Bytes) (flag : Bytes) : Bool × List Bytes :=
  (decide (flag ∈ args), args.filter (· != flag))

theorem consumeExactFlag_plain {args : List Bytes} {flag : Bytes}
    (h : ∀ a ∈ args, a.head? ≠ some 0x2D) (hf : flag.head? = some 0x2D) :
    (consumeExactFlag args flag).2 = args :=
  List.filter_eq_self.2 fun a ha => bne_iff_ne.2 fun e => h a ha (e ▸ hf)

/-- The long options of `git push` that take the next argument as value. -/
def longWithValue : List Bytes :=
  [ascii "--repo", ascii "--receive-pack", ascii "--exec", ascii "--upload-pack",
    ascii "--push-option"]

/-- The short options of `git push` that take the next argument as value. -/
def shortWithValue : List Bytes := [ascii "-c", ascii "-o"]

/-- The loop of `extractPushPositionals`, `expectValue` being its first
argument. -/
def extractPositionals : Bool → List Bytes → List Bytes
  | _, [] => []
  | true, _ :: rest => extractPositionals false rest
  | false, arg :: rest =>
    if arg = ascii "--" then rest
    else if ascii "--" <+: arg then
      extractPositionals (decide (0x3D ∉ arg ∧ arg ∈ longWithValue)) rest
    else if ascii "-" <+: arg ∧ arg ≠ ascii "-" then
      extractPositionals (decide (arg ∈ shortWithValue)) rest
    else arg :: extractPositionals false rest

/-- `extractPushPositionals`. -/
def extractPushPositionals (args : List Bytes) : List Bytes := extractPositionals false args

theorem not_dash_prefix {a t : Bytes} (h : a.head? ≠ some 0x2D) : ¬ (0x2D :: t) <+: a := by
  rintro ⟨u, rfl⟩
  exact h rfl

theorem extractPositionals_plain {a : Bytes} (rest : List Bytes) (h : a.head? ≠ some 0x2D) :
    extractPositionals false (a :: rest) = a :: extractPositionals false rest := by
  have h1 : ¬ ascii "--" <+: a := not_dash_prefix h
  have h2 : ¬ ascii "-" <+: a := not_dash_prefix h
  have h3 : a ≠ ascii "--" := fun e => h1 (e ▸ List.prefix_refl _)
  simp [extractPositionals, h1, h2, h3]

/-- `strings.SplitN(s, sep, 2)` for a one-byte separator: `none` when it does
not occur. -/
def splitOnce (c : UInt8) : Bytes → Option (Bytes × Bytes)
  | [] => none
  | b :: rest => if b = c then some ([], rest) else (splitOnce c rest).map fun p => (b :: p.1, p.2)

theorem splitOnce_append {c : UInt8} : ∀ {a : Bytes} (b : Bytes), c ∉ a →
    splitOnce c (a ++ c :: b) = some (a, b)
  | [], _, _ => by simp [splitOnce]
  | x :: a, b, h => by
    rw [List.mem_cons, not_or] at h
    simp [splitOnce, Ne.symm h.1, splitOnce_append b h.2]

theorem splitOnce_eq_none {c : UInt8} : ∀ {a : Bytes}, c ∉ a → splitOnce c a = none
  | [], _ => rfl
  | x :: a, h => by
    rw [List.mem_cons, not_or] at h
    simp [splitOnce, Ne.symm h.1, splitOnce_eq_none h.2]

/-- `parseUpstream`: the remote and branch of `@{u}`. -/
def parseUpstream (upstream : Bytes) : Bytes × Bytes :=
  let upstream := trimSpace upstream
  if upstream = [] then ([], [])
  else if ascii "refs/remotes/" <+: upstream then
    let trimmed := upstream.drop 13
    (splitOnce 0x2F trimmed).getD (trimmed, [])
  else (splitOnce 0x2F upstream).getD ([], upstream)

/-- `normalizeSourceRef`. -/
def normalizeSourceRef (spec currentBranch : Bytes) : Bytes :=
  let spec := trimSpace spec
  if spec = [] ∨ spec = ascii "HEAD" then currentBranch else spec

/-- `normalizeTargetRef`: the full target ref and its branch name. -/
def normalizeTargetRef (spec currentBranch : Bytes) : Bytes × Bytes :=
  let spec := trimSpace spec
  let spec := if spec = [] ∨ spec = ascii "HEAD" then currentBranch else spec
  if spec = [] then ([], [])
  else if ascii "refs/heads/" <+: spec then (spec, spec.drop 11)
  else if ascii "refs/" <+: spec then (spec, [])
  else if ascii "heads/" <+: spec then (ascii "refs/heads/" ++ spec.drop 6, spec.drop 6)
  else (ascii "refs/heads/" ++ spec, spec)

/-! ## The repository as `git` reads it -/

/-- A repository: the checked-out branch (`none` when `HEAD` is detached),
the upstream `rev-parse --abbrev-ref --symbolic-full-name @{u}` prints
(`none` when there is none), each full ref name with its commit, in the order
`for_each_ref` lists them, and the values of `remote.<name>.push` of each
remote, in the order of the config. -/
structure Repo where
  head : Option Bytes
  upstream : Option Bytes
  refs : List (Bytes × Bytes)
  pushConfig : Bytes → List Bytes

/-- The commit a full ref name points to. -/
def Repo.ref (repo : Repo) (name : Bytes) : Option Bytes :=
  (repo.refs.find? fun r => r.1 = name).map Prod.snd

/-- `tryGitOutput`: what `git` prints, trimmed, or `""` when it fails. -/
def tryGitOutput (out : Option Bytes) : Bytes := trimSpace (out.getD [])

/-- The full ref names `git` tries for a short name, in order
(`ref_rev_parse_rules`). -/
def dwimCandidates (spec : Bytes) : List Bytes :=
  [spec, ascii "refs/" ++ spec, ascii "refs/tags/" ++ spec, ascii "refs/heads/" ++ spec,
    ascii "refs/remotes/" ++ spec, ascii "refs/remotes/" ++ spec ++ ascii "/HEAD"]

/-- The full ref a name resolves to for `rev-parse`: the first candidate that
exists. -/
def dwimRef (repo : Repo) (spec : Bytes) : Option Bytes :=
  if spec = ascii "HEAD" then repo.head.map (ascii "refs/heads/" ++ ·)
  else (dwimCandidates spec).find? fun r => (repo.ref r).isSome

/-- `git rev-parse <spec>`: the commit a name resolves to. -/
def revParse (repo : Repo) (spec : Bytes) : Option Bytes :=
  (dwimRef repo spec).bind repo.ref

/-- What `rev-parse --abbrev-ref HEAD` prints. -/
def abbrevHead (repo : Repo) : Option Bytes := some (repo.head.getD (ascii "HEAD"))

/-! ## `git push`

What `git push` asks of the remote, after `cmd_push`, `set_refspecs` and
`match_push_refs`.  The remote's own refs are not modelled: a destination is
taken to name no ref there yet, or the one of the same kind, and a ref to
delete to be there.  So pruning (`--prune`, and the pruning half of
`--mirror`), the matching refspec `:`, and the `push.default` modes other
than `simple` are left out. -/

/-- `count_refspec_match` over the local refs: the one ref a name matches
among the name itself and the name under `refs/`, `refs/tags/` and
`refs/heads/`, else the one under `refs/remotes/`; `none` when there is none,
or more than one. -/
def matchLocal (repo : Repo) (src : Bytes) : Option Bytes :=
  match ((dwimCandidates src).take 4).filter (fun r => (repo.ref r).isSome),
      ((dwimCandidates src).drop 4).filter (fun r => (repo.ref r).isSome) with
  | [full], _ => some full
  | [], [full] => some full
  | _, _ => none

/-- The local ref a refspec's source takes `git push` to: `HEAD` is the
checked-out branch. -/
def pushSource (repo : Repo) (src : Bytes) : Option Bytes :=
  if src = ascii "HEAD" then repo.head.map (ascii "refs/heads/" ++ ·) else matchLocal repo src

/-- The remote ref an unqualified destination names when the remote has none
of that name: guessed from the kind of the source ref (`guess_ref`), `none`
when the source is neither a branch nor a tag. -/
def qualifyDst (srcFull dst : Bytes) : Option Bytes :=
  if ascii "refs/" <+: dst then some dst
  else if ascii "refs/heads/" <+: srcFull then some (ascii "refs/heads/" ++ dst)
  else if ascii "refs/tags/" <+: srcFull then some (ascii "refs/tags/" ++ dst)
  else none

/-- `strrchr`: the split of `s` at its last `c`, `none` when `c` does not
occur. -/
def splitLast (c : UInt8) (s : Bytes) : Option (Bytes × Bytes) :=
  (splitOnce c s.reverse).map fun p => (p.2.reverse, p.1.reverse)

/-- `parse_refspec` of a push refspec: a leading `+` (force) dropped, then the
source and the destination, split at the last colon (`none` without one). -/
def parseRefspec (spec : Bytes) : Bytes × Option Bytes :=
  let spec := if spec.head? = some 0x2B then spec.drop 1 else spec
  match splitLast 0x3A spec with
  | some (src, dst) => (src, some dst)
  | none => (spec, none)

/-- `match_name_with_pattern`: when `name` matches the pattern `key`, what the
pattern `value` maps it to; each pattern is split at its first `*`. -/
def matchPattern (key value name : Bytes) : Option Bytes :=
  match splitOnce 0x2A key, splitOnce 0x2A value with
  | some (kpre, ksuf), some (vpre, vsuf) =>
    if kpre <+: name ∧ kpre.length + ksuf.length ≤ name.length ∧ ksuf <:+ name then
      some (vpre ++ (name.drop kpre.length).take (name.length - kpre.length - ksuf.length) ++ vsuf)
    else none
  | _, _ => none

/-- `query_refspecs` over `remote.<name>.push`: where the first value with a
destination that matches the full ref `src` maps it. -/
def queryPushMap (config : List Bytes) (src : Bytes) : Option Bytes :=
  config.findSome? fun item =>
    match parseRefspec item with
    | (_, none) => none
    | (key, some value) =>
      if 0x2A ∈ key then matchPattern key value src else if key = src then some value else none

/-- `set_refspecs`: the refspecs the arguments after the remote stand for.
`tag <name>` is the tag; with `--delete` each name is deleted; a name that
matches one local ref goes where `remote.<name>.push` maps that ref, if it
maps it.  `none` where `git push` dies. -/
def setRefspecs (repo : Repo) (config : List Bytes) (delete : Bool) :
    List Bytes → Option (List Bytes)
  | [] => some []
  | ref :: rest =>
    if ref = ascii "tag" then
      match rest with
      | [] => none
      | name :: rest =>
        (setRefspecs repo config delete rest).map
          (((if delete then [0x3A] else []) ++ ascii "refs/tags/" ++ name) :: ·)
    else if delete then
      if 0x3A ∈ ref ∨ ref = [] then none
      else (setRefspecs repo config delete rest).map ((0x3A :: ref) :: ·)
    else if 0x3A ∈ ref then (setRefspecs repo config delete rest).map (ref :: ·)
    else
      let mapped := match matchLocal repo ref with
        | some full => ((queryPushMap config full).map fun dst => full ++ 0x3A :: dst).getD ref
        | none => ref
      (setRefspecs repo config delete rest).map (mapped :: ·)

/-- What one refspec asks of the remote (`match_push_refs`): each remote ref
with the commit to set it to, `none` to delete it.  A pattern covers every
local ref it matches; an empty source deletes the destination, a branch of
the remote unless it is qualified; otherwise the source must name one local
ref, and an unqualified destination is guessed from its kind.  `none` where
`git push` fails. -/
def refspecUpdates (repo : Repo) (spec : Bytes) : Option (List (Bytes × Option Bytes)) :=
  match parseRefspec spec with
  | (src, dst) =>
    if 0x2A ∈ src then
      if 0x2A ∈ dst.getD src then
        some (repo.refs.filterMap fun r => (matchPattern src (dst.getD src) r.1).map (·, some r.2))
      else none
    else if src = [] then
      match dst with
      | some d =>
        if d = [] then none
        else some [(if ascii "refs/" <+: d then d else ascii "refs/heads/" ++ d, none)]
      | none => none
    else if dst = some [] then none
    else
      (pushSource repo src).bind fun full =>
        ((dst.map (qualifyDst full)).getD (some full)).bind fun ref =>
          (repo.ref full).map fun oid => [(ref, some oid)]

/-- The options of `git push` that change what it updates. -/
structure PushFlags where
  all : Bool
  mirror : Bool
  tags : Bool
  delete : Bool
  dryRun : Bool
  repo : Option Bytes
deriving DecidableEq, Repr

/-- No option given. -/
def PushFlags.empty : PushFlags := ⟨false, false, false, false, false, none⟩

/-- The long options of `git push` that take the next argument as value. -/
def pushValueOptions : List Bytes :=
  [ascii "--repo", ascii "--receive-pack", ascii "--exec", ascii "--push-option"]

/-- A cluster of short options `-xyz`: `d` deletes, `n` is a dry run, and
`o` takes the rest of the cluster as its value, or the next argument when it
ends the cluster (`true`); the other letters change nothing of what is
updated. -/
def shortCluster (f : PushFlags) : Bytes → PushFlags × Bool
  | [] => (f, false)
  | c :: cs =>
    if c = 0x6F then (f, cs = [])
    else if c = 0x64 then shortCluster { f with delete := true } cs
    else if c = 0x6E then shortCluster { f with dryRun := true } cs
    else shortCluster f cs

/-- `parse_options` of `git push`: the flags, and the arguments that are not
options, in order; options may follow them, and `--` ends the options.  Long
options other than those named here are taken to change nothing of what is
updated.  `none` when a value is missing. -/
def parsePushArgs : PushFlags → List Bytes → Option (PushFlags × List Bytes)
  | f, [] => some (f, [])
  | f, arg :: rest =>
    if arg = ascii "--" then some (f, rest)
    else if arg = ascii "--all" ∨ arg = ascii "--branches" then
      parsePushArgs { f with all := true } rest
    else if arg = ascii "--mirror" then parsePushArgs { f with mirror := true } rest
    else if arg = ascii "--tags" then parsePushArgs { f with tags := true } rest
    else if arg = ascii "--delete" then parsePushArgs { f with delete := true } rest
    else if arg = ascii "--dry-run" then parsePushArgs { f with dryRun := true } rest
    else if ascii "--repo=" <+: arg then parsePushArgs { f with repo := some (arg.drop 7) } rest
    else if arg ∈ pushValueOptions then
      match rest with
      | value :: rest =>
        parsePushArgs (if arg = ascii "--repo" then { f with repo := some value } else f) rest
      | [] => none
    else if ascii "--" <+: arg then parsePushArgs f rest
    else if ascii "-" <+: arg ∧ arg ≠ ascii "-" then
      match shortCluster f (arg.drop 1) with
      | (f, true) =>
        match rest with
        | _ :: rest => parsePushArgs f rest
        | [] => none
      | (f, false) => parsePushArgs f rest
    else (parsePushArgs f rest).map fun r => (r.1, arg :: r.2)

/-- The remote `git push` pushes to when none is named: the upstream's, else
`origin`. -/
def defaultRemote (repo : Repo) : Bytes :=
  let upstreamRemote := (parseUpstream (repo.upstream.getD [])).1
  if upstreamRemote = [] then ascii "origin" else upstreamRemote

/-- `setup_default_push_refspecs` under `push.default=simple`: the current
branch to the remote branch of its name, which must be its upstream when the
push goes to the branch's own remote.  `none` where `git push` dies. -/
def defaultPush (repo : Repo) (remote : Bytes) : Option (List Bytes) :=
  repo.head.bind fun b =>
    if remote = defaultRemote repo ∧ (parseUpstream (repo.upstream.getD [])).2 ≠ b then none
    else some [ascii "refs/heads/" ++ b ++ 0x3A :: ascii "refs/heads/" ++ b]

/-- `git push <args>`: what it asks of the remote, each ref with the commit
to set it to or `none` to delete it, or `none` when it fails.  The remote is
the first argument and the refspecs the rest, after those `--all`, `--mirror`
and `--tags` add; with none at all, `remote.<name>.push`, else the default
push.  A dry run asks nothing. -/
def gitPush (repo : Repo) (args : List Bytes) : Option (List (Bytes × Option Bytes)) :=
  (parsePushArgs PushFlags.empty args).bind fun (f, positionals) =>
  let remote := positionals.head?.getD (f.repo.getD (defaultRemote repo))
  let config := repo.pushConfig remote
  let refspecs := positionals.drop 1
  if (f.all ∧ f.mirror) ∨ ((f.all ∨ f.mirror) ∧ refspecs ≠ []) ∨
      (f.delete ∧ (f.tags ∨ f.all ∨ f.mirror ∨ refspecs = [])) then none else
  (setRefspecs repo config f.delete refspecs).bind fun specs =>
  let specs := (if f.all then [ascii "refs/heads/*"] else []) ++
    (if f.mirror then [ascii "refs/*:refs/*"] else []) ++
    (if f.tags then [ascii "refs/tags/*"] else []) ++ specs
  (if specs = [] then (if config = [] then defaultPush repo remote else some config)
    else some specs).bind fun specs =>
  (specs.mapM (refspecUpdates repo)).map fun us => if f.dryRun then [] else us.flatten

/-! ## `resolvePushIntent` -/

/-- `pushIntent`. -/
structure PushIntent where
  remote : Bytes
  sourceRef : Bytes
  targetRef : Bytes
  targetBranch : Bytes
  newOID : Bytes
  oldOID : Bytes
deriving DecidableEq, Repr

/-- The errors of `resolvePushIntent`. -/
inductive IntentError
  | detached
  | noRemote
  | noTarget
  | noSource (sourceRef : Bytes)
deriving DecidableEq, Repr

/-- The block of `resolvePushIntent` that picks `sourceSpec` and `targetSpec`
from the refspec positional, `""` when there is none. -/
def pushSpecs (currentBranch upstreamBranch refspec : Bytes) : Bytes × Bytes :=
  if refspec ≠ [] then
    match splitOnce 0x3A refspec with
    | some (src, dst) =>
      let src := trimSpace src
      let dst := trimSpace dst
      let src := if src = [] then currentBranch else src
      (src, if dst = [] then src else dst)
    | none => (refspec, refspec)
  else (currentBranch, if upstreamBranch ≠ [] then upstreamBranch else currentBranch)

/-- `resolvePushIntent(gitArgs)` in the repository `repo`. -/
def resolvePushIntent (repo : Repo) (gitArgs : List Bytes) : Except IntentError PushIntent :=
  let currentBranch := trimSpace (tryGitOutput (abbrevHead repo))
  if currentBranch = [] ∨ currentBranch = ascii "HEAD" then .error .detached else
  let (upstreamRemote, upstreamBranch) := parseUpstream (trimSpace (tryGitOutput repo.upstream))
  let positionals := extractPushPositionals gitArgs
  let remote := if upstreamRemote = [] then ascii "origin" else upstreamRemote
  let remote := match positionals with
    | r :: _ => trimSpace r
    | [] => remote
  if remote = [] then .error .noRemote else
  let refspec := match positionals with
    | _ :: r :: _ => trimSpace r
    | _ => []
  let (sourceSpec, targetSpec) := pushSpecs currentBranch upstreamBranch refspec
  let sourceRef := normalizeSourceRef sourceSpec currentBranch
  let (targetRef, targetBranch) := normalizeTargetRef targetSpec currentBranch
  if targetRef = [] then .error .noTarget else
  let newOID := trimSpace (tryGitOutput (revParse repo sourceRef))
  if newOID = [] then .error (.noSource sourceRef) else
  let oldOID := if targetBranch ≠ [] then
    trimSpace (tryGitOutput (revParse repo (ascii "refs/remotes/" ++ remote ++ ascii "/" ++ targetBranch)))
    else []
  .ok ⟨remote, sourceRef, targetRef, targetBranch, newOID, oldOID⟩

/-- The proposal path of `cmdPush`: the flags it consumes are dropped, the
rest is the argument vector `gitArgs`; the intent resolved from it, and the
entry `UpsertPendingPush` is asked to store for the proposal `proposalID`. -/
def cmdPushEntry (repo : Repo) (proposalID : Bytes) (args : List Bytes) :
    Except IntentError (PushIntent × PendingPush) :=
  let (_, remaining) := consumeExactFlag args (ascii "--process-pending")
  let (_, remaining) := consumeExactFlag remaining (ascii "--list-pending")
  let (_, gitArgs) := consumeExactFlag remaining (ascii "--no-auto-proposal")
  (resolvePushIntent repo gitArgs).map fun intent =>
    (intent, ⟨proposalID, intent.remote, intent.sourceRef, intent.targetRef, intent.newOID,
      gitArgs, statusPending, 0, [], [], [], [], []⟩)

/-- An argument that `extractPushPositionals` keeps and `TrimSpace` leaves as
it is. -/
def PlainArg (a : Bytes) : Prop := (∀ b ∈ a, Graphic b) ∧ a ≠ [] ∧ a.head? ≠ some 0x2D

instance : DecidablePred PlainArg := fun _ => inferInstanceAs (Decidable (_ ∧ _))

/-- A branch name that `git` and `normalizeTargetRef` both read unqualified,
and `git push` as a plain refspec: not `tag`, without `:` or `*`, and not
forced by a leading `+`. -/
def BranchName (n : Bytes) : Prop :=
  PlainArg n ∧ n ≠ ascii "HEAD" ∧ n ≠ ascii "tag" ∧ 0x3A ∉ n ∧ 0x2A ∉ n ∧ n.head? ≠ some 0x2B ∧
    ¬ ascii "refs/" <+: n ∧ ¬ ascii "heads/" <+: n

instance : DecidablePred BranchName := fun _ => inferInstanceAs (Decidable (_ ∧ _))

/-- A refspec of a push vector: a branch, or `src:dst`. -/
inductive Refspec
  | branch (name : Bytes)
  | pair (src dst : Bytes)

/-- The argument a refspec is written as. -/
def Refspec.render : Refspec → Bytes
  | .branch n => n
  | .pair src dst => src ++ 0x3A :: dst

/-- The name a refspec pushes from. -/
def Refspec.src : Refspec → Bytes
  | .branch n | .pair n _ => n

/-- The name a refspec pushes to. -/
def Refspec.dst : Refspec → Bytes
  | .branch n | .pair _ n => n

/-- Both ends are branch names. -/
def Refspec.Plain (r : Refspec) : Prop := BranchName r.src ∧ BranchName r.dst

instance : DecidablePred Refspec.Plain := fun _ => inferInstanceAs (Decidable (_ ∧ _))

theorem trimSpace_of_plainArg {a : Bytes} (h : PlainArg a) : trimSpace a = a :=
  trimSpace_of_graphic h.1

theorem ne_of_dash {a b : Bytes} (ha : a.head? ≠ some 0x2D) (hb : b.head? = some 0x2D) : a ≠ b :=
  fun e => ha (e ▸ hb)

theorem Refspec.plainArg_render {r : Refspec} (h : r.Plain) : PlainArg r.render := by
  cases r with
  | branch n => exact h.1.1
  | pair src dst =>
    obtain ⟨⟨hs, hs0, hsd⟩, -⟩ := h.1
    obtain ⟨⟨hd, -⟩, -⟩ := h.2
    refine ⟨fun b hb => ?_, by simp [render], ?_⟩
    · simp only [render, List.mem_append, List.mem_cons] at hb
      rcases hb with hb | rfl | hb
      exacts [hs b hb, by decide, hd b hb]
    · cases src with
      | nil => exact absurd rfl hs0
      | cons x _ => exact hsd

/-- The specs `resolvePushIntent` reads from a plain refspec. -/
theorem pushSpecs_plain {r : Refspec} (h : r.Plain) (cb ub : Bytes) :
    pushSpecs cb ub r.render = (r.src, r.dst) := by
  rw [pushSpecs, if_pos (r.plainArg_render h).2.1]
  cases r with
  | branch n =>
    have hc : (0x3A : UInt8) ∉ n := h.1.2.2.2.1
    simp [Refspec.render, Refspec.src, Refspec.dst, splitOnce_eq_none hc]
  | pair src dst =>
    obtain ⟨⟨⟨hs, hs0, -⟩, -, -, hsc, -⟩, ⟨⟨hd, hd0, -⟩, -⟩⟩ : BranchName src ∧ BranchName dst := h
    simp [Refspec.render, Refspec.src, Refspec.dst, splitOnce_append dst hsc, trimSpace_of_graphic hs,
      trimSpace_of_graphic hd, hs0, hd0]

theorem normalizeSourceRef_of_branchName {n : Bytes} (h : BranchName n) (cb : Bytes) :
    normalizeSourceRef n cb = n := by
  simp [normalizeSourceRef, trimSpace_of_plainArg h.1, h.1.2.1, h.2.1]

theorem normalizeTargetRef_of_branchName {n : Bytes} (h : BranchName n) (cb : Bytes) :
    normalizeTargetRef n cb = (ascii "refs/heads/" ++ n, n) := by
  obtain ⟨hp, hH, -, -, -, -, hrefs, hheads⟩ := h
  have hrh : ¬ ascii "refs/heads/" <+: n := fun hp' => hrefs ((by decide : ascii "refs/" <+: ascii "refs/heads/").trans hp')
  simp [normalizeTargetRef, trimSpace_of_plainArg hp, hp.2.1, hH, hrefs, hheads, hrh]

theorem extractPositionals_of_plain : ∀ {args : List Bytes}, (∀ a ∈ args, a.head? ≠ some 0x2D) →
    extractPositionals false args = args
  | [], _ => rfl
  | a :: args, h => by
    rw [extractPositionals_plain _ (h a (List.mem_cons_self _ _)),
      extractPositionals_of_plain fun b hb => h b (List.mem_cons_of_mem _ hb)]

/-- The intent `resolvePushIntent` resolves from a vector `remote refspec …`
of plain arguments: the refspec is the second. -/
theorem resolvePushIntent_plain {repo : Repo} {remote : Bytes} {r : Refspec} {rest : List Bytes}
    {P : PushIntent} (hremote : PlainArg remote) (hr : r.Plain)
    (hrest : ∀ a ∈ rest, a.head? ≠ some 0x2D)
    (h : resolvePushIntent repo (remote :: r.render :: rest) = .ok P) :
    P.sourceRef = r.src ∧ P.targetRef = ascii "refs/heads/" ++ r.dst ∧
      P.newOID = tryGitOutput (revParse repo r.src) := by
  have hpos : extractPushPositionals (remote :: r.render :: rest) = remote :: r.render :: rest :=
    extractPositionals_of_plain <| by
      simpa [hremote.2.2, (r.plainArg_render hr).2.2] using hrest
  unfold resolvePushIntent at h
  rw [hpos] at h
  dsimp only at h
  simp only [trimSpace_of_plainArg hremote, trimSpace_of_plainArg (r.plainArg_render hr),
    pushSpecs_plain hr, normalizeSourceRef_of_branchName hr.1,
    normalizeTargetRef_of_branchName hr.2, if_neg hremote.2.1] at h
  split_ifs at h <;> cases h <;> exact ⟨rfl, rfl, trimSpace_trimSpace _⟩

/-- The entry `cmdPush` proposes for a vector without dashes keeps the vector,
and the intent is `resolvePushIntent`'s. -/
theorem cmdPushEntry_plain {repo : Repo} {proposalID : Bytes} {args : List Bytes} {P : PushIntent}
    {entry : PendingPush} (hargs : ∀ a ∈ args, a.head? ≠ some 0x2D)
    (h : cmdPushEntry repo proposalID args = .ok (P, entry)) :
    resolvePushIntent repo args = .ok P ∧ entry.gitArgs = args := by
  have flag : ∀ t : Bytes, (consumeExactFlag args (0x2D :: t)).2 = args :=
    fun _ => consumeExactFlag_plain hargs rfl
  simp only [cmdPushEntry, show ascii "--process-pending" = 0x2D :: _ from rfl,
    show ascii "--list-pending" = 0x2D :: _ from rfl,
    show ascii "--no-auto-proposal" = 0x2D :: _ from rfl, flag] at h
  cases hres : resolvePushIntent repo args with
  | error e => simp [hres, Except.map] at h
  | ok P' =>
    simp only [hres, Except.map, Except.ok.injEq, Prod.mk.injEq] at h
    obtain ⟨rfl, rfl⟩ := h
    exact ⟨rfl, rfl⟩

/-- Where `rev-parse` finds a name's own branch or nothing, `git push` matches
the name to the same ref. -/
theorem matchLocal_eq_dwimRef {repo : Repo} {n : Bytes} (hH : n ≠ ascii "HEAD")
    (h : ∀ full ∈ dwimRef repo n, full = ascii "refs/heads/" ++ n) :
    matchLocal repo n = dwimRef repo n := by
  simp only [dwimRef, matchLocal, if_neg hH, dwimCandidates] at h ⊢
  have len : ∀ {p q : Bytes}, p ++ n = q ++ n → p.length = q.length := fun e => by
    simpa using congrArg List.length e
  have heads : (ascii "refs/heads/").length = 11 := rfl
  by_cases e0 : (repo.ref n).isSome
  · exact absurd (len (p := []) (h n (by simp [e0]))) (by decide)
  by_cases e1 : (repo.ref (ascii "refs/" ++ n)).isSome
  · exact absurd (len (h (ascii "refs/" ++ n) (by simp [e0, e1]))) (by decide)
  by_cases e2 : (repo.ref (ascii "refs/tags/" ++ n)).isSome
  · exact absurd (List.append_cancel_right (h (ascii "refs/tags/" ++ n) (by simp [e0, e1, e2])))
      (by decide)
  by_cases e3 : (repo.ref (ascii "refs/heads/" ++ n)).isSome
  · simp [e0, e1, e2, e3]
  by_cases e4 : (repo.ref (ascii "refs/remotes/" ++ n)).isSome
  · exact absurd (len (h (ascii "refs/remotes/" ++ n) (by simp [e0, e1, e2, e3, e4]))) (by decide)
  by_cases e5 : (repo.ref (ascii "refs/remotes/" ++ (n ++ ascii "/HEAD"))).isSome
  · have := congrArg List.length
      (h (ascii "refs/remotes/" ++ (n ++ ascii "/HEAD")) (by simp [e0, e1, e2, e3, e4, e5]))
    simp only [List.length_append, heads] at this
    exact absurd this (by simp only [show (ascii "refs/remotes/").length = 13 from rfl]; omega)
  simp [e0, e1, e2, e3, e4, e5]

theorem splitLast_eq_none {c : UInt8} {s : Bytes} (h : c ∉ s) : splitLast c s = none := by
  simp [splitLast, splitOnce_eq_none (show c ∉ s.reverse by simpa using h)]

theorem splitLast_append {c : UInt8} (a : Bytes) {b : Bytes} (h : c ∉ b) :
    splitLast c (a ++ c :: b) = some (a, b) := by
  simp [splitLast, splitOnce_append _ (show c ∉ b.reverse by simpa using h)]

/-- A vector of arguments that do not start with a dash parses to no flags. -/
theorem parsePushArgs_plain (f : PushFlags) : ∀ {args : List Bytes},
    (∀ a ∈ args, a.head? ≠ some 0x2D) → parsePushArgs f args = some (f, args)
  | [], _ => rfl
  | a :: args, h => by
    have ha := h a (List.mem_cons_self _ _)
    have e₁ : a ≠ ascii "--" := ne_of_dash ha rfl
    have e₂ : ¬ (a = ascii "--all" ∨ a = ascii "--branches") :=
      not_or.mpr ⟨ne_of_dash ha rfl, ne_of_dash ha rfl⟩
    have e₃ : a ≠ ascii "--mirror" := ne_of_dash ha rfl
    have e₄ : a ≠ ascii "--tags" := ne_of_dash ha rfl
    have e₅ : a ≠ ascii "--delete" := ne_of_dash ha rfl
    have e₆ : a ≠ ascii "--dry-run" := ne_of_dash ha rfl
    have p₁ : ¬ ascii "--repo=" <+: a := not_dash_prefix ha
    have p₂ : ¬ ascii "--" <+: a := not_dash_prefix ha
    have p₃ : ¬ (ascii "-" <+: a ∧ a ≠ ascii "-") := fun h' => not_dash_prefix ha h'.1
    have hv : a ∉ pushValueOptions := fun hm => by
      simp only [pushValueOptions, List.mem_cons, List.mem_nil_iff, or_false] at hm
      rcases hm with rfl | rfl | rfl | rfl <;> exact ha rfl
    rw [parsePushArgs.eq_def]
    dsimp only
    rw [if_neg e₁, if_neg e₂, if_neg e₃, if_neg e₄, if_neg e₅, if_neg e₆, if_neg p₁, if_neg hv,
      if_neg p₂, if_neg p₃, parsePushArgs_plain f fun b hb => h b (List.mem_cons_of_mem _ hb)]
    rfl

theorem Refspec.render_ne_tag {r : Refspec} (h : r.Plain) : r.render ≠ ascii "tag" := by
  cases r with
  | branch n => exact h.1.2.2.1
  | pair src dst =>
    intro e
    have : (0x3A : UInt8) ∈ ascii "tag" := e ▸ by simp [render]
    exact absurd this (by decide)

/-- Without `remote.<name>.push`, `set_refspecs` keeps plain refspecs as they
are. -/
theorem setRefspecs_plain (repo : Repo) : ∀ {rs : List Refspec}, (∀ r ∈ rs, r.Plain) →
    setRefspecs repo [] false (rs.map Refspec.render) = some (rs.map Refspec.render)
  | [], _ => rfl
  | r :: rs, h => by
    rw [List.map_cons, setRefspecs.eq_def]
    dsimp only
    rw [if_neg (r.render_ne_tag (h r (List.mem_cons_self _ _))),
      setRefspecs_plain repo fun r' h' => h r' (List.mem_cons_of_mem _ h')]
    simp only [Bool.false_eq_true, if_false]
    split_ifs
    · rfl
    · split <;> rfl

/-- What a refspec asks of the remote once parsed into a branch name and, if
any, a destination branch name: the destination's branch (the source's own
without one), set to the commit the source names, where the source names its
own branch or nothing. -/
theorem refspecUpdates_of_parse {repo : Repo} {spec src : Bytes} {dst : Option Bytes}
    (hp : parseRefspec spec = (src, dst)) (hsrc : BranchName src) (hdst : ∀ d ∈ dst, BranchName d)
    (h : ∀ full ∈ dwimRef repo src, full = ascii "refs/heads/" ++ src) :
    refspecUpdates repo spec =
      (revParse repo src).map fun oid => [(ascii "refs/heads/" ++ dst.getD src, some oid)] := by
  obtain ⟨⟨-, hs0, -⟩, hH, -, -, hss, -⟩ := hsrc
  have hd0 : dst ≠ some [] := fun e => (hdst [] (e ▸ rfl)).1.2.1 rfl
  rw [refspecUpdates, hp]
  dsimp only
  rw [if_neg hss, if_neg hs0, if_neg hd0, pushSource, if_neg hH, matchLocal_eq_dwimRef hH h,
    revParse]
  cases hd : dwimRef repo src with
  | none => rfl
  | some full =>
    obtain rfl := h full hd
    cases dst with
    | none => cases repo.ref (ascii "refs/heads/" ++ src) <;> rfl
    | some d =>
      have hq : qualifyDst (ascii "refs/heads/" ++ src) d = some (ascii "refs/heads/" ++ d) := by
        simp [qualifyDst, (hdst d rfl).2.2.2.2.2.2.1]
      simp only [Option.some_bind, Option.map_some', Option.getD_some, hq]

/-- What a plain refspec asks of the remote: the destination's branch, set to
the commit the source names, where the source names its own branch or
nothing. -/
theorem refspecUpdates_plain {repo : Repo} {r : Refspec} (hr : r.Plain)
    (h : ∀ full ∈ dwimRef repo r.src, full = ascii "refs/heads/" ++ r.src) :
    refspecUpdates repo r.render =
      (revParse repo r.src).map fun oid => [(ascii "refs/heads/" ++ r.dst, some oid)] := by
  cases r with
  | branch n =>
    obtain ⟨hn, -⟩ : BranchName n ∧ BranchName n := hr
    exact @refspecUpdates_of_parse repo n n none (by
      simp only [parseRefspec, if_neg hn.2.2.2.2.2.1, splitLast_eq_none hn.2.2.2.1]) hn nofun h
  | pair src dst =>
    obtain ⟨hs, hd⟩ : BranchName src ∧ BranchName dst := hr
    have hp : (src ++ 0x3A :: dst).head? ≠ some 0x2B := by
      cases src with
      | nil => exact absurd rfl hs.1.2.1
      | cons x _ => exact hs.2.2.2.2.2.1
    exact @refspecUpdates_of_parse repo (src ++ 0x3A :: dst) src (some dst) (by
      simp only [parseRefspec, if_neg hp, splitLast_append src hd.2.2.2.1])
      hs (fun d e => Option.some.inj e ▸ hd) h

/-- `git push remote refspec…` with plain refspecs and no
`remote.<remote>.push`, each source naming its own branch or nothing: each
destination's branch is set to the commit its source names. -/
theorem gitPush_plain {repo : Repo} {remote : Bytes} {rs : List Refspec} (hremote : PlainArg remote)
    (hrs : ∀ r ∈ rs, r.Plain) (hne : rs ≠ []) (hmap : repo.pushConfig remote = [])
    (h : ∀ r ∈ rs, ∀ full ∈ dwimRef repo r.src, full = ascii "refs/heads/" ++ r.src) :
    gitPush repo (remote :: rs.map Refspec.render) =
      (rs.mapM fun r => (revParse repo r.src).map fun oid =>
        [(ascii "refs/heads/" ++ r.dst, some oid)]).map List.flatten := by
  have hargs : ∀ a ∈ remote :: rs.map Refspec.render, a.head? ≠ some 0x2D := by
    simp only [List.mem_cons, List.mem_map]
    rintro a (rfl | ⟨r, hr, rfl⟩)
    exacts [hremote.2.2, (r.plainArg_render (hrs r hr)).2.2]
  have hupd : ∀ rs' : List Refspec, (∀ r ∈ rs', r ∈ rs) →
      (rs'.map Refspec.render).mapM (refspecUpdates repo) =
        rs'.mapM fun r => (revParse repo r.src).map fun oid =>
          [(ascii "refs/heads/" ++ r.dst, some oid)] := fun rs' hsub => by
    induction rs' with
    | nil => rfl
    | cons r rs' ih =>
      have hr := hsub r (List.mem_cons_self _ _)
      simp only [List.map_cons, List.mapM_cons, refspecUpdates_plain (hrs r hr) (h r hr),
        ih fun r' h' => hsub r' (List.mem_cons_of_mem _ h')]
  have hspecs : rs.map Refspec.render ≠ [] := by simpa using hne
  simp only [gitPush, parsePushArgs_plain _ hargs, Option.some_bind, List.head?_cons,
    Option.getD_some, List.drop_one, List.tail_cons, hmap, PushFlags.empty, Bool.false_eq_true,
    false_and, and_false, or_self, if_false, setRefspecs_plain repo hrs, List.nil_append,
    if_neg hspecs, hupd rs fun _ h => h]

/-- With one plain refspec and no `remote.<remote>.push`, the push updates the
proposal's `TargetRef` and nothing else, to the commit the source names when
the push runs: `NewOID` only if the source has not moved. -/
theorem push_pins_target {repo₀ repo₁ : Repo} {proposalID remote : Bytes} {r : Refspec}
    {P : PushIntent} {entry : PendingPush} (hremote : PlainArg remote) (hr : r.Plain)
    (hprop : cmdPushEntry repo₀ proposalID [remote, r.render] = .ok (P, entry))
    (hmap : repo₁.pushConfig remote = [])
    (hbranch : ∀ full ∈ dwimRef repo₁ r.src, full = ascii "refs/heads/" ++ r.src) :
    P.targetRef = ascii "refs/heads/" ++ r.dst ∧ P.sourceRef = r.src ∧
      P.newOID = tryGitOutput (revParse repo₀ r.src) ∧
      gitPush repo₁ entry.gitArgs = (revParse repo₁ r.src).map fun oid => [(P.targetRef, some oid)] := by
  obtain ⟨hres, hargs⟩ := cmdPushEntry_plain (by simp [hremote.2.2, (r.plainArg_render hr).2.2]) hprop
  obtain ⟨hsrc, htgt, hnew⟩ := resolvePushIntent_plain hremote hr (by simp) hres
  refine ⟨htgt, hsrc, hnew, ?_⟩
  rw [hargs, show [remote, r.render] = remote :: [r].map Refspec.render from rfl,
    gitPush_plain hremote (by simpa using hr) (List.cons_ne_nil _ _) hmap (by simpa using hbranch),
    htgt]
  simp only [List.mapM_cons, List.mapM_nil]
  cases revParse repo₁ r.src <;> rfl

/-- A certified push updates every branch its vector names, not only the
proposal's.  `vcs push remote a b` proposes to set `refs/heads/a` to the
commit `a` names; the `git push` that `processPendingPushes` runs for the
entry, in any later repository without `remote.<remote>.push` where `a` and
`b` name their own branches or nothing, also sets `refs/heads/b`, and sets
each branch to the commit it has then. -/
theorem push_updates_unproposed_ref {repo₀ repo₁ : Repo} {proposalID remote a b : Bytes}
    {P : PushIntent} {entry : PendingPush} (hremote : PlainArg remote) (ha : BranchName a)
    (hb : BranchName b) (hprop : cmdPushEntry repo₀ proposalID [remote, a, b] = .ok (P, entry))
    (hmap : repo₁.pushConfig remote = [])
    (hba : ∀ full ∈ dwimRef repo₁ a, full = ascii "refs/heads/" ++ a)
    (hbb : ∀ full ∈ dwimRef repo₁ b, full = ascii "refs/heads/" ++ b) :
    P.targetRef = ascii "refs/heads/" ++ a ∧ P.newOID = tryGitOutput (revParse repo₀ a) ∧
      gitPush repo₁ entry.gitArgs = (revParse repo₁ a).bind fun oa => (revParse repo₁ b).map
        fun ob => [(P.targetRef, some oa), (ascii "refs/heads/" ++ b, some ob)] := by
  obtain ⟨hres, hargs⟩ := cmdPushEntry_plain (by simp [hremote.2.2, ha.1.2.2, hb.1.2.2]) hprop
  obtain ⟨-, htgt, hnew⟩ := resolvePushIntent_plain (r := .branch a) hremote ⟨ha, ha⟩
    (by simpa using hb.1.2.2) hres
  refine ⟨htgt, hnew, ?_⟩
  rw [hargs, show [remote, a, b] = remote :: [Refspec.branch a, .branch b].map Refspec.render from rfl,
    gitPush_plain hremote (by simp [Refspec.Plain, Refspec.src, Refspec.dst, ha, hb])
      (List.cons_ne_nil _ _) hmap (by simpa [Refspec.src] using ⟨hba, hbb⟩), htgt]
  simp only [List.mapM_cons, List.mapM_nil, Refspec.src, Refspec.dst]
  cases revParse repo₁ a <;> cases revParse repo₁ b <;> rfl

/-- The theorem where `feature` is pushed with `main`, and `main` moved from
`a1` to `b2` after the proposal. -/
theorem push_updates_unproposed_ref_feature :
    let repo (oid : Bytes) : Repo := ⟨some (ascii "main"), some (ascii "origin/main"),
      [(ascii "refs/heads/feature", ascii "f1"), (ascii "refs/heads/main", oid)], fun _ => []⟩
    (PlainArg (ascii "origin") ∧ BranchName (ascii "main") ∧ BranchName (ascii "feature") ∧
      cmdPushEntry (repo (ascii "a1")) (ascii "p1") [ascii "origin", ascii "main", ascii "feature"] =
        .ok (⟨ascii "origin", ascii "main", ascii "refs/heads/main", ascii "main", ascii "a1", []⟩, ⟨ascii "p1", ascii "origin", ascii "main", ascii "refs/heads/main",
          ascii "a1", [ascii "origin", ascii "main", ascii "feature"], statusPending, 0, [], [], [],
          [], []⟩) ∧
      (repo (ascii "b2")).pushConfig (ascii "origin") = [] ∧
      (∀ full ∈ dwimRef (repo (ascii "b2")) (ascii "main"), full = ascii "refs/heads/main") ∧
      ∀ full ∈ dwimRef (repo (ascii "b2")) (ascii "feature"), full = ascii "refs/heads/feature") ∧
    ascii "refs/heads/main" = ascii "refs/heads/" ++ ascii "main" ∧
      ascii "a1" = tryGitOutput (revParse (repo (ascii "a1")) (ascii "main")) ∧
      gitPush (repo (ascii "b2")) [ascii "origin", ascii "main", ascii "feature"] =
        (revParse (repo (ascii "b2")) (ascii "main")).bind fun oa =>
          (revParse (repo (ascii "b2")) (ascii "feature")).map fun ob =>
            [(ascii "refs/heads/main", some oa), (ascii "refs/heads/" ++ ascii "feature", some ob)] :=
  (fun h => ⟨h, push_updates_unproposed_ref h.1 h.2.1 h.2.2.1 h.2.2.2.1 h.2.2.2.2.1 h.2.2.2.2.2.1
    h.2.2.2.2.2.2⟩) ⟨by decide, by decide, by decide, rfl, rfl, by decide, by decide⟩

/-- A refspec `:dst` deletes: `resolvePushIntent` reads it as the current
branch pushed to `dst`. -/
theorem pushSpecs_delete {dst : Bytes} (h : PlainArg dst) (cb ub : Bytes) :
    pushSpecs cb ub (0x3A :: dst) = (cb, dst) := by
  simp [pushSpecs, splitOnce, trimSpace_of_plainArg h, h.2.1, show trimSpace ([] : Bytes) = [] from rfl]

theorem plainArg_delete {dst : Bytes} (h : PlainArg dst) : PlainArg (0x3A :: dst) :=
  ⟨by simpa [show Graphic 0x3A by decide] using h.1, List.cons_ne_nil _ _,
    show some (0x3A : UInt8) ≠ some 0x2D by decide⟩

/-- The intent of `remote :dst`: `dst`'s branch, set to a commit. -/
theorem resolvePushIntent_delete {repo : Repo} {remote dst : Bytes} {P : PushIntent}
    (hremote : PlainArg remote) (hdst : BranchName dst)
    (h : resolvePushIntent repo [remote, 0x3A :: dst] = .ok P) :
    P.targetRef = ascii "refs/heads/" ++ dst ∧ P.newOID ≠ [] := by
  have hpos : extractPushPositionals [remote, 0x3A :: dst] = [remote, 0x3A :: dst] :=
    extractPositionals_of_plain (by simp [hremote.2.2, (plainArg_delete hdst.1).2.2])
  unfold resolvePushIntent at h
  rw [hpos] at h
  dsimp only at h
  simp only [trimSpace_of_plainArg hremote, trimSpace_of_plainArg (plainArg_delete hdst.1),
    pushSpecs_delete hdst.1, normalizeTargetRef_of_branchName hdst, if_neg hremote.2.1,
    if_neg (List.append_ne_nil_of_left_ne_nil (show ascii "refs/heads/" ≠ [] by decide) dst)] at h
  -- `dsimp` first: the projection, not `trimSpace`, is what to unfold
  split_ifs at h with h₁ h₂ <;> cases h <;> refine ⟨rfl, ?_⟩ <;> dsimp only <;> exact h₂

/-- `git push remote :dst` deletes `dst`'s branch on the remote, whatever the
repository. -/
theorem gitPush_delete (repo : Repo) {remote dst : Bytes} (hremote : PlainArg remote)
    (hdst : BranchName dst) : gitPush repo [remote, 0x3A :: dst] = some [(ascii "refs/heads/" ++ dst, none)] := by
  have hpa := plainArg_delete hdst.1
  obtain ⟨⟨-, hd0, -⟩, -, -, hc, -, -, hrefs, -⟩ := hdst
  have htag : (0x3A :: dst) ≠ ascii "tag" := fun e =>
    absurd (congrArg List.head? e) (show some (0x3A : UInt8) ≠ (ascii "tag").head? by decide)
  have hargs : ∀ a ∈ [remote, 0x3A :: dst], a.head? ≠ some 0x2D := by
    simp [hremote.2.2, hpa.2.2]
  have hset : setRefspecs repo (repo.pushConfig remote) false [0x3A :: dst] = some [0x3A :: dst] := by
    rw [setRefspecs.eq_def]
    dsimp only
    rw [if_neg htag, if_neg Bool.false_ne_true, if_pos (List.mem_cons_self _ _)]
    rfl
  have hupd : refspecUpdates repo (0x3A :: dst) = some [(ascii "refs/heads/" ++ dst, none)] := by
    have hp : parseRefspec (0x3A :: dst) = ([], some dst) := by
      have hplus : ¬ (0x3A :: dst).head? = some 0x2B := fun e =>
        absurd (Option.some.inj e) (show (0x3A : UInt8) ≠ 0x2B by decide)
      rw [parseRefspec, if_neg hplus, show splitLast 0x3A (0x3A :: dst) = some ([], dst) from splitLast_append [] hc]
    simp [refspecUpdates, hp, hd0, hrefs]
  simp only [gitPush, parsePushArgs_plain _ hargs, Option.some_bind, List.head?_cons,
    Option.getD_some, List.drop_one, List.tail_cons, PushFlags.empty, Bool.false_eq_true,
    false_and, and_false, or_self, if_false, hset, List.nil_append, List.cons_ne_nil,
    List.mapM_cons, List.mapM_nil, hupd]
  rfl

/-- A certified `vcs push remote :dst` deletes the branch it proposed to set:
the proposal sets `refs/heads/dst` to a commit, that of the current branch,
and the `git push` run for the entry, in any later repository, deletes it. -/
theorem push_deletes_target {repo₀ repo₁ : Repo} {proposalID remote dst : Bytes}
    {P : PushIntent} {entry : PendingPush} (hremote : PlainArg remote) (hdst : BranchName dst)
    (hprop : cmdPushEntry repo₀ proposalID [remote, 0x3A :: dst] = .ok (P, entry)) :
    P.targetRef = ascii "refs/heads/" ++ dst ∧ P.newOID ≠ [] ∧
      gitPush repo₁ entry.gitArgs = some [(P.targetRef, none)] := by
  obtain ⟨hres, hargs⟩ := cmdPushEntry_plain
    (by simp [hremote.2.2, (plainArg_delete hdst.1).2.2]) hprop
  obtain ⟨htgt, hnew⟩ := resolvePushIntent_delete hremote hdst hres
  rw [hargs, gitPush_delete repo₁ hremote hdst, htgt]
  exact ⟨rfl, hnew, rfl⟩

end Dqrvcs

/-
# `Dqrvcs.Commands` — the commands of `vcs` that wrap `git`

`cmdInit`, `cmdStatus`, `cmdLog`, `cmdBranch`, `cmdCheckout`, `cmdStage`,
`cmdUnstage`, `cmdCommit`, `cmdAmend`, `cmdRevert`, `cmdPull` and `cmdSquash`
of `part_003`.  `git` is another program: a command meets it through
`runGitFn`, whose answer is an error text or success, and `runGitOutputFn`,
which reads without writing (`GitEnv`).  What a command does to the
repository is the list of argument vectors it hands to `runGitFn`, in order;
that list and the error it returns are its outcome (`GitRun`).  What it
prints, and the `recordGitEvent` calls of `cmdCommit` and `cmdPull`, whose
failures are ignored, are left out.

`cmdSquash` rewrites history.  It hands `git reset --soft` to `git` only when
its flags parse with no argument left over, the message is not empty,
exactly one of `--last` and `--from` is given, the working tree is clean or
`--allow-dirty` is set, `--last` is at least two, and the base verifies as a
commit; it commits only after the reset succeeded, and a failed commit leaves
the branch reset (`cmdSquash_rewrites_only_when_checked`).
-/
import Dqrvcs.Flags

namespace Dqrvcs

/-- What a command meets outside: `runGitFn` (an error text, `none` on
success) and `runGitOutputFn` (the output, or an error text). -/
structure GitEnv where
  run : List Bytes → Option Bytes
  output : List Bytes → Except Bytes Bytes

/-- What a command returns, and the argument vectors it handed to `runGitFn`,
in order. -/
structure GitRun where
  error : Option Bytes
  ran : List (List Bytes)
deriving DecidableEq, Repr

/-- `runGitFn(args...)`. -/
def runGit (env : GitEnv) (args : List Bytes) : GitRun := ⟨env.run args, [args]⟩

/-- `fmt.Sprintf("%v", args)` of a `[]string`. -/
def formatList (args : List Bytes) : Bytes :=
  ascii "[" ++ (args.intersperse (ascii " ")).flatten ++ ascii "]"

/-! ## Pass-through commands -/

/-- The commands that run `git verb args...` as given. -/
def passThrough (verb : Bytes) (env : GitEnv) (args : List Bytes) : GitRun :=
  runGit env (verb :: args)

/-- `cmdInit`. -/
def cmdInit : GitEnv → List Bytes → GitRun := passThrough (ascii "init")
/-- `cmdStatus`. -/
def cmdStatus : GitEnv → List Bytes → GitRun := passThrough (ascii "status")
/-- `cmdLog`. -/
def cmdLog : GitEnv → List Bytes → GitRun := passThrough (ascii "log")
/-- `cmdBranch`. -/
def cmdBranch : GitEnv → List Bytes → GitRun := passThrough (ascii "branch")
/-- `cmdPull`, less its `recordGitEvent`. -/
def cmdPull : GitEnv → List Bytes → GitRun := passThrough (ascii "pull")

/-- `cmdCheckout`: a target is required. -/
def cmdCheckout (env : GitEnv) (args : List Bytes) : GitRun :=
  if args = [] then ⟨some (ascii "usage: vcs checkout <target> [additional git checkout args]"), []⟩
  else runGit env (ascii "checkout" :: args)

/-- The paths of `cmdStage` and `cmdUnstage`: `.` when none is given. -/
def defaultPaths (args : List Bytes) : List Bytes := if args = [] then [ascii "."] else args

/-- `cmdStage`. -/
def cmdStage (env : GitEnv) (args : List Bytes) : GitRun :=
  runGit env (ascii "add" :: ascii "--" :: defaultPaths args)

/-- `cmdUnstage`: `git restore --staged`, and `git reset HEAD` when that
fails. -/
def cmdUnstage (env : GitEnv) (args : List Bytes) : GitRun :=
  let restoreArgs := [ascii "restore", ascii "--staged", ascii "--"] ++ defaultPaths args
  let resetArgs := [ascii "reset", ascii "HEAD", ascii "--"] ++ defaultPaths args
  match env.run restoreArgs with
  | none => ⟨none, [restoreArgs]⟩
  | some _ =>
    match env.run resetArgs with
    | none => ⟨none, [restoreArgs, resetArgs]⟩
    | some _ =>
      ⟨some (ascii "could not unstage paths (both `git restore --staged` and `git reset HEAD` failed)"),
        [restoreArgs, resetArgs]⟩

/-! ## Commands with flags -/

/-- The flags of `cmdCommit`. -/
def commitFlags : List Flag :=
  [⟨ascii "m", .string []⟩, ⟨ascii "a", .bool false⟩, ⟨ascii "allow-empty", .bool false⟩]

/-- `cmdCommit`, less its `recordGitEvent`. -/
def cmdCommit (env : GitEnv) (args : List Bytes) : GitRun :=
  match parseFlags commitFlags args [] with
  | .error e => ⟨some e.message, []⟩
  | .ok (set, rest) =>
    if rest ≠ [] then ⟨some (ascii "unexpected arguments: " ++ formatList rest), []⟩ else
    let message := stringFlag commitFlags set (ascii "m")
    runGit env ([ascii "commit"] ++
      (if boolFlag commitFlags set (ascii "a") then [ascii "--all"] else []) ++
      (if boolFlag commitFlags set (ascii "allow-empty") then [ascii "--allow-empty"] else []) ++
      (if message ≠ [] then [ascii "-m", message] else []))

/-- The flags of `cmdAmend`. -/
def amendFlags : List Flag :=
  [⟨ascii "m", .string []⟩, ⟨ascii "no-edit", .bool true⟩, ⟨ascii "all", .bool false⟩,
    ⟨ascii "allow-empty", .bool false⟩]

/-- `cmdAmend`: `--no-edit` unless a message is given. -/
def cmdAmend (env : GitEnv) (args : List Bytes) : GitRun :=
  match parseFlags amendFlags args [] with
  | .error e => ⟨some e.message, []⟩
  | .ok (set, rest) =>
    if rest ≠ [] then ⟨some (ascii "unexpected arguments: " ++ formatList rest), []⟩ else
    let message := stringFlag amendFlags set (ascii "m")
    runGit env ([ascii "commit", ascii "--amend"] ++
      (if boolFlag amendFlags set (ascii "all") then [ascii "--all"] else []) ++
      (if boolFlag amendFlags set (ascii "allow-empty") then [ascii "--allow-empty"] else []) ++
      (if message ≠ [] then [ascii "-m", message]
        else if boolFlag amendFlags set (ascii "no-edit") then [ascii "--no-edit"] else []))

/-- The flags of `cmdRevert`. -/
def revertFlags : List Flag := [⟨ascii "no-commit", .bool false⟩]

/-- `cmdRevert`: exactly one commit. -/
def cmdRevert (env : GitEnv) (args : List Bytes) : GitRun :=
  match parseFlags revertFlags args [] with
  | .error e => ⟨some e.message, []⟩
  | .ok (set, [ref]) =>
    runGit env ([ascii "revert"] ++
      (if boolFlag revertFlags set (ascii "no-commit") then [ascii "--no-commit"] else []) ++ [ref])
  | .ok _ => ⟨some (ascii "usage: vcs revert [--no-commit] <commit>"), []⟩

/-! ## `cmdSquash` -/

/-- A line of `git status --porcelain` that `workingTreeClean` passes over:
`.vcs`, or a path under it, untracked. -/
def ignoredStatusLine (line : Bytes) : Bool :=
  decide (ascii "?? " <+: line) &&
    (trimSpace (line.drop 3) = ascii ".vcs" || decide (ascii ".vcs/" <+: trimSpace (line.drop 3)))

/-- `workingTreeClean`: every line of `git status --porcelain`, trimmed, is
blank or ignored. -/
def workingTreeClean (env : GitEnv) : Except Bytes Bool :=
  match env.output [ascii "status", ascii "--porcelain"] with
  | .error e => .error e
  | .ok out =>
    .ok (((trimSpace out).splitOn 0x0A).all fun line =>
      trimSpace line = [] || ignoredStatusLine (trimSpace line))

/-- `verifyCommit(ref)`: `git rev-parse --verify ref^{commit}`. -/
def verifyCommit (env : GitEnv) (ref : Bytes) : Except Bytes Unit :=
  match env.output [ascii "rev-parse", ascii "--verify", ref ++ ascii "^\x7bcommit\x7d"] with
  | .error _ => .error (ascii "invalid commit reference " ++ quote ref)
  | .ok _ => .ok ()

/-- The flags of `cmdSquash`. -/
def squashFlags : List Flag :=
  [⟨ascii "last", .int 0⟩, ⟨ascii "from", .string []⟩, ⟨ascii "m", .string []⟩,
    ⟨ascii "allow-dirty", .bool false⟩]

/-- The base `cmdSquash` resets to: `HEAD~N`, or the `--from` commit as
given. -/
def squashBase (last : Int) (usingLast : Bool) (fromRef : Bytes) : Bytes :=
  if usingLast then ascii "HEAD~" ++ formatInt last else fromRef

/-- The end of `cmdSquash`: `git reset --soft base`, then, if it succeeded,
`git commit -m message`. -/
def softResetAndCommit (env : GitEnv) (base message : Bytes) : GitRun :=
  let reset := [ascii "reset", ascii "--soft", base]
  let commit := [ascii "commit", ascii "-m", message]
  match env.run reset with
  | some e => ⟨some (ascii "soft reset failed: " ++ e), [reset]⟩
  | none =>
    match env.run commit with
    | some e => ⟨some (ascii "squash commit failed: " ++ e), [reset, commit]⟩
    | none => ⟨none, [reset, commit]⟩

/-- `cmdSquash`, once its flags are read: check, verify the base, soft-reset
to it, commit. -/
def squashWith (env : GitEnv) (last : Int) (fromRef message : Bytes) (allowDirty : Bool) :
    GitRun :=
  if message = [] then ⟨some (ascii "squash requires -m <message>"), []⟩ else
  let usingLast := decide (0 < last)
  let usingFrom := decide (trimSpace fromRef ≠ [])
  if usingLast = usingFrom then
    ⟨some (ascii "use exactly one of --last N or --from <commit>"), []⟩ else
  let clean : Except Bytes Bool := if allowDirty then .ok true else workingTreeClean env
  match clean with
  | .error e => ⟨some e, []⟩
  | .ok false =>
    ⟨some (ascii "working tree is not clean; commit/stash changes or use --allow-dirty"), []⟩
  | .ok true =>
    if usingLast ∧ last < 2 then ⟨some (ascii "--last must be >= 2"), []⟩ else
    let base := squashBase last usingLast fromRef
    match verifyCommit env base with
    | .error e => ⟨some e, []⟩
    | .ok () => softResetAndCommit env base message

/-- `cmdSquash(args)`. -/
def cmdSquash (env : GitEnv) (args : List Bytes) : GitRun :=
  match parseFlags squashFlags args [] with
  | .error e => ⟨some e.message, []⟩
  | .ok (set, rest) =>
    if rest ≠ [] then ⟨some (ascii "unexpected arguments: " ++ formatList rest), []⟩ else
    squashWith env (intFlag squashFlags set (ascii "last")) (stringFlag squashFlags set (ascii "from"))
      (stringFlag squashFlags set (ascii "m")) (boolFlag squashFlags set (ascii "allow-dirty"))

/-! ## What `cmdSquash` can do -/

/-- The checks `cmdSquash` passes before it writes: a message, exactly one of
`--last` and `--from`, a clean tree unless `--allow-dirty`, at least two
commits with `--last`, and a base that verifies as a commit. -/
structure SquashChecks (env : GitEnv) (last : Int) (fromRef message : Bytes) (allowDirty : Bool) :
    Prop where
  message_ne : message ≠ []
  exactly_one : 0 < last ↔ trimSpace fromRef = []
  clean : allowDirty = true ∨ workingTreeClean env = .ok true
  last_ge : 0 < last → 2 ≤ last
  verified : verifyCommit env (squashBase last (decide (0 < last)) fromRef) = .ok ()

/-- A command that hands nothing to `git` and says why. -/
def GitRun.Refused (r : GitRun) : Prop := r.ran = [] ∧ r.error.isSome

/-- What the end of `cmdSquash` does: the reset alone when it fails, else the
reset and the commit. -/
theorem softResetAndCommit_cases (env : GitEnv) (base message : Bytes) :
    (∃ e, env.run [ascii "reset", ascii "--soft", base] = some e ∧
      softResetAndCommit env base message =
        ⟨some (ascii "soft reset failed: " ++ e), [[ascii "reset", ascii "--soft", base]]⟩) ∨
    (env.run [ascii "reset", ascii "--soft", base] = none ∧
      softResetAndCommit env base message =
        ⟨(env.run [ascii "commit", ascii "-m", message]).map (ascii "squash commit failed: " ++ ·),
          [[ascii "reset", ascii "--soft", base], [ascii "commit", ascii "-m", message]]⟩) := by
  unfold softResetAndCommit
  dsimp only
  rcases env.run [ascii "reset", ascii "--soft", base] with _ | e
  · refine .inr ⟨rfl, ?_⟩
    rcases env.run [ascii "commit", ascii "-m", message] with _ | e <;> rfl
  · exact .inl ⟨e, rfl, rfl⟩

/-- What `squashWith` can do, said once: refuse, or pass every check and end
as `softResetAndCommit`. -/
theorem squashWith_cases (env : GitEnv) (last : Int) (fromRef message : Bytes)
    (allowDirty : Bool) :
    (squashWith env last fromRef message allowDirty).Refused ∨
    (SquashChecks env last fromRef message allowDirty ∧
      squashWith env last fromRef message allowDirty =
        softResetAndCommit env (squashBase last (decide (0 < last)) fromRef) message) := by
  unfold squashWith
  by_cases hm : message = []
  · exact .inl ⟨by rw [if_pos hm], by rw [if_pos hm]; rfl⟩
  rw [if_neg hm]
  dsimp only
  by_cases h1 : decide (0 < last) = decide (trimSpace fromRef ≠ [])
  · exact .inl ⟨by rw [if_pos h1], by rw [if_pos h1]; rfl⟩
  rw [if_neg h1]
  have hone : 0 < last ↔ trimSpace fromRef = [] := by
    by_cases h : 0 < last <;> by_cases h' : trimSpace fromRef = [] <;> simp_all
  rcases hc : (if allowDirty = true then Except.ok true else workingTreeClean env) with e | _ | _
  · exact .inl ⟨rfl, rfl⟩
  · exact .inl ⟨rfl, rfl⟩
  have hclean : allowDirty = true ∨ workingTreeClean env = .ok true := by
    by_cases hd : allowDirty = true
    · exact .inl hd
    · rw [if_neg hd] at hc
      exact .inr hc
  dsimp only
  by_cases h2 : decide (0 < last) = true ∧ last < 2
  · exact .inl ⟨by rw [if_pos h2], by rw [if_pos h2]; rfl⟩
  rw [if_neg h2]
  have hge : 0 < last → 2 ≤ last := fun h => by
    by_contra h'
    exact h2 ⟨decide_eq_true h, by omega⟩
  rcases hv : verifyCommit env (squashBase last (decide (0 < last)) fromRef) with e | ⟨⟩
  · exact .inl ⟨rfl, rfl⟩
  · exact .inr ⟨⟨hm, hone, hclean, hge, hv⟩, rfl⟩

/-- `vcs squash` rewrites history only after every check, for every argument
vector and every answer of `git`.  Either it hands nothing to `git` and
returns an error, or its flags parse with nothing left over, every check of
`SquashChecks` passes, and it runs `git reset --soft` to the base; when that
fails it stops there, and otherwise it runs `git commit -m` with the message,
returning that commit's error — the reset is not undone. -/
theorem cmdSquash_rewrites_only_when_checked (env : GitEnv) (args : List Bytes) :
    (cmdSquash env args).Refused ∨
    ∃ set, parseFlags squashFlags args [] = .ok (set, []) ∧
      let last := intFlag squashFlags set (ascii "last")
      let fromRef := stringFlag squashFlags set (ascii "from")
      let message := stringFlag squashFlags set (ascii "m")
      let base := squashBase last (decide (0 < last)) fromRef
      SquashChecks env last fromRef message (boolFlag squashFlags set (ascii "allow-dirty")) ∧
      ((∃ e, env.run [ascii "reset", ascii "--soft", base] = some e ∧
        cmdSquash env args = ⟨some (ascii "soft reset failed: " ++ e),
          [[ascii "reset", ascii "--soft", base]]⟩) ∨
      (env.run [ascii "reset", ascii "--soft", base] = none ∧
        cmdSquash env args =
          ⟨(env.run [ascii "commit", ascii "-m", message]).map (ascii "squash commit failed: " ++ ·),
            [[ascii "reset", ascii "--soft", base], [ascii "commit", ascii "-m", message]]⟩)) := by
  unfold cmdSquash
  rcases hp : parseFlags squashFlags args [] with e | ⟨set, rest⟩
  · exact .inl ⟨rfl, rfl⟩
  dsimp only
  by_cases hr : rest ≠ []
  · exact .inl ⟨by rw [if_pos hr], by rw [if_pos hr]; rfl⟩
  obtain rfl : rest = [] := not_not.mp hr
  rw [if_neg hr]
  rcases squashWith_cases env (intFlag squashFlags set (ascii "last"))
    (stringFlag squashFlags set (ascii "from")) (stringFlag squashFlags set (ascii "m"))
    (boolFlag squashFlags set (ascii "allow-dirty")) with h | ⟨hc, h⟩
  · exact .inl h
  · rw [h]
    exact .inr ⟨set, rfl, hc, softResetAndCommit_cases env _ _⟩

/-- The flow of the repository's own test: `--last 2 -m squashed` on a clean
tree resets to `HEAD~2` and commits. -/
example : (cmdSquash ⟨fun _ => none, fun args =>
    if args.take 2 = [ascii "status", ascii "--porcelain"] then .ok [] else .ok (ascii "deadbeef")⟩
    [ascii "--last", ascii "2", ascii "-m", ascii "squashed"]).ran =
      [[ascii "reset", ascii "--soft", ascii "HEAD~2"], [ascii "commit", ascii "-m", ascii "squashed"]] := by
  decide

end Dqrvcs

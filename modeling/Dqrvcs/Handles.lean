/-
# `Dqrvcs.Handles` — several handles on one `ops.log`

`OpenStore` builds a handle's memory from `ops.log` once, and a handle never
reads the file again: `AppendLocalOp` takes the next seq from the handle's own
`seqByAuthor`.  Several handles can be open on one repository in one process —
`processPendingPushes` certifies through the caller's handle while
`recordGitEvent` opens a fresh one for each `git.push` it records — and all of
them append to the same file.

`Handles` is that system: the memory of every open handle, and the bytes of
the one `ops.log` they share.  A `HandleCall` opens one more handle, reading
the file with `loadOps`, or appends a local operation through one of them.

Two handles opened on a repository with no operations both allocate seq 1.
The records they append carry the same author and seq, and when their IDs
differ — their types do, so SHA-256 separates them barring a collision — the
next `OpenStore` stops at the second line with a conflict
(`stale_handle_conflict`).
-/
import Dqrvcs.Persist

namespace Dqrvcs

/-- Handles opened by `OpenStore` on one repository root: the memory of each,
and the bytes of the `ops.log` they all append to. -/
structure Handles where
  stores : List Store
  log : Bytes

/-- A call on the repository: `OpenStore`, or `AppendLocalOp` through the
handle at index `i`, whose write of `ops.log` goes as `io` says. -/
inductive HandleCall
  | openStore
  | appendLocal (i : Nat) (now : Time) (io : Write) (opType payload : Bytes)

variable (lib : Stdlib) (decode : Bytes → Option Operation) (identity : Identity)
  (privateKey : Bytes) (peers : List Bytes)

/-- The repository after one call.  `OpenStore` loads `ops.log` into the
handle its identity and peers give, reading each line with `decode`; a failed
load opens nothing. -/
def HandleCall.run : HandleCall → Handles → Handles
  | .openStore, w =>
    match loadOps lib decode (Store.empty identity privateKey peers) w.log with
    | .ok s => ⟨w.stores ++ [s], w.log⟩
    | .error _ => w
  | .appendLocal i now io opType payload, w =>
    match w.stores[i]? with
    | none => w
    | some s =>
      let r := AppendLocalOp lib now io s w.log opType payload
      ⟨w.stores.set i r.store, r.log⟩

/-- The repository after a sequence of calls, in order. -/
def runHandles (w : Handles) (calls : List HandleCall) : Handles :=
  calls.foldl (fun w c => c.run lib decode identity privateKey peers w) w

variable {lib}

/-- The failing input of the one-writer log: two handles opened on a
repository with no operations, one appending through the second, then one
through the first.  `ops.log` ends with the lines of two records by the same
author with seq 1, and if their IDs differ, `loadOps` stops at the second with
`conflicting operations for <author> seq=1`. -/
theorem stale_handle_conflict (decode : Bytes → Option Operation) (k : KeyPair)
    (peers : List Bytes) (t₁ t₂ : Time) {τ₁ τ₂ : Bytes} (h₁ : trimSpace τ₁ ≠ [])
    (h₂ : trimSpace τ₂ ≠ []) :
    ∃ opA opB : Operation,
      (runHandles lib decode (generateIdentity lib k) (k.priv lib) peers ⟨[], []⟩
        [.openStore, .openStore, .appendLocal 1 t₁ .whole τ₁ emptyObject,
          .appendLocal 0 t₂ .whole τ₂ emptyObject]).log = opsLogText lib [opA, opB] ∧
      opA.type = trimSpace τ₁ ∧ opB.type = trimSpace τ₂ ∧
      opA.author = opB.author ∧ opA.seq = 1 ∧ opB.seq = 1 ∧
      (opA.id ≠ opB.id →
        replayOps lib 0 (Store.empty (generateIdentity lib k) (k.priv lib) peers) [opA, opB] =
          .error (.load 2 (.conflict opB.author 1))) := by
  obtain ⟨opA, hvA, htA, haA, hsA, -, -, hA⟩ := @appendLocalOp_empty lib k t₁ .whole peers [] _ h₁
  obtain ⟨opB, hvB, htB, haB, hsB, -, -, hB⟩ :=
    @appendLocalOp_empty lib k t₂ .whole peers (opsLine lib opA) _ h₂
  refine ⟨opA, opB, ?_, htA, htB, haA.trans haB.symm, hsA, hsB, fun hid => ?_⟩
  · simp [runHandles, HandleCall.run, loadOps, loadOpsLoop, hA, hB, Write.written, opsLogText]
  · have hkey : ((Store.empty (generateIdentity lib k) (k.priv lib) peers).insert opA).authorSeqIndex
        (authorSeqKey opB.author opB.seq) = some opA.id := by
      rw [Store.insert_authorSeqIndex, haB, hsB, ← haA, ← hsA]
      exact Function.update_same _ _ _
    rw [← hsB]
    simp only [replayOps, loadRecord_of_admits hvA Store.empty_admits, Except.bind]
    rw [loadRecord_conflict hvB (by simp [Function.update_noteq (Ne.symm hid)]; rfl)
      (by simp [hkey, hid])]

theorem stale_handle_conflict_push :
    ∃ opA opB : Operation,
      (runHandles Stdlib.degenerate (fun _ => none)
          (generateIdentity Stdlib.degenerate ⟨List.replicate 32 0, rfl⟩)
          (KeyPair.priv Stdlib.degenerate ⟨List.replicate 32 0, rfl⟩) [] ⟨[], []⟩
        [.openStore, .openStore,
          .appendLocal 1 ⟨1970, 1, 1, 0, 0, 0, 0, by decide⟩ .whole (ascii "git.push") emptyObject,
          .appendLocal 0 ⟨1970, 1, 1, 0, 0, 0, 1, by decide⟩ .whole (ascii "consensus.cert")
            emptyObject]).log = opsLogText Stdlib.degenerate [opA, opB] ∧
      opA.type = trimSpace (ascii "git.push") ∧ opB.type = trimSpace (ascii "consensus.cert") ∧
      opA.author = opB.author ∧ opA.seq = 1 ∧ opB.seq = 1 ∧
      (opA.id ≠ opB.id →
        replayOps Stdlib.degenerate 0
          (Store.empty (generateIdentity Stdlib.degenerate ⟨List.replicate 32 0, rfl⟩)
            (KeyPair.priv Stdlib.degenerate ⟨List.replicate 32 0, rfl⟩) []) [opA, opB] =
          .error (.load 2 (.conflict opB.author 1))) :=
  stale_handle_conflict _ ⟨List.replicate 32 0, rfl⟩ [] _ _
    (by rw [trimSpace_of_graphic (by decide)]; decide)
    (by rw [trimSpace_of_graphic (by decide)]; decide)

end Dqrvcs

/-
# `Dqrvcs.Cli` — `vcs op` and `vcs peer`, one process per command

`cmdOp`, `cmdPeer` and `openGossipStore` of `part_003`.  Every run of `vcs`
is a process of its own: `openGossipStore` finds the repository root through
`git rev-parse --show-toplevel` and opens `.vcs/gossip` with `OpenStore`, the
command makes at most one call of the handle, and the process exits.  The
handle is dropped; what a run leaves is `.vcs/gossip` (`GossipFiles`).  Both
commands open the store before they look at their subcommand, so even a
misspelt one writes a fresh repository's identity
(`StoreCommand.run_creates_identity`).  All runs are in one
repository, whose `.vcs/gossip` the files are.  What a command prints is its
answer; its exit status and the usage text `flag` writes on a parse error are
left out.

What holds: the files a sequence of runs leaves are those one long-lived
handle leaves after the calls the runs make, in order (`cli_refines_handle`):
reopening the store before every command loses nothing, whenever every write
succeeds, every line of `ops.log` fits the scanner and `json.Unmarshal`
reads it back, and every peer added normalizes to a fixed point of
`normalizePeer`.  With or without those, whatever the runs meet: `ops.log`
only grows, by at most one line a run, and an identity once written stays
(`cliRun_appends_only`); every line added is the record of an operation that
verifies (`cliRun_appends_verified`); and `peers.json` is left as it was or
sorted and without duplicates (`cliRun_peers_canonical`).  All three follow
from one statement of what a run can do (`StoreCommand.run_writes`).
-/
import Dqrvcs.Repository
import Dqrvcs.Commands

namespace Dqrvcs

/-! ## What a call writes does not depend on the operations held -/

section Frame

variable {lib : Stdlib}

/-- `ops.log` after `AppendLocalOp` does not depend on the operations the
handle holds, only on its keys and indices. -/
theorem appendLocalOp_log_withOps (now : Time) (io : Write) (s : Store) (log : Bytes)
    (opType payload : Bytes) (x : List Operation) :
    (AppendLocalOp lib now io { s with ops := x } log opType payload).log =
      (AppendLocalOp lib now io s log opType payload).log := by
  unfold AppendLocalOp
  simp only [Store.seqOf]
  generalize (if payload = [] then emptyObject else payload) = p
  split_ifs <;> try rfl
  split
  · rfl
  · split <;> split <;> rw [addOperationLocked_log, addOperationLocked_log] <;> rfl

/-- `AppendLocalOp` leaves `ops.log` as it was or adds the line of one
operation that verifies, whole or cut short as its write was. -/
theorem appendLocalOp_log_new (now : Time) (io : Write) (s : Store) (log opType payload : Bytes) :
    (AppendLocalOp lib now io s log opType payload).log = log ∨ ∃ op, Verified lib op ∧
      (AppendLocalOp lib now io s log opType payload).log = log ++ io.written (opsLine lib op) := by
  rcases appendLocalOp_cases now io s log opType payload with ⟨-, h, -⟩ | ⟨op, -, -, -, h, -⟩ <;>
    rw [h]
  · exact .inl rfl
  · rw [addOperationLocked_log]
    split
    · next hv => exact .inr ⟨op, hv.1, rfl⟩
    · exact .inl rfl

theorem count_newline_written {op : Operation} (hv : Verified lib op) (io : Write) :
    (io.written (opsLine lib op)).count 0x0A ≤ 1 := by
  have h : (opsLine lib op).count 0x0A = 1 := by
    rw [opsLine, List.count_append,
      List.count_eq_zero.mpr (newline_not_mem_marshalOperation lib hv.payload_valid)]
    rfl
  cases io with
  | whole => exact h.le
  | short n => exact h ▸ (List.take_sublist n _).count_le 0x0A

/-- `peers.json` after a call of the peer list does not depend on the
operations the handle holds. -/
theorem PeerCall.run_withOps (c : PeerCall) (s : Store) (saved : List Bytes) (x : List Operation) :
    (c.run lib ({ s with ops := x }, saved)).2 = (c.run lib (s, saved)).2 := by
  cases c with
  | add io raw =>
    show (AddPeer lib io { s with ops := x } saved raw).peersFile = (AddPeer lib io s saved raw).peersFile
    unfold AddPeer savePeersLocked
    split
    · rfl
    · dsimp only
      split_ifs <;> rfl
  | remove io raw =>
    show (RemovePeer lib io { s with ops := x } saved raw).peersFile =
      (RemovePeer lib io s saved raw).peersFile
    unfold RemovePeer savePeersLocked
    split
    · rfl
    · dsimp only
      split_ifs <;> rfl

theorem MemStep.subset {s s' : Store} (h : MemStep lib s s') : ∀ x ∈ s.ops, x ∈ s'.ops := by
  cases h with
  | stay => exact fun _ hx => hx
  | insert => exact fun _ hx => List.mem_append_left _ hx

theorem RepoCall.ops_subset (c : RepoCall) (st : Store × Bytes × List Bytes) :
    ∀ x ∈ st.1.ops, x ∈ (c.run lib st).1.ops := by
  obtain ⟨s, records, saved⟩ := st
  cases c with
  | log c => exact (memStep_run c (s, records)).subset
  | peer c =>
    intro x hx
    show x ∈ (c.run lib (s, saved)).1.ops
    rw [PeerCall.run_store c (s, saved)]
    exact hx

theorem ops_subset_runRepo : ∀ (cs : List RepoCall) (st : Store × Bytes × List Bytes),
    ∀ x ∈ st.1.ops, x ∈ (runRepo lib st cs).1.ops
  | [], _ => fun _ hx => hx
  | c :: cs, st => fun x hx => ops_subset_runRepo cs (c.run lib st) x (c.ops_subset st x hx)

theorem runRepo_append (st : Store × Bytes × List Bytes) (cs ds : List RepoCall) :
    runRepo lib st (cs ++ ds) = runRepo lib (runRepo lib st cs) ds :=
  List.foldl_append _ _ _ _

/-- A call that saves only peers `loadPeers` reads back as they are: an
address it adds normalizes to a fixed point of `normalizePeer`. -/
def RepoCall.KeepsFixed (lib : Stdlib) : RepoCall → Prop
  | .peer (.add _ raw) => ∀ n, normalizePeer lib raw = .ok n → normalizePeer lib n = .ok n
  | _ => True

/-- What reopening a handle needs of the run before it: `RepoInv`, and every
saved peer a fixed point of `normalizePeer`. -/
structure Reopenable (lib : Stdlib) (key : KeyPair) (st : Store × Bytes × List Bytes) :
    Prop where
  inv : RepoInv lib (generateIdentity lib key) (key.priv lib) st
  fixed : ∀ p ∈ st.2.2, normalizePeer lib p = .ok p

/-- The step lemma: a call whose writes succeed and that adds only fixed
points keeps `Reopenable`. -/
theorem Reopenable.run {key : KeyPair} {c : RepoCall} (hc : c.Persists) (hk : c.KeepsFixed lib)
    {st : Store × Bytes × List Bytes} (h : Reopenable lib key st) :
    Reopenable lib key (c.run lib st) := by
  refine ⟨h.inv.run hc, ?_⟩
  obtain ⟨s, records, saved⟩ := st
  have hsaved : saved = s.peers := h.inv.peers.saved
  cases c with
  | log c => exact h.fixed
  | peer c =>
    cases c with
    | add io raw =>
      show ∀ p ∈ (AddPeer lib io s saved raw).peersFile, _
      unfold AddPeer savePeersLocked
      split
      · exact h.fixed
      · next n hn =>
        dsimp only
        split_ifs
        · exact h.fixed
        · intro p hp
          rcases List.mem_append.mp ((List.perm_insertionSort _ _).mem_iff.mp hp) with hp | hp
          · exact h.fixed p (hsaved ▸ hp)
          · rw [List.mem_singleton.mp hp]
            exact hk n hn
        · exact h.fixed
    | remove io raw =>
      show ∀ p ∈ (RemovePeer lib io s saved raw).peersFile, _
      unfold RemovePeer savePeersLocked
      split
      · exact h.fixed
      · dsimp only
        split_ifs <;>
          exact fun p hp => h.fixed p (by first | exact hp | exact hsaved ▸ (List.mem_filter.mp hp).1)

theorem Reopenable.runRepo {key : KeyPair} :
    ∀ (cs : List RepoCall), (∀ c ∈ cs, c.Persists ∧ c.KeepsFixed lib) →
      ∀ {st : Store × Bytes × List Bytes}, Reopenable lib key st →
        Reopenable lib key (runRepo lib st cs)
  | [], _, _, h => h
  | c :: cs, hc, _, h =>
    Reopenable.runRepo cs (fun c' h' => hc c' (List.mem_cons_of_mem c h'))
      (h.run (hc c (List.mem_cons_self c cs)).1 (hc c (List.mem_cons_self c cs)).2)

/-- A peer list as a handle that `loadPeers` filled saves it: sorted as
`sort.Strings` sorts, without duplicates. -/
def Canonical (peers : List Bytes) : Prop :=
  peers.Sorted (fun a b => bytesLt b a = false) ∧ peers.Nodup

theorem loadPeersLoop_nodup : ∀ {kept file l : List Bytes}, kept.Nodup →
    loadPeersLoop lib kept file = .ok l → l.Nodup
  | kept, [], l, hk, h => by
    rw [loadPeersLoop] at h
    cases h
    exact hk
  | kept, p :: rest, l, hk, h => by
    rw [loadPeersLoop] at h
    split at h
    · cases h
    · split_ifs at h with hn
      · exact loadPeersLoop_nodup hk h
      · exact loadPeersLoop_nodup (hk.append (List.nodup_singleton _) (List.disjoint_singleton.mpr hn)) h

/-- `loadPeers` fills a handle with a canonical list, whatever `peers.json`
holds. -/
theorem canonical_of_loadPeers {peers l : List Bytes} (h : loadPeers lib (some peers) = .ok l) :
    Canonical l := by
  rw [loadPeers] at h
  cases hl : loadPeersLoop lib [] peers with
  | error e => rw [hl] at h; cases h
  | ok k =>
    rw [hl] at h
    cases h
    exact ⟨List.sorted_insertionSort _ _,
      (List.perm_insertionSort _ _).nodup_iff.mpr (loadPeersLoop_nodup List.nodup_nil hl)⟩

theorem loadOpsLoop_peers {decode : Bytes → Option Operation} :
    ∀ {line : Nat} {s s' : Store} {lines : List Bytes},
      loadOpsLoop lib decode line s lines = .ok s' → s'.peers = s.peers
  | _, s, s', [], h => by
    rw [loadOpsLoop] at h
    cases h
    rfl
  | line, s, s', text :: rest, h => by
    rw [loadOpsLoop] at h
    dsimp only at h
    split_ifs at h
    · exact loadOpsLoop_peers h
    split at h
    · cases h
    split at h
    · cases h
    · rename_i s₁ hr
      have hs₁ : s₁.peers = s.peers := by
        unfold loadRecord at hr
        split at hr
        · cases hr
        · cases hr
          exact (@memStep_addOperationLocked lib false .whole s [] _).frame.2.2
      exact (loadOpsLoop_peers h).trans hs₁

/-- A call of the peer list, on a handle with a canonical list, leaves
`peers.json` as it was or saves a canonical list. -/
theorem PeerCall.run_canonical (c : PeerCall) {s : Store} (hs : Canonical s.peers)
    (file : List Bytes) : (c.run lib (s, file)).2 = file ∨ Canonical (c.run lib (s, file)).2 := by
  cases c with
  | add io raw =>
    show (AddPeer lib io s file raw).peersFile = file ∨ Canonical (AddPeer lib io s file raw).peersFile
    unfold AddPeer savePeersLocked
    split
    · exact .inl rfl
    · next n _ =>
      dsimp only
      split_ifs with hn
      · exact .inl rfl
      · exact .inr ⟨List.sorted_insertionSort _ _, (List.perm_insertionSort _ _).nodup_iff.mpr
          (hs.2.append (List.nodup_singleton n) (List.disjoint_singleton.mpr hn))⟩
      · exact .inl rfl
  | remove io raw =>
    show (RemovePeer lib io s file raw).peersFile = file ∨
      Canonical (RemovePeer lib io s file raw).peersFile
    unfold RemovePeer savePeersLocked
    split
    · exact .inl rfl
    · dsimp only
      split_ifs <;> first | exact .inl rfl | exact .inr ⟨hs.1.filter _, hs.2.filter _⟩

end Frame

namespace Cli

/-- What one run of `vcs op` or `vcs peer` meets besides its arguments and
`.vcs/gossip`: what `git rev-parse --show-toplevel` prints (`none` when it
fails), the key pair `ed25519.GenerateKey` would draw, whether `os.MkdirAll`
succeeds, whether writing a generated identity succeeds, the instant
`time.Now` reads, whether saving `peers.json` succeeds, and how much of its
line `appendOpLocked` writes to `ops.log`. -/
structure StoreEnv where
  toplevel : Option Bytes
  key : KeyPair
  createDir : Bool
  identityWrite : Bool
  now : Time
  peersWrite : Bool
  opsWrite : Write

/-- What a command returns, its error or the lines it prints, and
`.vcs/gossip` after it. -/
structure CliOutcome where
  result : Except Bytes (List Bytes)
  files : GossipFiles

variable (lib : Stdlib) (decode : Bytes → Option Operation)

/-- `.vcs/gossip` after an `OpenStore` that fails: an identity it generated is
written before `peers.json` and `ops.log` are read, and stays. -/
def openedFiles (env : StoreEnv) (repoRoot : Bytes) (files : GossipFiles) : GossipFiles :=
  if trimSpace repoRoot = [] ∨ env.createDir = false then files else
  match files.identity with
  | none =>
    if env.identityWrite then { files with identity := some (generateIdentity lib env.key) }
    else files
  | some _ => files

/-- `openGossipStore()`: `repoRoot`, then `gossip.OpenStore` of the root, with
`decode` as `json.Unmarshal` of a line of `ops.log`; the handle or the error,
and `.vcs/gossip` after it. -/
def openGossipStore (env : StoreEnv) (files : GossipFiles) : Except Bytes Store × GossipFiles :=
  match env.toplevel with
  | none => (.error (ascii "decentralized commands must run inside a git repository"), files)
  | some out =>
    let root := trimSpace out
    if root = [] then (.error (ascii "could not determine repository root"), files) else
    match OpenStore lib env.key env.createDir env.identityWrite decode root files with
    | .error e => (.error e.message, openedFiles lib env root files)
    | .ok (s, files) => (.ok s, files)

/-! ## `vcs peer` -/

/-- The answer of `peer add` and `peer remove`: the error of `AddPeer` or
`RemovePeer`, or the line naming the peer; `peers.json` as the call leaves
it. -/
def peerOutcome (verb : Bytes) (files : GossipFiles) (r : PeerOutcome) : CliOutcome :=
  ⟨match r.result with
    | .error e => .error e.message
    | .ok peer => .ok [verb ++ ascii " peer " ++ peer],
    { files with peers := r.peersFile }⟩

/-- `cmdPeer(args)`. -/
def cmdPeer (env : StoreEnv) (files : GossipFiles) (args : List Bytes) : CliOutcome :=
  match args with
  | [] => ⟨.error (ascii "usage: vcs peer <add|remove|list> [peer-url]"), files⟩
  | sub :: rest =>
    match openGossipStore lib decode env files with
    | (.error e, files) => ⟨.error e, files⟩
    | (.ok s, files) =>
      if sub = ascii "add" then
        match rest with
        | [raw] => peerOutcome (ascii "added") files (AddPeer lib env.peersWrite s files.peers raw)
        | _ => ⟨.error (ascii "usage: vcs peer add <peer-url>"), files⟩
      else if sub = ascii "remove" then
        match rest with
        | [raw] => peerOutcome (ascii "removed") files (RemovePeer lib env.peersWrite s files.peers raw)
        | _ => ⟨.error (ascii "usage: vcs peer remove <peer-url>"), files⟩
      else if sub = ascii "list" then
        match rest with
        | [] =>
          ⟨.ok (if s.peers = [] then [ascii "no peers configured"] else sortStrings s.peers), files⟩
        | _ => ⟨.error (ascii "usage: vcs peer list"), files⟩
      else ⟨.error (ascii "unknown peer subcommand " ++ quote sub), files⟩

/-! ## `vcs op` -/

/-- The flags of `op append`. -/
def appendFlags : List Flag := [⟨ascii "type", .string []⟩, ⟨ascii "data", .string emptyObject⟩]

/-- The flags of `op list`. -/
def listFlags : List Flag := [⟨ascii "limit", .int 20⟩]

/-- The checks of `op append` before it calls the handle: its flags parse with
nothing left over, the type is not blank and the payload is JSON.  The type
and payload it hands to `AppendLocalOp`, or the error. -/
def appendRequest (args : List Bytes) : Except Bytes (Bytes × Bytes) :=
  match parseFlags appendFlags args [] with
  | .error e => .error e.message
  | .ok (set, rest) =>
    if rest ≠ [] then .error (ascii "unexpected arguments: " ++ formatList rest) else
    let opType := stringFlag appendFlags set (ascii "type")
    let payload := stringFlag appendFlags set (ascii "data")
    if trimSpace opType = [] then .error (ascii "op append requires --type")
    else if !lib.jsonValid payload then .error (ascii "op append --data must be valid JSON")
    else .ok (opType, payload)

/-- The line `op append` prints. -/
def appendedLine (op : Operation) : Bytes :=
  ascii "appended op id=" ++ op.id ++ ascii " type=" ++ op.type ++ ascii " author=" ++ op.author ++
    ascii " seq=" ++ formatUint op.seq.toNat

/-- The line `op list` prints for each operation. -/
def opLine (op : Operation) : Bytes :=
  op.author ++ ascii " seq=" ++ formatUint op.seq.toNat ++ ascii " type=" ++ op.type ++
    ascii " id=" ++ op.id ++ ascii " ts=" ++ op.timestamp

/-- `cmdOp(args)`. -/
def cmdOp (env : StoreEnv) (files : GossipFiles) (args : List Bytes) : CliOutcome :=
  match args with
  | [] => ⟨.error (ascii "usage: vcs op <append|list> [options]"), files⟩
  | sub :: rest =>
    match openGossipStore lib decode env files with
    | (.error e, files) => ⟨.error e, files⟩
    | (.ok s, files) =>
      if sub = ascii "append" then
        match appendRequest lib rest with
        | .error e => ⟨.error e, files⟩
        | .ok (opType, payload) =>
          let r := AppendLocalOp lib env.now env.opsWrite s files.ops opType payload
          ⟨match r.result with
            | .error e => .error e.message
            | .ok op => .ok [appendedLine op],
            { files with ops := r.log }⟩
      else if sub = ascii "list" then
        match parseFlags listFlags rest [] with
        | .error e => ⟨.error e.message, files⟩
        | .ok (set, rest) =>
          if rest ≠ [] then ⟨.error (ascii "unexpected arguments: " ++ formatList rest), files⟩ else
          let ops := Ops s (intFlag listFlags set (ascii "limit"))
          ⟨.ok (if ops = [] then [ascii "no operations found"] else ops.map opLine), files⟩
      else ⟨.error (ascii "unknown op subcommand " ++ quote sub), files⟩

/-! ## Runs of `vcs` -/

/-- A run of `vcs` that opens the store: `vcs op args` or `vcs peer args`. -/
inductive StoreCommand
  | op (args : List Bytes)
  | peer (args : List Bytes)

/-- The arguments after the command's name. -/
def StoreCommand.args : StoreCommand → List Bytes
  | .op args => args
  | .peer args => args

/-- One run, in its own process. -/
def StoreCommand.run (env : StoreEnv) (files : GossipFiles) : StoreCommand → CliOutcome
  | .op args => cmdOp lib decode env files args
  | .peer args => cmdPeer lib decode env files args

/-- `.vcs/gossip` after a sequence of runs, in order. -/
def cliRun (runs : List (StoreEnv × StoreCommand)) (files : GossipFiles) : GossipFiles :=
  runs.foldl (fun files r => (r.2.run lib decode r.1 files).files) files

/-- The call of the handle a run makes once the store is open: `op append`
whose checks pass, and `peer add` or `peer remove` of one address. -/
def StoreCommand.call (env : StoreEnv) : StoreCommand → Option RepoCall
  | .op (sub :: rest) =>
    if sub = ascii "append" then
      match appendRequest lib rest with
      | .ok (opType, payload) => some (.log (.appendLocal env.now env.opsWrite opType payload))
      | .error _ => none
    else none
  | .peer [sub, raw] =>
    if sub = ascii "add" then some (.peer (.add env.peersWrite raw))
    else if sub = ascii "remove" then some (.peer (.remove env.peersWrite raw))
    else none
  | _ => none

/-- The calls a sequence of runs makes, in order. -/
def calls (runs : List (StoreEnv × StoreCommand)) : List RepoCall :=
  runs.filterMap fun r => r.2.call lib r.1

/-- The files a handle and what it has written stand for, under the identity
`identity`. -/
def filesOf (identity : Identity) (st : Store × Bytes × List Bytes) : GossipFiles :=
  ⟨some identity, st.2.2, st.2.1⟩

/-- The handle the first run opens on an empty `.vcs/gossip`, with nothing
written. -/
def fresh (key : KeyPair) : Store × Bytes × List Bytes :=
  (Store.empty (generateIdentity lib key) (key.priv lib) [], [], [])

variable {lib decode}

/-! ## One run, as a call of the handle -/

theorem calls_cons (r : StoreEnv × StoreCommand) (runs : List (StoreEnv × StoreCommand)) :
    calls lib (r :: runs) = (r.2.call lib r.1).toList ++ calls lib runs := by
  cases h : r.2.call lib r.1 <;> simp [calls, List.filterMap_cons, h]

/-- A run that stops before opening the store leaves the files and calls
nothing. -/
theorem StoreCommand.run_of_args_nil {cmd : StoreCommand} (h : cmd.args = []) (env : StoreEnv)
    (files : GossipFiles) :
    (cmd.run lib decode env files).files = files ∧ cmd.call lib env = none := by
  cases cmd <;> (dsimp only [StoreCommand.args] at h; subst h; exact ⟨rfl, rfl⟩)

/-- A run of `vcs op`, when `openGossipStore` opens the handle `st` stands
for: the files after it are those the handle leaves after the call it makes. -/
theorem cmdOp_of_open {env : StoreEnv} {files : GossipFiles} {identity : Identity}
    {st : Store × Bytes × List Bytes}
    (hopen : openGossipStore lib decode env files =
      (.ok { st.1 with ops := st.1.ops.map (reloaded lib) }, filesOf identity st))
    (sub : Bytes) (rest : List Bytes) :
    (cmdOp lib decode env files (sub :: rest)).files =
      filesOf identity (runRepo lib st ((StoreCommand.op (sub :: rest)).call lib env).toList) := by
  simp only [cmdOp, hopen, StoreCommand.call]
  by_cases ha : sub = ascii "append"
  · simp only [if_pos ha]
    split
    · next e he => rw [he]; rfl
    · next opType payload he =>
      rw [he]
      show _ = filesOf identity (RepoCall.run lib (.log (.appendLocal _ _ _ _)) st)
      simp only [filesOf, RepoCall.run, LogCall.run, appendLocalOp_log_withOps]
  · simp only [if_neg ha]
    split_ifs
    · split
      · rfl
      · split_ifs <;> rfl
    · rfl

/-- A run of `vcs peer`, when `openGossipStore` opens the handle `st` stands
for: the files after it are those the handle leaves after the call it makes. -/
theorem cmdPeer_of_open {env : StoreEnv} {files : GossipFiles} {identity : Identity}
    {st : Store × Bytes × List Bytes}
    (hopen : openGossipStore lib decode env files =
      (.ok { st.1 with ops := st.1.ops.map (reloaded lib) }, filesOf identity st))
    (sub : Bytes) (rest : List Bytes) :
    (cmdPeer lib decode env files (sub :: rest)).files =
      filesOf identity (runRepo lib st ((StoreCommand.peer (sub :: rest)).call lib env).toList) := by
  simp only [cmdPeer, hopen]
  rcases rest with _ | ⟨raw, _ | ⟨a, rest⟩⟩ <;> simp only [StoreCommand.call]
  · split_ifs <;> rfl
  · split_ifs
    · exact congrArg (fun p => filesOf identity (st.1, st.2.1, p)) (PeerCall.run_withOps (.add _ raw) ..)
    · exact congrArg (fun p => filesOf identity (st.1, st.2.1, p)) (PeerCall.run_withOps (.remove _ raw) ..)
    · rfl
    · rfl
  · split_ifs <;> rfl

/-- A run whose writes all succeed: `git` names a root, `.vcs/gossip` can be
created, and writing a generated identity, saving `peers.json` and writing
to `ops.log` all succeed, the last whole. -/
structure StoreEnv.Clean (env : StoreEnv) : Prop where
  root : ∃ out, env.toplevel = some out ∧ trimSpace out ≠ []
  createDir : env.createDir = true
  identityWrite : env.identityWrite = true
  peersWrite : env.peersWrite = true
  opsWrite : env.opsWrite = .whole

theorem openGossipStore_of_openStore {env : StoreEnv} (h : env.Clean) {files files' : GossipFiles}
    {s : Store}
    (ho : ∀ root, trimSpace root ≠ [] →
      OpenStore lib env.key true true decode root files = .ok (s, files')) :
    openGossipStore lib decode env files = (.ok s, files') := by
  obtain ⟨⟨out, hout, hne⟩, hc, hi, -, -⟩ := h
  simp only [openGossipStore, hout, if_neg hne, hc, hi, ho _ (by rwa [trimSpace_trimSpace])]

theorem StoreCommand.call_persists {env : StoreEnv} (h : env.Clean) {cmd : StoreCommand}
    {c : RepoCall} (hc : cmd.call lib env = some c) : c.Persists := by
  unfold StoreCommand.call at hc
  split at hc
  · split_ifs at hc
    split at hc
    · cases hc
      exact h.opsWrite
    · cases hc
  · split_ifs at hc <;> cases hc <;> exact h.peersWrite
  · cases hc

/-- A run that opens the store, when `openGossipStore` opens the handle `st`
stands for. -/
theorem StoreCommand.run_of_open {cmd : StoreCommand} (hargs : cmd.args ≠ []) {env : StoreEnv}
    {files : GossipFiles} {identity : Identity} {st : Store × Bytes × List Bytes}
    (hopen : openGossipStore lib decode env files =
      (.ok { st.1 with ops := st.1.ops.map (reloaded lib) }, filesOf identity st)) :
    (cmd.run lib decode env files).files =
      filesOf identity (runRepo lib st (cmd.call lib env).toList) := by
  rcases cmd with (_ | ⟨sub, rest⟩) | (_ | ⟨sub, rest⟩)
  · exact absurd rfl hargs
  · exact cmdOp_of_open hopen sub rest
  · exact absurd rfl hargs
  · exact cmdPeer_of_open hopen sub rest

/-- The run lemma: from files a reopenable handle stands for, a sequence of
clean runs leaves the files the handle leaves after their calls. -/
theorem cliRun_filesOf {key : KeyPair} :
    ∀ (runs : List (StoreEnv × StoreCommand)) {st : Store × Bytes × List Bytes},
      (∀ r ∈ runs, r.1.Clean) → (∀ c ∈ calls lib runs, c.KeepsFixed lib) →
      Reopenable lib key st →
      (∀ op ∈ (runRepo lib st (calls lib runs)).1.ops,
        decode (marshalOperation lib op) = some (reloaded lib op)) →
      (∀ op ∈ (runRepo lib st (calls lib runs)).1.ops,
        (marshalOperation lib op).length < maxTokenSize) →
      cliRun lib decode runs (filesOf (generateIdentity lib key) st) =
        filesOf (generateIdentity lib key) (runRepo lib st (calls lib runs))
  | [], _, _, _, _, _, _ => rfl
  | (env, cmd) :: runs, st, henv, hk, h, hdec, hfit => by
    have hclean := henv _ (List.mem_cons_self _ _)
    rw [calls_cons, runRepo_append] at hdec hfit ⊢
    have hpre : ∀ x ∈ st.1.ops,
        x ∈ (runRepo lib (runRepo lib st (cmd.call lib env).toList) (calls lib runs)).1.ops := by
      rw [← runRepo_append]
      exact ops_subset_runRepo _ st
    rw [calls_cons] at hk
    have hstep : (cmd.run lib decode env (filesOf (generateIdentity lib key) st)).files =
        filesOf (generateIdentity lib key) (runRepo lib st (cmd.call lib env).toList) := by
      by_cases hargs : cmd.args = []
      · obtain ⟨hf, hc⟩ := @StoreCommand.run_of_args_nil lib decode _ hargs env
          (filesOf (generateIdentity lib key) st)
        rw [hf, hc]
        rfl
      · exact StoreCommand.run_of_open hargs (openGossipStore_of_openStore hclean fun _ hroot =>
          RepoInv.openStore hroot h.inv (fun op hop => hdec op (hpre op hop))
            (fun op hop => hfit op (hpre op hop)) h.fixed)
    show cliRun lib decode runs (cmd.run lib decode env (filesOf _ st)).files = _
    rw [hstep]
    exact cliRun_filesOf runs (fun r hr => henv r (List.mem_cons_of_mem _ hr))
      (fun c hc => hk c (List.mem_append_right _ hc))
      (h.runRepo _ fun c hc => ⟨StoreCommand.call_persists hclean (Option.mem_toList.mp hc),
        hk c (List.mem_append_left _ hc)⟩) hdec hfit

/-- Reopening the store before every command loses nothing.  From an empty
`.vcs/gossip`, a sequence of runs of `vcs op` and `vcs peer`, each in its own
process, leaves the files that one handle, opened by the first run and kept
for all of them, leaves after the calls the runs make, in order: whenever the
first run gets past its usage check, every write succeeds, every peer added
normalizes to a fixed point of `normalizePeer`, and every record fits the
scanner and is read back by `json.Unmarshal`. -/
theorem cli_refines_handle (env₀ : StoreEnv) (cmd₀ : StoreCommand)
    (runs : List (StoreEnv × StoreCommand)) (hopens : cmd₀.args ≠ [])
    (henv : ∀ r ∈ (env₀, cmd₀) :: runs, r.1.Clean)
    (hfixed : ∀ c ∈ calls lib ((env₀, cmd₀) :: runs), c.KeepsFixed lib)
    (hdec : ∀ op ∈ (runRepo lib (fresh lib env₀.key) (calls lib ((env₀, cmd₀) :: runs))).1.ops,
      decode (marshalOperation lib op) = some (reloaded lib op))
    (hfit : ∀ op ∈ (runRepo lib (fresh lib env₀.key) (calls lib ((env₀, cmd₀) :: runs))).1.ops,
      (marshalOperation lib op).length < maxTokenSize) :
    cliRun lib decode ((env₀, cmd₀) :: runs) ⟨none, [], []⟩ =
      filesOf (generateIdentity lib env₀.key)
        (runRepo lib (fresh lib env₀.key) (calls lib ((env₀, cmd₀) :: runs))) := by
  have hclean := henv _ (List.mem_cons_self _ _)
  have hstep : (cmd₀.run lib decode env₀ ⟨none, [], []⟩).files =
      filesOf (generateIdentity lib env₀.key)
        (runRepo lib (fresh lib env₀.key) (cmd₀.call lib env₀).toList) :=
    StoreCommand.run_of_open hopens
      (openGossipStore_of_openStore hclean fun _ hroot => openStore_fresh _ _ hroot)
  have hinit : Reopenable lib env₀.key (fresh lib env₀.key) :=
    ⟨⟨logInv_empty _ _ _, rfl, ⟨rfl, .nil, .nil⟩, rfl, rfl⟩, nofun⟩
  rw [calls_cons, runRepo_append] at hdec hfit ⊢
  rw [calls_cons] at hfixed
  show cliRun lib decode runs (cmd₀.run lib decode env₀ ⟨none, [], []⟩).files = _
  rw [hstep]
  exact cliRun_filesOf runs (fun r hr => henv r (List.mem_cons_of_mem _ hr))
    (fun c hc => hfixed c (List.mem_append_right _ hc))
    (hinit.runRepo _ fun c hc => ⟨StoreCommand.call_persists hclean (Option.mem_toList.mp hc),
      hfixed c (List.mem_append_left _ hc)⟩) hdec hfit

set_option maxRecDepth 4000 in
/-- The theorem at three runs: an operation appended, a peer added, the log
listed. -/
theorem cli_refines_handle_append_add_list :
    let env : StoreEnv := ⟨some (ascii "/repo"), ⟨List.replicate 32 0, rfl⟩, true, true,
      ⟨1970, 1, 1, 0, 0, 0, 0, by decide⟩, true, .whole⟩
    let cmd₀ := StoreCommand.op [ascii "append", ascii "--type", ascii "git.push"]
    let runs := [(env, StoreCommand.peer [ascii "add", ascii "127.0.0.1:8787"]),
      (env, StoreCommand.op [ascii "list"])]
    let st := runRepo Stdlib.withURL (fresh Stdlib.withURL env.key)
      (calls Stdlib.withURL ((env, cmd₀) :: runs))
    let decode : Bytes → Option Operation := fun line =>
      (st.1.ops.find? fun op => marshalOperation Stdlib.withURL op = line).map
        (reloaded Stdlib.withURL)
    cliRun Stdlib.withURL decode ((env, cmd₀) :: runs) ⟨none, [], []⟩ =
      filesOf (generateIdentity Stdlib.withURL env.key) st :=
  cli_refines_handle _ _ _ (by decide)
    (by
      simp only [List.mem_cons, List.mem_nil_iff, or_false]
      rintro r (rfl | rfl | rfl) <;>
        exact ⟨⟨_, rfl, by rw [trimSpace_of_graphic (by decide)]; decide⟩, rfl, rfl, rfl, rfl⟩)
    (by
      intro c hc
      replace hc : c ∈ [.log (.appendLocal ⟨1970, 1, 1, 0, 0, 0, 0, by decide⟩ .whole
          (ascii "git.push") emptyObject), .peer (.add true (ascii "127.0.0.1:8787"))] := hc
      simp only [List.mem_cons, List.mem_nil_iff, or_false] at hc
      rcases hc with rfl | rfl
      · trivial
      · intro n hn
        obtain rfl := Except.ok.inj
          ((@eq_ok_of_toOption _ _ _ (ascii "http://127.0.0.1:8787") (by decide)).symm.trans hn)
        exact eq_ok_of_toOption (by decide))
    (by decide) (by decide)

/-! ## What a run can do to `.vcs/gossip` -/

/-- What `OpenStore` does to `.vcs/gossip`: nothing, or write an identity
where there was none. -/
inductive Opens (files : GossipFiles) : GossipFiles → Prop
  | none : Opens files files
  | identity (i : Identity) : files.identity = none → Opens files { files with identity := some i }

/-- `OpenStore` writes nothing but a generated identity, which it writes where
there was none, and the handle it opens holds a canonical peer list. -/
theorem openStore_opens {key : KeyPair} {createDir io : Bool} {root : Bytes}
    {files files' : GossipFiles} {s : Store}
    (h : OpenStore lib key createDir io decode root files = .ok (s, files')) :
    Opens files files' ∧ Canonical s.peers ∧
      (files.identity = none → files'.identity = some (generateIdentity lib key)) := by
  by_cases hr : trimSpace root = []
  · rw [OpenStore, if_pos hr] at h
    cases h
  by_cases hc : createDir = true
  swap
  · rw [OpenStore, if_neg hr, if_pos (by simpa using hc)] at h
    cases h
  rcases files with ⟨_ | i, peers, ops⟩
  · cases io
    · simp only [OpenStore, hr, hc, if_false, Bool.not_true, Bool.false_eq_true] at h
      cases h
    simp only [OpenStore, hr, hc, if_false, if_true, Bool.not_true, Bool.false_eq_true] at h
    split at h
    · cases h
    · rename_i loaded hp
      split at h
      · cases h
      · rename_i hs
        cases h
        exact ⟨.identity _ rfl, by rw [loadOpsLoop_peers hs]; exact canonical_of_loadPeers hp,
          fun _ => rfl⟩
  · simp only [OpenStore, hr, hc, if_false, Bool.not_true, Bool.false_eq_true] at h
    rcases hl : loadIdentity lib i with e | ⟨identity, pk⟩ <;> simp only [hl] at h
    · cases h
    split at h
    · cases h
    · rename_i loaded hp
      split at h
      · cases h
      · rename_i hs
        cases h
        exact ⟨.none, by rw [loadOpsLoop_peers hs]; exact canonical_of_loadPeers hp, nofun⟩

/-- `openGossipStore` writes nothing but a generated identity, and a handle it
opens holds a canonical peer list. -/
theorem openGossipStore_opens (env : StoreEnv) (files : GossipFiles) :
    Opens files (openGossipStore lib decode env files).2 ∧
      ∀ s, (openGossipStore lib decode env files).1 = .ok s → Canonical s.peers := by
  unfold openGossipStore
  split
  · exact ⟨.none, fun _ h => by cases h⟩
  · dsimp only
    split_ifs
    · exact ⟨.none, fun _ h => by cases h⟩
    split
    · refine ⟨?_, fun _ h => by cases h⟩
      unfold openedFiles
      split_ifs
      · exact .none
      all_goals split <;> first | exact .none | exact .identity _ ‹_›
    · next hs =>
      obtain ⟨ho, hc, -⟩ := openStore_opens hs
      exact ⟨ho, fun _ h => by cases h; exact hc⟩

theorem Opens.ops_eq {files f : GossipFiles} : Opens files f → f.ops = files.ops
  | .none => rfl
  | .identity _ _ => rfl

theorem Opens.peers_eq {files f : GossipFiles} : Opens files f → f.peers = files.peers
  | .none => rfl
  | .identity _ _ => rfl

/-- What a command does to `.vcs/gossip` once the store is open: nothing,
save a canonical `peers.json`, or write to the end of `ops.log` the line of
one operation that verifies, as much of it as the write `io` gets out. -/
inductive Writes (lib : Stdlib) (io : Write) (f : GossipFiles) : GossipFiles → Prop
  | none : Writes lib io f f
  | peers (peers : List Bytes) : Canonical peers → Writes lib io f { f with peers := peers }
  | ops (op : Operation) : Verified lib op →
      Writes lib io f { f with ops := f.ops ++ io.written (opsLine lib op) }

theorem Writes.peerCall {io : Write} (c : PeerCall) {s : Store} (hs : Canonical s.peers)
    (f : GossipFiles) : Writes lib io f { f with peers := (c.run lib (s, f.peers)).2 } := by
  rcases c.run_canonical hs f.peers with h | h
  · rw [h]
    exact .none
  · exact .peers _ h

/-- What a run can do: what `openGossipStore` does, then what the command
writes. -/
theorem StoreCommand.run_writes (cmd : StoreCommand) (env : StoreEnv) (files : GossipFiles) :
    ∃ f, Opens files f ∧ (cmd.args ≠ [] → f = (openGossipStore lib decode env files).2) ∧
      Writes lib env.opsWrite f (cmd.run lib decode env files).files := by
  rcases cmd with (_ | ⟨sub, rest⟩) | (_ | ⟨sub, rest⟩)
  · exact ⟨files, .none, fun h => absurd rfl h, .none⟩
  · obtain ⟨h₁, -⟩ := @openGossipStore_opens lib decode env files
    show ∃ f, _ ∧ _ ∧ Writes lib env.opsWrite f (cmdOp lib decode env files (sub :: rest)).files
    unfold cmdOp
    rcases h : openGossipStore lib decode env files with ⟨_ | s, f⟩ <;> rw [h] at h₁ <;> dsimp only
    · exact ⟨f, h₁, fun _ => rfl, .none⟩
    refine ⟨f, h₁, fun _ => rfl, ?_⟩
    split_ifs
    · split
      · exact .none
      · rcases appendLocalOp_log_new env.now env.opsWrite s f.ops _ _ with h | ⟨op, hv, h⟩ <;>
          rw [h]
        · exact .none
        · exact .ops op hv
    · split
      · exact .none
      · split_ifs <;> exact .none
    · exact .none
  · exact ⟨files, .none, fun h => absurd rfl h, .none⟩
  · obtain ⟨h₁, hc⟩ := @openGossipStore_opens lib decode env files
    show ∃ f, _ ∧ _ ∧ Writes lib env.opsWrite f (cmdPeer lib decode env files (sub :: rest)).files
    unfold cmdPeer
    rcases h : openGossipStore lib decode env files with ⟨_ | s, f⟩ <;> rw [h] at h₁ hc <;>
      dsimp only
    · exact ⟨f, h₁, fun _ => rfl, .none⟩
    refine ⟨f, h₁, fun _ => rfl, ?_⟩
    have hs := hc s rfl
    split_ifs <;> (try split) <;> first
      | exact .none
      | exact Writes.peerCall (.add env.peersWrite _) hs f
      | exact Writes.peerCall (.remove env.peersWrite _) hs f

/-! ## Over whole runs -/

/-- `files'` keeps every byte of `ops.log` in `files` and adds at most `n`
newlines after them, and keeps the identity `files` holds. -/
def Extends (n : Nat) (files files' : GossipFiles) : Prop :=
  (∃ added, files'.ops = files.ops ++ added ∧ added.count 0x0A ≤ n) ∧
    ∀ i, files.identity = some i → files'.identity = some i

theorem Extends.refl (files : GossipFiles) : Extends 0 files files :=
  ⟨⟨[], (List.append_nil _).symm, le_rfl⟩, fun _ h => h⟩

theorem Extends.trans {m n : Nat} {f₁ f₂ f₃ : GossipFiles} (h₁ : Extends m f₁ f₂)
    (h₂ : Extends n f₂ f₃) : Extends (m + n) f₁ f₃ := by
  obtain ⟨⟨a, ha, hal⟩, hi⟩ := h₁
  obtain ⟨⟨b, hb, hbl⟩, hi'⟩ := h₂
  exact ⟨⟨a ++ b, by rw [hb, ha, List.append_assoc], by rw [List.count_append]; omega⟩,
    fun i h => hi' i (hi i h)⟩

theorem Opens.extends {files f : GossipFiles} : Opens files f → Extends 0 files f
  | .none => Extends.refl files
  | .identity _ h => ⟨⟨[], (List.append_nil _).symm, le_rfl⟩, fun _ h' => by rw [h] at h'; cases h'⟩

theorem Writes.extends {io : Write} {f f' : GossipFiles} : Writes lib io f f' → Extends 1 f f'
  | .none => ⟨⟨[], (List.append_nil _).symm, Nat.zero_le 1⟩, fun _ h => h⟩
  | .peers _ _ => ⟨⟨[], (List.append_nil _).symm, Nat.zero_le 1⟩, fun _ h => h⟩
  | .ops _ hv => ⟨⟨_, rfl, count_newline_written hv io⟩, fun _ h => h⟩

/-- `ops.log` only grows.  Whatever the runs and whatever they meet, failed
and short writes and errors included, every byte `ops.log` held stays where
it was, at most one newline a run is added after them, and an identity once
written stays. -/
theorem cliRun_appends_only (runs : List (StoreEnv × StoreCommand)) (files : GossipFiles) :
    (∃ added, (cliRun lib decode runs files).ops = files.ops ++ added ∧
      added.count 0x0A ≤ runs.length) ∧
      ∀ i, files.identity = some i → (cliRun lib decode runs files).identity = some i := by
  induction runs generalizing files with
  | nil => exact Extends.refl files
  | cons r runs ih =>
    obtain ⟨f, ho, -, hw⟩ := @StoreCommand.run_writes lib decode r.2 r.1 files
    rw [List.length_cons, Nat.add_comm, ← Nat.zero_add 1]
    exact (ho.extends.trans hw.extends).trans (ih _)

/-- A command writes to `ops.log` at most once, the line of an operation that
verifies. -/
theorem Writes.verified {io : Write} {f f' : GossipFiles} :
    Writes lib io f f' → ∃ ops : List Operation, ops.length ≤ 1 ∧
      f'.ops = f.ops ++ ops.flatMap (fun op => io.written (opsLine lib op)) ∧
      ∀ op ∈ ops, Verified lib op
  | .none => ⟨[], Nat.zero_le 1, (List.append_nil _).symm, nofun⟩
  | .peers _ _ => ⟨[], Nat.zero_le 1, (List.append_nil _).symm, nofun⟩
  | .ops op hv => ⟨[op], le_rfl, by simp, by simpa using hv⟩

/-- `vcs` writes only operations that verify.  Whatever the runs and whatever
they meet, a foreign or damaged identity and short writes included, what they
add to `ops.log` is a sequence of writes, each of the line `json.Marshal`
gives an operation that passes `verifyOperation`, made by distinct runs in
order and cut as that run's write was: when no write is short, whole records
of verified operations. -/
theorem cliRun_appends_verified (runs : List (StoreEnv × StoreCommand)) (files : GossipFiles) :
    ∃ ws : List (Operation × Write),
      (cliRun lib decode runs files).ops =
        files.ops ++ ws.flatMap (fun w => w.2.written (opsLine lib w.1)) ∧
      (∀ w ∈ ws, Verified lib w.1) ∧ (ws.map Prod.snd).Sublist (runs.map fun r => r.1.opsWrite) := by
  induction runs generalizing files with
  | nil => exact ⟨[], (List.append_nil _).symm, nofun, .slnil⟩
  | cons r runs ih =>
    obtain ⟨f, ho, -, hw⟩ := @StoreCommand.run_writes lib decode r.2 r.1 files
    obtain ⟨ws, hws, hv, hsub⟩ := ih (r.2.run lib decode r.1 files).files
    obtain ⟨ops, hlen, hlog, hvl⟩ := hw.verified
    rw [ho.ops_eq] at hlog
    have hops : (cliRun lib decode (r :: runs) files).ops =
        files.ops ++ (ops.map (·, r.1.opsWrite) ++ ws).flatMap fun w => w.2.written (opsLine lib w.1) := by
      show (cliRun lib decode runs (r.2.run lib decode r.1 files).files).ops = _
      rw [hws, hlog, List.flatMap_append, List.append_assoc]
      simp only [List.flatMap, List.map_map]
      rfl
    rcases ops with _ | ⟨op, _ | ⟨_, _⟩⟩
    · exact ⟨ws, by simpa using hops, hv, hsub.cons _⟩
    · refine ⟨(op, r.1.opsWrite) :: ws, by simpa using hops, ?_, hsub.cons₂ _⟩
      exact List.forall_mem_cons.mpr ⟨hvl op (List.mem_singleton_self op), hv⟩
    · simp at hlen

theorem Writes.peers_canonical {io : Write} {f f' : GossipFiles} :
    Writes lib io f f' → f'.peers = f.peers ∨ Canonical f'.peers
  | .none => .inl rfl
  | .peers _ h => .inr h
  | .ops _ _ => .inl rfl

/-- Every `peers.json` that `vcs` writes is canonical.  Whatever the runs meet
and whatever `peers.json` held before them, hand-edited included, it ends as
it was, or sorted as `sort.Strings` sorts and without duplicates. -/
theorem cliRun_peers_canonical (runs : List (StoreEnv × StoreCommand)) (files : GossipFiles) :
    (cliRun lib decode runs files).peers = files.peers ∨ Canonical (cliRun lib decode runs files).peers := by
  induction runs generalizing files with
  | nil => exact .inl rfl
  | cons r runs ih =>
    obtain ⟨f, ho, -, hw⟩ := @StoreCommand.run_writes lib decode r.2 r.1 files
    show (cliRun lib decode runs (r.2.run lib decode r.1 files).files).peers = _ ∨
      Canonical (cliRun lib decode runs (r.2.run lib decode r.1 files).files).peers
    rcases ih (r.2.run lib decode r.1 files).files with h | h
    · rw [h, ← ho.peers_eq]
      exact hw.peers_canonical
    · exact .inr h

end Cli

end Dqrvcs

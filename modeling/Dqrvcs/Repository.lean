/-
# `Dqrvcs.Repository` — `OpenStore`, and a repository that reopens as it was

`store.go` lines 70–101.  `OpenStore` checks the root, creates `.vcs/gossip`,
then loads the three files in turn: `identity.json` (or, when it does not
exist, generates a key pair and writes it), `peers.json`, and `ops.log`.  The
first error stops it, and nothing but the generated identity is written.

A handle then changes the repository through two independent halves of its
state: the operation log (`Dqrvcs.Store`) and the peer list (`Dqrvcs.Peers`).
`RepoCall` is a call of either, and a run may interleave them freely.

What holds: on an empty directory `OpenStore` generates the identity of the key
pair it draws and writes it (`openStore_fresh`).  After any run whose writes
all succeed, the next `OpenStore` of the repository — whatever key pair it would
draw and whether its own writes would succeed — opens exactly the handle the
run ended with, its payloads as `json.Marshal` compacted them, provided every
line fits the scanner, `json.Unmarshal` reads each back, and every saved peer
is a fixed point of `normalizePeer` (`reopen_repository`).  The three files
together are a faithful representation of the handle.
-/
import Dqrvcs.Persist
import Dqrvcs.Identity

namespace Dqrvcs

/-- The files of `.vcs/gossip` as `OpenStore` finds them.  `identity.json` is
the record it decodes to, `none` when it does not exist; `peers.json` is the
list it holds and `ops.log` its bytes, each empty when the file does not
exist, which `loadPeers` and `loadOps` read as they read an empty file. -/
structure GossipFiles where
  identity : Option Identity
  peers : List Bytes
  ops : Bytes

/-- The errors of `OpenStore` once `identity.json` and `peers.json` are read
and decoded. -/
inductive OpenError
  | rootEmpty
  | createDir
  | identityWrite
  | identity (e : IdentityError)
  | peers (e : PeerError)
  | ops (e : LoadError)
deriving DecidableEq, Repr

/-- The text of each error, less the I/O error it wraps. -/
def OpenError.message : OpenError → Bytes
  | .rootEmpty => ascii "repo root cannot be empty"
  | .createDir => ascii "create gossip dir"
  | .identityWrite => ascii "write temp JSON file"
  | .identity e => ascii e.message
  | .peers e => e.message
  | .ops e => e.message

variable (lib : Stdlib)

/-- `OpenStore(repoRoot)` on the files `files`: the handle, and the files
after it.  `key` is the key pair `ed25519.GenerateKey(rand.Reader)` would draw,
`createDir` whether `os.MkdirAll` succeeds, `io` whether `writeJSONAtomic` of a
generated identity does, and `decode` is `json.Unmarshal` of a line of
`ops.log`. -/
def OpenStore (key : KeyPair) (createDir io : Bool) (decode : Bytes → Option Operation)
    (repoRoot : Bytes) (files : GossipFiles) : Except OpenError (Store × GossipFiles) :=
  if trimSpace repoRoot = [] then .error .rootEmpty else
  if !createDir then .error .createDir else
  let loaded : Except OpenError (Identity × Bytes × GossipFiles) :=
    match files.identity with
    | none =>
      if io then
        .ok (generateIdentity lib key, key.priv lib,
          { files with identity := some (generateIdentity lib key) })
      else .error .identityWrite
    | some identity =>
      match loadIdentity lib identity with
      | .error e => .error (.identity e)
      | .ok (identity, privateKey) => .ok (identity, privateKey, files)
  match loaded with
  | .error e => .error e
  | .ok (identity, privateKey, files) =>
    match loadPeers lib (some files.peers) with
    | .error e => .error (.peers e)
    | .ok peers =>
      match loadOps lib decode (Store.empty identity privateKey peers) files.ops with
      | .error e => .error (.ops e)
      | .ok s => .ok (s, files)

theorem loadPeers_some_nil : loadPeers lib (some []) = loadPeers lib none := rfl

/-- A call of an open handle: of its operation log or of its peer list. -/
inductive RepoCall
  | log (c : LogCall)
  | peer (c : PeerCall)

/-- A call whose writes all succeed. -/
def RepoCall.Persists : RepoCall → Prop
  | .log c => c.Persists
  | .peer c => c.Saves

/-- The handle, `ops.log` and `peers.json` after one call;
`identity.json` is written only by `OpenStore`. -/
def RepoCall.run (lib : Stdlib) : RepoCall → Store × Bytes × List Bytes →
    Store × Bytes × List Bytes
  | .log c, (s, records, saved) =>
    let st := c.run lib (s, records)
    (st.1, st.2, saved)
  | .peer c, (s, records, saved) =>
    let st := c.run lib (s, saved)
    (st.1, records, st.2)

/-- The repository after a sequence of calls, in order. -/
def runRepo (lib : Stdlib) (start : Store × Bytes × List Bytes) (calls : List RepoCall) :
    Store × Bytes × List Bytes :=
  calls.foldl (fun st c => c.run lib st) start

variable {lib}

/-! ## The two halves do not interfere -/

theorem MemStep.frame {s s' : Store} (h : MemStep lib s s') :
    s'.identity = s.identity ∧ s'.privateKey = s.privateKey ∧ s'.peers = s.peers := by
  cases h <;> exact ⟨rfl, rfl, rfl⟩

theorem PeerCall.run_store (c : PeerCall) (st : Store × List Bytes) :
    (c.run lib st).1 = { st.1 with peers := (c.run lib st).1.peers } := by
  obtain ⟨s, file⟩ := st
  cases c with
  | add io raw =>
    show (AddPeer lib io s file raw).store = { s with peers := (AddPeer lib io s file raw).store.peers }
    unfold AddPeer savePeersLocked
    split
    · rfl
    · split
      · rfl
      · split <;> rfl
  | remove io raw =>
    show (RemovePeer lib io s file raw).store =
      { s with peers := (RemovePeer lib io s file raw).store.peers }
    unfold RemovePeer savePeersLocked
    split
    · rfl
    · split
      · rfl
      · split <;> rfl

theorem LogInv.with_peers {s : Store} (h : LogInv lib s) (peers : List Bytes) :
    LogInv lib { s with peers := peers } :=
  ⟨h.ids_nodup, h.keys_nodup, h.opIDs_iff, h.index_iff, h.seqByAuthor_none, h.seqByAuthor_some,
    h.verified⟩

/-! ## The run lemma -/

/-- What a repository keeps along runs whose writes succeed: the handle
satisfies `LogInv` and `ops.log` is the text of its records, `peers.json`
holds its peers sorted and without duplicates, and its keys are those it was
opened with. -/
structure RepoInv (lib : Stdlib) (identity : Identity) (privateKey : Bytes)
    (st : Store × Bytes × List Bytes) : Prop where
  log : LogInv lib st.1
  persisted : opsLogText lib st.1.ops = st.2.1
  peers : PeersInv (st.1, st.2.2)
  identity : st.1.identity = identity
  privateKey : st.1.privateKey = privateKey

/-- The step lemma: a call whose writes succeed keeps `RepoInv`. -/
theorem RepoInv.run {identity : Identity} {privateKey : Bytes} {c : RepoCall} (hc : c.Persists)
    {st : Store × Bytes × List Bytes} (h : RepoInv lib identity privateKey st) :
    RepoInv lib identity privateKey (c.run lib st) := by
  obtain ⟨s, records, saved⟩ := st
  obtain ⟨hinv, hlog, ⟨hsaved, hsorted, hnodup⟩, hid, hpriv⟩ := h
  cases c with
  | log c =>
    have hmem : MemStep lib s (c.run lib (s, records)).1 := memStep_run c (s, records)
    obtain ⟨hi, hk, hp⟩ := hmem.frame
    dsimp only [RepoCall.run]
    refine ⟨hinv.memStep hmem, ?_, ⟨?_, ?_, ?_⟩, hi.trans hid, hk.trans hpriv⟩
    · exact ops_eq_log_of_persisted [c] (by simpa using hc) (s, records) hlog
    · exact hsaved.trans hp.symm
    · exact hp ▸ hsorted
    · exact hp ▸ hnodup
  | peer c =>
    have hs := @PeerCall.run_store lib c (s, saved)
    have hpeers := @PeersInv.run lib c hc _ ⟨hsaved, hsorted, hnodup⟩
    dsimp only [RepoCall.run]
    refine ⟨?_, ?_, hpeers, ?_, ?_⟩ <;> rw [hs]
    exacts [hinv.with_peers _, hlog, hid, hpriv]

theorem RepoInv.runRepo {identity : Identity} {privateKey : Bytes} :
    ∀ (calls : List RepoCall), (∀ c ∈ calls, c.Persists) →
      ∀ {st : Store × Bytes × List Bytes},
        RepoInv lib identity privateKey st →
          RepoInv lib identity privateKey (runRepo lib st calls)
  | [], _, _, h => h
  | c :: cs, hc, _, h =>
    RepoInv.runRepo cs (fun c' h' => hc c' (List.mem_cons_of_mem c h'))
      (h.run (hc c (List.mem_cons_self c cs)))

/-! ## Reopening -/

/-- `loadOps` replays into the handle it is given: the keys and peers stay. -/
theorem replayOps_frame : ∀ (L : List Operation) {s s' : Store} (line : Nat),
    replayOps lib line s L = .ok s' →
      s'.identity = s.identity ∧ s'.privateKey = s.privateKey ∧ s'.peers = s.peers
  | [], _, _, _, h => by cases h; exact ⟨rfl, rfl, rfl⟩
  | op :: L, s, s', line, h => by
    unfold replayOps loadRecord at h
    split at h
    · cases h
    · obtain ⟨hi, hk, hp⟩ := replayOps_frame L (line + 1) h
      obtain ⟨hi', hk', hp'⟩ := (@memStep_addOperationLocked lib false .whole s [] op).frame
      exact ⟨hi.trans hi', hk.trans hk', hp.trans hp'⟩

/-- The text of a handle's records loads back, into a handle with any keys and
peers, as the handle itself with its payloads compacted. -/
theorem loadOps_text_of_logInv {s : Store} (hinv : LogInv lib s) (identity : Identity)
    (privateKey : Bytes) (peers : List Bytes) {decode : Bytes → Option Operation}
    (hdec : ∀ op ∈ s.ops, decode (marshalOperation lib op) = some (reloaded lib op))
    (hfit : ∀ op ∈ s.ops, (marshalOperation lib op).length < maxTokenSize) :
    loadOps lib decode (Store.empty identity privateKey peers) (opsLogText lib s.ops) =
      .ok { s with identity := identity, privateKey := privateKey, peers := peers,
                   ops := s.ops.map (reloaded lib) } := by
  obtain ⟨s', hr, hops, hs'⟩ := replayOps_of_nodup (s.ops.map (reloaded lib)) 0
    (logInv_empty identity privateKey peers)
    (fun _ hop => by
      obtain ⟨o, ho, rfl⟩ := List.mem_map.mp hop
      exact (hinv.verified o ho).reloaded)
    (show ((s.ops.map (reloaded lib)).map Operation.id).Nodup by
      rw [List.map_map]; exact hinv.ids_nodup)
    (show ((s.ops.map (reloaded lib)).map opKey).Nodup by
      rw [List.map_map]; exact hinv.keys_nodup)
  replace hops : s'.ops = s.ops.map (reloaded lib) := hops
  obtain ⟨hI, hX, hS⟩ := hs'.indices_eq hinv fun t => by rw [hops, List.map_map]; exact Iff.rfl
  obtain ⟨hi, hk, hp⟩ := replayOps_frame _ 0 hr
  rw [loadOps_opsLogText hinv.verified hdec hfit, hr]
  obtain ⟨i, k, o, ids, sba, asi, p⟩ := s'
  dsimp only at hops hI hX hS hi hk hp
  subst hops hI hX hS hi hk hp
  rfl

/-- On an empty `.vcs/gossip`, `OpenStore` generates the identity of the key
pair it draws, writes it, and opens a handle with no peers and no operations. -/
theorem openStore_fresh (key : KeyPair) (decode : Bytes → Option Operation) {root : Bytes}
    (hroot : trimSpace root ≠ []) :
    OpenStore lib key true true decode root ⟨none, [], []⟩ =
      .ok (Store.empty (generateIdentity lib key) (key.priv lib) [],
        ⟨some (generateIdentity lib key), [], []⟩) := by
  simp only [OpenStore, hroot, if_false, Bool.not_true, Bool.false_eq_true, if_true]
  rfl

/-- The files of a repository that keeps `RepoInv` open as its handle, its
payloads compacted, under any key pair `OpenStore` would draw and whether or
not its own writes would succeed. -/
theorem RepoInv.openStore {key key' : KeyPair} {io' : Bool} {root : Bytes}
    (hroot : trimSpace root ≠ []) {decode : Bytes → Option Operation}
    {st : Store × Bytes × List Bytes}
    (h : RepoInv lib (generateIdentity lib key) (key.priv lib) st)
    (hdec : ∀ op ∈ st.1.ops, decode (marshalOperation lib op) = some (reloaded lib op))
    (hfit : ∀ op ∈ st.1.ops, (marshalOperation lib op).length < maxTokenSize)
    (hfix : ∀ p ∈ st.2.2, normalizePeer lib p = .ok p) :
    OpenStore lib key' true io' decode root ⟨some (generateIdentity lib key), st.2.2, st.2.1⟩ =
      .ok ({ st.1 with ops := st.1.ops.map (reloaded lib) },
        ⟨some (generateIdentity lib key), st.2.2, st.2.1⟩) := by
  obtain ⟨hinv, hlog, ⟨hsaved, hsorted, hnodup⟩, hid, hpriv⟩ := h
  have hpeers : loadPeers lib (some st.2.2) = .ok st.2.2 := by
    rw [loadPeers, loadPeersLoop_of_fixed [] _ hfix (by rwa [hsaved])]
    exact congrArg Except.ok (List.Sorted.insertionSort_eq (hsaved ▸ hsorted))
  simp only [OpenStore, hroot, if_false, Bool.not_true, Bool.false_eq_true,
    loadIdentity_generateIdentity, hpeers]
  rw [← hlog, loadOps_text_of_logInv hinv _ _ _ hdec hfit, hsaved, ← hid, ← hpriv]

/-- A repository reopens as the run left it.  The first `OpenStore` on an
empty `.vcs/gossip` generates and saves an identity; after any interleaving of
operation and peer calls whose writes all succeed, the next `OpenStore` — with
any key pair it would draw and whether or not its own writes would succeed —
opens exactly the handle the run ended with, its payloads compacted, when every
line of `ops.log` fits the scanner, `json.Unmarshal` reads each back, and
every saved peer is a fixed point of `normalizePeer`. -/
theorem reopen_repository (key key' : KeyPair) (io' : Bool) {root : Bytes}
    (hroot : trimSpace root ≠ []) (decode : Bytes → Option Operation) (calls : List RepoCall)
    (hc : ∀ c ∈ calls, c.Persists)
    (hdec : ∀ op ∈ (runRepo lib (Store.empty (generateIdentity lib key) (key.priv lib) [], [], [])
      calls).1.ops, decode (marshalOperation lib op) = some (reloaded lib op))
    (hfit : ∀ op ∈ (runRepo lib (Store.empty (generateIdentity lib key) (key.priv lib) [], [], [])
      calls).1.ops, (marshalOperation lib op).length < maxTokenSize)
    (hfix : ∀ p ∈ (runRepo lib (Store.empty (generateIdentity lib key) (key.priv lib) [], [], [])
      calls).2.2, normalizePeer lib p = .ok p) :
    let opened := Store.empty (generateIdentity lib key) (key.priv lib) []
    let st := runRepo lib (opened, [], []) calls
    let files : GossipFiles := ⟨some (generateIdentity lib key), st.2.2, st.2.1⟩
    OpenStore lib key true true decode root ⟨none, [], []⟩ =
        .ok (opened, ⟨some (generateIdentity lib key), [], []⟩) ∧
      OpenStore lib key' true io' decode root files =
        .ok ({ st.1 with ops := st.1.ops.map (reloaded lib) }, files) := by
  intro opened st files
  exact ⟨openStore_fresh key decode hroot, RepoInv.openStore hroot
    (RepoInv.runRepo calls hc ⟨logInv_empty _ _ _, rfl, ⟨rfl, .nil, .nil⟩, rfl, rfl⟩) hdec hfit hfix⟩

set_option maxRecDepth 4000 in
/-- The theorem at a repository where one `git.push` is recorded and one peer
added. -/
theorem reopen_repository_push :
    let key : KeyPair := ⟨List.replicate 32 0, rfl⟩
    let opened := Store.empty (generateIdentity Stdlib.withURL key) (key.priv Stdlib.withURL) []
    let st := runRepo Stdlib.withURL (opened, [], [])
      [.log (.appendLocal ⟨1970, 1, 1, 0, 0, 0, 0, by decide⟩ .whole (ascii "git.push") emptyObject),
        .peer (.add true (ascii "127.0.0.1:8787"))]
    let decode : Bytes → Option Operation := fun line =>
      (st.1.ops.find? fun op => marshalOperation Stdlib.withURL op = line).map
        (reloaded Stdlib.withURL)
    let files : GossipFiles :=
      ⟨some (generateIdentity Stdlib.withURL key), st.2.2, st.2.1⟩
    OpenStore Stdlib.withURL key true true decode (ascii "/repo") ⟨none, [], []⟩ =
        .ok (opened, ⟨some (generateIdentity Stdlib.withURL key), [], []⟩) ∧
      OpenStore Stdlib.withURL key true true decode (ascii "/repo") files =
        .ok ({ st.1 with ops := st.1.ops.map (reloaded Stdlib.withURL) }, files) :=
  reopen_repository _ _ true (by rw [trimSpace_of_graphic (by decide)]; decide) _ _
    (by simp [RepoCall.Persists, LogCall.Persists, PeerCall.Saves]) (by decide) (by decide)
    (by intro p hp; exact eq_ok_of_toOption (by revert p; decide))

end Dqrvcs

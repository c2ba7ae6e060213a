/-
# `Dqrvcs.Peers` — the peer list

`store.go`'s `normalizePeer`, `AddPeer` and `RemovePeer`.  A handle's peers
are the sorted list `s.peers`; `peers.json` is the list it last saved.
`writeJSONAtomic` writes a temporary file and renames it over `peers.json`, so
a failed save leaves the file as it was; whether the save succeeds is the
argument `io`, as for `ops.log`.

Both mutators change `s.peers` before they save and do not undo the change
when the save fails: `addPeer_save_failed` and `removePeer_save_failed` say
so.

`loadPeers` normalizes every entry of `peers.json` again.  That gives back
what `savePeersLocked` wrote only when each entry is a fixed point of
`normalizePeer`, and `normalizePeer` strips one trailing `/` where a path may
end in two: `http://h/a//` normalizes to `http://h/a/`, which normalizes to
`http://h/a` (`normalizePeer_not_idempotent`).

What holds along any run of `AddPeer` and `RemovePeer` whose saves succeed:
`peers.json` holds the handle's list, sorted and without duplicates, and
`loadPeers` reads it back unchanged whenever its entries are fixed points of
`normalizePeer` (`peers_reload`, from the step lemma `PeersInv.run`).
-/
import Dqrvcs.Store

namespace Dqrvcs

/-- The errors of `normalizePeer` and of saving `peers.json`. -/
inductive PeerError
  | empty
  | invalidURL
  | scheme
  | hostRequired
  | queryOrFragment
  | saveFailed
deriving DecidableEq, Repr

/-- The text of each error, less the error it wraps. -/
def PeerError.message : PeerError → Bytes
  | .empty => ascii "peer address cannot be empty"
  | .invalidURL => ascii "invalid peer URL"
  | .scheme => ascii "peer URL scheme must be http or https"
  | .hostRequired => ascii "peer URL host is required"
  | .queryOrFragment => ascii "peer URL cannot include query or fragment"
  | .saveFailed => ascii "write temp JSON file"

/-- `strings.TrimSuffix(s, "/")`. -/
def trimSlash (s : Bytes) : Bytes :=
  if [0x2F] <:+ s then s.dropLast else s

/-- `sort.Strings`. -/
def sortStrings (l : List Bytes) : List Bytes :=
  l.insertionSort fun a b => bytesLt b a = false

variable (lib : Stdlib)

/-- `normalizePeer`. -/
def normalizePeer (raw : Bytes) : Except PeerError Bytes :=
  let raw := trimSpace raw
  if raw = [] then .error .empty else
  let raw := if ascii "://" <:+: raw then raw else ascii "http://" ++ raw
  match lib.parseURL raw with
  | none => .error .invalidURL
  | some u =>
    if u.scheme ≠ ascii "http" ∧ u.scheme ≠ ascii "https" then .error .scheme
    else if u.host = [] then .error .hostRequired
    else if u.rawQuery ≠ [] ∨ u.fragment ≠ [] then .error .queryOrFragment
    else
      let path := trimSlash u.path
      let path := if path = [0x2F] then [] else path
      .ok (lib.urlString { u with path := path })

/-- What a peer call returns, the handle after it, and `peers.json` after it. -/
structure PeerOutcome where
  result : Except PeerError Bytes
  store : Store
  peersFile : List Bytes

/-- `savePeersLocked`: `peers.json` holds the handle's list, or is unchanged
when the write fails. -/
def savePeersLocked (io : Bool) (s : Store) (peersFile : List Bytes) (normalized : Bytes) :
    PeerOutcome :=
  if io then ⟨.ok normalized, s, s.peers⟩ else ⟨.error .saveFailed, s, peersFile⟩

/-- `AddPeer`. -/
def AddPeer (io : Bool) (s : Store) (peersFile : List Bytes) (raw : Bytes) : PeerOutcome :=
  match normalizePeer lib raw with
  | .error e => ⟨.error e, s, peersFile⟩
  | .ok normalized =>
    if normalized ∈ s.peers then ⟨.ok normalized, s, peersFile⟩
    else savePeersLocked io { s with peers := sortStrings (s.peers ++ [normalized]) } peersFile
      normalized

/-- `RemovePeer`. -/
def RemovePeer (io : Bool) (s : Store) (peersFile : List Bytes) (raw : Bytes) : PeerOutcome :=
  match normalizePeer lib raw with
  | .error e => ⟨.error e, s, peersFile⟩
  | .ok normalized =>
    let s' := { s with peers := s.peers.filter (· != normalized) }
    if normalized ∉ s.peers then ⟨.ok normalized, s', peersFile⟩
    else savePeersLocked io s' peersFile normalized

/-- The loop of `loadPeers`: normalize each entry and keep it unless it is
already kept (the `seen` set is the list kept so far). -/
def loadPeersLoop : List Bytes → List Bytes → Except PeerError (List Bytes)
  | kept, [] => .ok kept
  | kept, peer :: rest =>
    match normalizePeer lib peer with
    | .error e => .error e
    | .ok norm =>
      if norm ∈ kept then loadPeersLoop kept rest else loadPeersLoop (kept ++ [norm]) rest

/-- `loadPeers`, from the decoded `peers.json`; `none` when the file does not
exist. -/
def loadPeers (peersFile : Option (List Bytes)) : Except PeerError (List Bytes) :=
  match peersFile with
  | none => .ok []
  | some peers => (loadPeersLoop lib [] peers).map sortStrings

variable {lib}

/-- `AddPeer` of a new peer whose save fails reports the error and keeps the
peer in memory; `peers.json` is unchanged. -/
theorem addPeer_save_failed {s : Store} {peersFile : List Bytes} {raw normalized : Bytes}
    (hn : normalizePeer lib raw = .ok normalized) (hnew : normalized ∉ s.peers) :
    AddPeer lib false s peersFile raw =
      ⟨.error .saveFailed, { s with peers := sortStrings (s.peers ++ [normalized]) }, peersFile⟩ := by
  simp [AddPeer, hn, hnew, savePeersLocked]

/-- `RemovePeer` of a present peer whose save fails reports the error and
drops the peer from memory; `peers.json` is unchanged. -/
theorem removePeer_save_failed {s : Store} {peersFile : List Bytes} {raw normalized : Bytes}
    (hn : normalizePeer lib raw = .ok normalized) (hmem : normalized ∈ s.peers) :
    RemovePeer lib false s peersFile raw =
      ⟨.error .saveFailed, { s with peers := s.peers.filter (· != normalized) }, peersFile⟩ := by
  simp [RemovePeer, hn, hmem, savePeersLocked]

/-- Every error of `normalizePeer` is reported before anything changes. -/
theorem peer_normalize_error {io : Bool} {s : Store} {peersFile : List Bytes} {raw : Bytes}
    {e : PeerError} (he : normalizePeer lib raw = .error e) :
    AddPeer lib io s peersFile raw = ⟨.error e, s, peersFile⟩ ∧
      RemovePeer lib io s peersFile raw = ⟨.error e, s, peersFile⟩ := by
  simp [AddPeer, RemovePeer, he]

/-! ## Normalizing twice -/

/-- `s` cut at the first byte `c`: what precedes it, and what follows it when
it occurs. -/
def cutAt (c : UInt8) (s : Bytes) : Bytes × Option Bytes :=
  match s.span (· != c) with
  | (pre, []) => (pre, none)
  | (pre, _ :: post) => (pre, some post)

/-- `url.Parse` on `scheme://host/path?query#fragment`, split as Go splits it:
the fragment at the first `#`, the query at the first `?`, the scheme at the
first `:` and lowercased, the host up to the next `/`. -/
def parseHierURL (s : Bytes) : Option URL :=
  let (s, fragment) := cutAt 0x23 s
  let (s, query) := cutAt 0x3F s
  match cutAt 0x3A s with
  | (scheme, some (0x2F :: 0x2F :: authority)) =>
    let (host, path) := authority.span (· != 0x2F)
    some ⟨scheme.map foldByte, host, path, query.getD [], fragment.getD [], []⟩
  | _ => none

/-- `URL.String` on a URL with a host and a path needing no escape. -/
def hierURLString (u : URL) : Bytes :=
  u.scheme ++ ascii "://" ++ u.host ++ u.path ++
    (if u.rawQuery = [] then [] else 0x3F :: u.rawQuery) ++
    (if u.fragment = [] then [] else 0x23 :: u.fragment)

/-- A lawful library whose `url.Parse` and `URL.String` are `parseHierURL`
and `hierURLString`. -/
def Stdlib.withURL : Stdlib :=
  { Stdlib.degenerate with parseURL := parseHierURL, urlString := hierURLString }

/-- The failing input of idempotence: `http://h/a//` normalizes to
`http://h/a/`, which normalizes to `http://h/a`.  `AddPeer` of the first
saves the second, and the next `loadPeers` reads back the third. -/
theorem normalizePeer_not_idempotent :
    normalizePeer Stdlib.withURL (ascii "http://h/a//") = .ok (ascii "http://h/a/") ∧
      normalizePeer Stdlib.withURL (ascii "http://h/a/") = .ok (ascii "http://h/a") ∧
      (AddPeer Stdlib.withURL true (Store.empty ⟨[], [], []⟩ [] []) []
        (ascii "http://h/a//")).peersFile = [ascii "http://h/a/"] ∧
      loadPeers Stdlib.withURL (some [ascii "http://h/a/"]) = .ok [ascii "http://h/a"] :=
  ⟨rfl, rfl, rfl, rfl⟩

/-! ## The saved list over runs -/

instance : IsTotal Bytes fun a b => bytesLt b a = false := ⟨fun a b => by
  by_cases h : a = b
  · exact .inl (h ▸ bytesLt_irrefl a)
  · rcases bytesLt_total h with h' | h'
    · exact .inl (bytesLt_asymm h')
    · exact .inr (bytesLt_asymm h')⟩

instance : IsTrans Bytes fun a b => bytesLt b a = false := ⟨fun a b c hab hbc => by
  cases h : bytesLt c a
  · rfl
  by_cases e : a = b
  · subst e
    rw [h] at hbc
    cases hbc
  rcases bytesLt_total e with hlt | hlt
  · rw [bytesLt_trans h hlt] at hbc
    cases hbc
  · rw [hlt] at hab
    cases hab⟩

/-- A call on the peer list, with whether its save of `peers.json` succeeds. -/
inductive PeerCall
  | add (io : Bool) (raw : Bytes)
  | remove (io : Bool) (raw : Bytes)

/-- A call whose save succeeds. -/
def PeerCall.Saves : PeerCall → Prop
  | .add io _ => io = true
  | .remove io _ => io = true

/-- The handle and `peers.json` after one call. -/
def PeerCall.run (lib : Stdlib) : PeerCall → Store × List Bytes → Store × List Bytes
  | .add io raw, (s, file) =>
    let r := AddPeer lib io s file raw
    (r.store, r.peersFile)
  | .remove io raw, (s, file) =>
    let r := RemovePeer lib io s file raw
    (r.store, r.peersFile)

/-- The handle and `peers.json` after a sequence of calls. -/
def runPeerCalls (lib : Stdlib) (start : Store × List Bytes) (calls : List PeerCall) :
    Store × List Bytes :=
  calls.foldl (fun st c => c.run lib st) start

/-- What the peer list keeps while every save succeeds: `peers.json` holds the
handle's list, sorted as `sort.Strings` sorts and without duplicates. -/
structure PeersInv (st : Store × List Bytes) : Prop where
  saved : st.2 = st.1.peers
  sorted : st.1.peers.Sorted fun a b => bytesLt b a = false
  nodup : st.1.peers.Nodup

/-- The step lemma: a call whose save succeeds keeps `PeersInv`. -/
theorem PeersInv.run {c : PeerCall} (hc : c.Saves) {st : Store × List Bytes} (h : PeersInv st) :
    PeersInv (c.run lib st) := by
  obtain ⟨s, file⟩ := st
  obtain ⟨hsaved, hsorted, hnodup⟩ := h
  dsimp only at hsaved hsorted hnodup
  cases c with
  | add io raw =>
    obtain rfl : io = true := hc
    show PeersInv ((AddPeer lib true s file raw).store, (AddPeer lib true s file raw).peersFile)
    unfold AddPeer
    rcases normalizePeer lib raw with e | n
    · exact ⟨hsaved, hsorted, hnodup⟩
    dsimp only
    split_ifs with hn
    · exact ⟨hsaved, hsorted, hnodup⟩
    · exact ⟨rfl, List.sorted_insertionSort _ _,
        (List.perm_insertionSort _ _).nodup_iff.mpr (hnodup.append (List.nodup_singleton n)
          (List.disjoint_singleton.mpr hn))⟩
  | remove io raw =>
    obtain rfl : io = true := hc
    show PeersInv ((RemovePeer lib true s file raw).store,
      (RemovePeer lib true s file raw).peersFile)
    unfold RemovePeer
    rcases normalizePeer lib raw with e | n
    · exact ⟨hsaved, hsorted, hnodup⟩
    dsimp only
    have hf : PeersInv ({ s with peers := s.peers.filter (· != n) }, s.peers.filter (· != n)) :=
      ⟨rfl, hsorted.filter _, hnodup.filter _⟩
    split_ifs with hn
    · exact hf
    · refine ⟨?_, hf.2, hf.3⟩
      rw [hsaved]
      exact (List.filter_eq_self.mpr fun x hx => bne_iff_ne.mpr fun e : x = n => hn (e ▸ hx)).symm

theorem PeersInv.runPeerCalls : ∀ (calls : List PeerCall), (∀ c ∈ calls, c.Saves) →
    ∀ {st : Store × List Bytes}, PeersInv st → PeersInv (runPeerCalls lib st calls)
  | [], _, _, h => h
  | c :: cs, hc, _, h =>
    PeersInv.runPeerCalls cs (fun c' h' => hc c' (List.mem_cons_of_mem c h'))
      (h.run (hc c (List.mem_cons_self c cs)))

/-- The loop of `loadPeers` on distinct fixed points of `normalizePeer` keeps
each of them. -/
theorem loadPeersLoop_of_fixed : ∀ (kept file : List Bytes),
    (∀ p ∈ file, normalizePeer lib p = .ok p) → (kept ++ file).Nodup →
      loadPeersLoop lib kept file = .ok (kept ++ file)
  | kept, [], _, _ => by rw [loadPeersLoop, List.append_nil]
  | kept, p :: rest, hfix, hnd => by
    have hp : p ∉ kept := fun hk => (List.nodup_append.mp hnd).2.2 hk (List.mem_cons_self p rest)
    rw [loadPeersLoop, hfix p (List.mem_cons_self p rest)]
    dsimp only
    rw [if_neg hp, loadPeersLoop_of_fixed (kept ++ [p]) rest
      (fun q hq => hfix q (List.mem_cons_of_mem p hq)) (by simpa using hnd)]
    simp

/-- The peer list over any run of `AddPeer` and `RemovePeer` whose saves all
succeed, from a handle opened on a repository without `peers.json`:
`peers.json` holds the handle's list, sorted and without duplicates, and the
next `loadPeers` reads it back as it is whenever each entry is a fixed point
of `normalizePeer`, which `normalizePeer_not_idempotent` shows is not always
so. -/
theorem peers_reload (identity : Identity) (privateKey : Bytes) (calls : List PeerCall)
    (hc : ∀ c ∈ calls, c.Saves) :
    let st := runPeerCalls lib (Store.empty identity privateKey [], []) calls
    st.2 = st.1.peers ∧ st.2.Sorted (fun a b => bytesLt b a = false) ∧ st.2.Nodup ∧
      ((∀ p ∈ st.2, normalizePeer lib p = .ok p) → loadPeers lib (some st.2) = .ok st.2) := by
  intro st
  obtain ⟨hsaved, hsorted, hnodup⟩ : PeersInv st := PeersInv.runPeerCalls calls hc ⟨rfl, .nil, .nil⟩
  rw [hsaved]
  refine ⟨rfl, hsorted, hnodup, fun hfix => ?_⟩
  rw [loadPeers, loadPeersLoop_of_fixed [] _ hfix hnodup]
  exact congrArg Except.ok (List.Sorted.insertionSort_eq hsorted)

/-- The theorem under `Stdlib.withURL` at three added peers, the last two
alike once normalized and a fourth removed: the saved list is sorted, each
entry is a fixed point of `normalizePeer`, and `loadPeers` reads it back. -/
theorem peers_reload_add :
    let st := runPeerCalls Stdlib.withURL (Store.empty ⟨[], [], []⟩ [] [], [])
      [.add true (ascii "https://b.example/"), .add true (ascii "a.example"),
        .add true (ascii "HTTP://a.example"), .remove true (ascii "c.example")]
    st.2 = [ascii "http://a.example", ascii "https://b.example"] ∧ st.2 = st.1.peers ∧
      st.2.Sorted (fun a b => bytesLt b a = false) ∧ st.2.Nodup ∧
      (∀ p ∈ st.2, normalizePeer Stdlib.withURL p = .ok p) ∧
      loadPeers Stdlib.withURL (some st.2) = .ok st.2 :=
  have h := @peers_reload Stdlib.withURL ⟨[], [], []⟩ []
    [.add true (ascii "https://b.example/"), .add true (ascii "a.example"),
      .add true (ascii "HTTP://a.example"), .remove true (ascii "c.example")]
    (by simp [PeerCall.Saves])
  have hfix : ∀ p ∈ [ascii "http://a.example", ascii "https://b.example"],
      normalizePeer Stdlib.withURL p = .ok p := by
    simp only [List.mem_cons, List.mem_singleton, List.not_mem_nil, or_false]
    rintro p (rfl | rfl) <;> rfl
  have hst : (runPeerCalls Stdlib.withURL (Store.empty ⟨[], [], []⟩ [] [], [])
      [.add true (ascii "https://b.example/"), .add true (ascii "a.example"),
        .add true (ascii "HTTP://a.example"), .remove true (ascii "c.example")]).2 =
      [ascii "http://a.example", ascii "https://b.example"] := by decide
  ⟨hst, h.1, h.2.1, h.2.2.1, hst ▸ hfix, h.2.2.2 (hst ▸ hfix)⟩

end Dqrvcs

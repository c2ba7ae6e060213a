/-
# `Dqrvcs.Persist` — `ops.log` on disk, and `loadOps`

`appendOpLocked` writes each operation as one line at the end of `ops.log`:
its `json.Marshal` encoding, then a newline (`opsLine`).  `OpenStore` rebuilds
a handle with `loadOps`, which reads the file with a `bufio.Scanner` whose
buffer stops growing at 4 MiB, cuts it into lines (`scanLines`), decodes each
non-blank line with `json.Unmarshal`, and adds the record with
`addOperationLocked` without persisting, stopping at the first error.

A line written whole holds one newline, at its end, since `json.Marshal`
escapes a newline inside a string and compacts a raw payload: the scanner
reads back exactly the lines written (`scanLines_opsLogText`).  A write that
stops short leaves a torn line without its newline, and the next append
continues that line.  The decoder is left abstract: `loadOps` takes it as an
argument.  `replayOps` is the loop of `loadOps` over the records once
decoded.

A line that does not fit the scanner's buffer stops `loadOps` with
`bufio.ErrTooLong`, and nothing bounds an operation's type: `AppendLocalOp`
accepts a type of 4 MiB, writes it, and every later `OpenStore` of the
repository fails (`reload_fails_long_type`).

Otherwise the file round-trips.  `json.Unmarshal` reads a line back as
`reloaded`: the payload as `json.Marshal` compacted it, the strings as they
were when they are valid UTF-8.  A record read back keeps its ID, its key and
its signed bytes, so it still verifies.  After any run on a new repository of
local and remote appends whose writes are all whole, `ops.log` is the text of
the handle's records, and `loadOps` rebuilds the handle's indices exactly, and
its `Ops` and `MissingFor` up to the compaction (`reopen_after_persisted_run`).
-/
import Dqrvcs.Atomicity

namespace Dqrvcs

/-! ## Lines -/

/-- `bufio.ScanLines` from inside a line, `cur` being what the line holds so
far: a newline ends the line, and at the end of the text the line counts
unless it is empty. -/
def scanLinesFrom (cur : Bytes) : Bytes → List Bytes
  | [] => if cur = [] then [] else [cur]
  | b :: rest => if b = 0x0A then cur :: scanLinesFrom [] rest else scanLinesFrom (cur ++ [b]) rest

/-- The lines a `bufio.Scanner` cuts `text` into, less their newlines.  The
`\r` that `ScanLines` drops before a newline is kept here: the buffer holds it,
and `loadOps`'s `TrimSpace` drops it anyway. -/
def scanLines (text : Bytes) : List Bytes := scanLinesFrom [] text

@[simp] theorem scanLines_nil : scanLines [] = [] := rfl

theorem scanLinesFrom_line {line : Bytes} (h : (0x0A : UInt8) ∉ line) (cur rest : Bytes) :
    scanLinesFrom cur (line ++ 0x0A :: rest) = (cur ++ line) :: scanLines rest := by
  induction line generalizing cur with
  | nil => simp [scanLinesFrom, scanLines]
  | cons b line ih =>
    have hb : b ≠ 0x0A := fun e => h (e ▸ List.mem_cons_self _ _)
    rw [List.cons_append, scanLinesFrom, if_neg hb, ih fun h' => h (List.mem_cons_of_mem _ h')]
    simp

theorem scanLinesFrom_last {line : Bytes} (h : (0x0A : UInt8) ∉ line) (cur : Bytes) :
    scanLinesFrom cur line = if cur ++ line = [] then [] else [cur ++ line] := by
  induction line generalizing cur with
  | nil => simp [scanLinesFrom]
  | cons b line ih =>
    have hb : b ≠ 0x0A := fun e => h (e ▸ List.mem_cons_self _ _)
    rw [scanLinesFrom, if_neg hb, ih fun h' => h (List.mem_cons_of_mem _ h')]
    simp

variable (lib : Stdlib)

/-- The scanner reads back the lines whole writes left: one a record. -/
theorem scanLines_opsLogText {L : List Operation}
    (h : ∀ op ∈ L, (0x0A : UInt8) ∉ marshalOperation lib op) :
    scanLines (opsLogText lib L) = L.map (marshalOperation lib) := by
  induction L with
  | nil => rfl
  | cons op L ih =>
    have e : opsLogText lib (op :: L) = marshalOperation lib op ++ 0x0A :: opsLogText lib L := by
      simp [opsLogText, opsLine]
    rw [e, scanLines, scanLinesFrom_line (h op (List.mem_cons_self _ _)), List.nil_append,
      ih fun o ho => h o (List.mem_cons_of_mem _ ho), List.map_cons]

/-- The limit `loadOps` gives its scanner: `scanner.Buffer(..., 4*1024*1024)`.
A line fits when it and its newline do. -/
def maxTokenSize : Nat := 4 * 1024 * 1024

/-- The errors of `loadOps`. -/
inductive LoadError
  | decode (line : Nat)
  | load (line : Nat) (e : StoreError)
  | tooLong
deriving DecidableEq, Repr

/-- The text of each error, less the error it wraps. -/
def LoadError.message : LoadError → Bytes
  | .decode line => ascii "decode operation at line " ++ formatUint line
  | .load line e => ascii "load operation at line " ++ formatUint line ++ ascii ": " ++ e.message
  | .tooLong => ascii "scan ops log: bufio.Scanner: token too long"

/-- One decoded record of `ops.log` at line `line`, added without persisting. -/
def loadRecord (line : Nat) (s : Store) (op : Operation) : Except LoadError Store :=
  match (addOperationLocked lib false .whole s [] op).result with
  | .error e => .error (.load line e)
  | .ok _ => .ok (addOperationLocked lib false .whole s [] op).store

/-- The loop of `loadOps`: `line` lines are read already. -/
def loadOpsLoop (decode : Bytes → Option Operation) : Nat → Store → List Bytes →
    Except LoadError Store
  | _, s, [] => .ok s
  | line, s, text :: rest =>
    if maxTokenSize < text.length + 1 then .error .tooLong else
    let raw := trimSpace text
    if raw = [] then loadOpsLoop decode (line + 1) s rest else
    match decode raw with
    | none => .error (.decode (line + 1))
    | some op =>
      match loadRecord lib (line + 1) s op with
      | .error e => .error e
      | .ok s => loadOpsLoop decode (line + 1) s rest

/-- `loadOps` on the handle `OpenStore` has built so far, reading the text of
`ops.log` with the decoder `decode`. -/
def loadOps (decode : Bytes → Option Operation) (s : Store) (text : Bytes) :
    Except LoadError Store :=
  loadOpsLoop lib decode 0 s (scanLines text)

/-- The loop of `loadOps` over the records the lines decode to. -/
def replayOps : Nat → Store → List Operation → Except LoadError Store
  | _, s, [] => .ok s
  | line, s, op :: rest => (loadRecord lib (line + 1) s op).bind fun s => replayOps (line + 1) s rest

/-- What `json.Unmarshal` reads back from the line `json.Marshal` wrote for
`op`, when its strings are valid UTF-8: the payload as written, compacted, and
every other field as it was. -/
def reloaded (op : Operation) : Operation :=
  { op with payload := if op.payload = [] then [] else lib.jsonCompact op.payload }

theorem length_type_lt_marshalOperation (op : Operation) :
    op.type.length < (marshalOperation lib op).length := by
  have := length_lt_encodeString op.type
  simp only [marshalOperation, List.length_append]
  omega

/-- A line that does not fit the scanner's buffer stops `loadOps` there. -/
theorem loadOpsLoop_tooLong (decode : Bytes → Option Operation) {line : Nat} {s : Store}
    {text : Bytes} (rest : List Bytes) (h : maxTokenSize < text.length + 1) :
    loadOpsLoop lib decode line s (text :: rest) = .error .tooLong := by
  simp [loadOpsLoop, h]

variable {lib}

/-- A record that verifies and that the handle admits is added. -/
theorem loadRecord_of_admits {line : Nat} {s : Store} {op : Operation} (hv : Verified lib op)
    (ha : s.Admits op) : loadRecord lib line s op = .ok (s.insert op) := by
  unfold loadRecord
  rw [addOperationLocked_result_of_admits hv ha, addOperationLocked_store,
    if_pos (And.intro hv ha)]
  rfl

/-- A record in conflict with the index stops the load at its line. -/
theorem loadRecord_conflict {line : Nat} {s : Store} {op : Operation} (hv : Verified lib op)
    (hid : s.opIDs op.id = false)
    (hkey : (s.authorSeqIndex (authorSeqKey op.author op.seq)).any (· != op.id) = true) :
    loadRecord lib line s op = .error (.load line (.conflict op.author op.seq)) := by
  simp [loadRecord, addOperationLocked_conflict hv hid hkey]

/-! ## Reading `ops.log` back -/

@[simp] theorem reloaded_author (op : Operation) : (reloaded lib op).author = op.author := rfl
@[simp] theorem reloaded_seq (op : Operation) : (reloaded lib op).seq = op.seq := rfl

@[simp] theorem idKey_reloaded (op : Operation) : idKey (reloaded lib op) = idKey op := rfl

/-- The signed bytes of a record read back are those of the record written:
they hold the payload compacted already. -/
theorem canonicalOperationBytes_reloaded {op : Operation} {signable : Bytes}
    (h : canonicalOperationBytes lib op = .ok signable) :
    canonicalOperationBytes lib (reloaded lib op) = .ok signable := by
  by_cases hp : op.payload = []
  · have : reloaded lib op = op := by
      cases op
      simp only at hp
      subst hp
      simp [reloaded]
    rwa [this]
  · have hv : lib.jsonValid op.payload = true := by
      by_contra hn
      simp [canonicalOperationBytes, hp, hn] at h
    simpa [canonicalOperationBytes, reloaded, hp, lib.compact_ne_nil hv, lib.valid_compact _ hv,
      lib.compact_compact _ hv, hv] using h

/-- A record read back verifies as the record written did, under the same ID. -/
theorem Verified.reloaded {op : Operation} (h : Verified lib op) :
    Verified lib (reloaded lib op) := by
  obtain ⟨pub, sig, signable, h₁, h₂, h₃, h₄, h₅, hc, h₆, h₇⟩ := h.keys
  exact ⟨h.id_ne, h.type_ne, h.author_ne, h.seq_ne, h.timestamp_parses, pub, sig, signable,
    h₁, h₂, h₃, h₄, h₅, canonicalOperationBytes_reloaded hc, h₆, h₇⟩

theorem marshalOperation_ends (op : Operation) :
    (marshalOperation lib op).head? = some 0x7B ∧
      (marshalOperation lib op).reverse.head? = some 0x7D := by
  simp only [marshalOperation, List.append_assoc, List.reverse_append]
  exact ⟨rfl, rfl⟩

theorem trimSpace_marshalOperation (op : Operation) :
    trimSpace (marshalOperation lib op) = marshalOperation lib op := by
  obtain ⟨h₁, h₂⟩ := @marshalOperation_ends lib op
  exact trimSpace_of_ends (fun b hb => Option.some.inj (h₁.symm.trans hb) ▸ by decide)
    fun b hb => Option.some.inj (h₂.symm.trans hb) ▸ by decide

/-- Reading back lines that fit the scanner and that the decoder reads as
`json.Unmarshal` does is replaying the records read back. -/
theorem loadOpsLoop_marshal {decode : Bytes → Option Operation} :
    ∀ (line : Nat) (s : Store) (L : List Operation),
      (∀ op ∈ L, decode (marshalOperation lib op) = some (reloaded lib op)) →
      (∀ op ∈ L, (marshalOperation lib op).length < maxTokenSize) →
      loadOpsLoop lib decode line s (L.map (marshalOperation lib)) =
        replayOps lib line s (L.map (reloaded lib))
  | _, _, [], _, _ => rfl
  | line, s, op :: L, hdec, hfit => by
    have hne : marshalOperation lib op ≠ [] := fun e => by
      simpa [e] using (@marshalOperation_ends lib op).1
    have hlt := hfit op (List.mem_cons_self _ _)
    simp only [List.map_cons, loadOpsLoop, replayOps, trimSpace_marshalOperation,
      hne, hdec op (List.mem_cons_self _ _), if_false, show ¬ maxTokenSize <
        (marshalOperation lib op).length + 1 by omega]
    cases loadRecord lib (line + 1) s (reloaded lib op) with
    | error e => rfl
    | ok s' =>
      exact loadOpsLoop_marshal (line + 1) s' L
        (fun o ho => hdec o (List.mem_cons_of_mem _ ho))
        fun o ho => hfit o (List.mem_cons_of_mem _ ho)

/-- `loadOps` of the text whole writes of verified records leave is the replay
of the records read back, when every line fits and decodes. -/
theorem loadOps_opsLogText {decode : Bytes → Option Operation} {s : Store} {L : List Operation}
    (hv : ∀ op ∈ L, Verified lib op)
    (hdec : ∀ op ∈ L, decode (marshalOperation lib op) = some (reloaded lib op))
    (hfit : ∀ op ∈ L, (marshalOperation lib op).length < maxTokenSize) :
    loadOps lib decode s (opsLogText lib L) = replayOps lib 0 s (L.map (reloaded lib)) := by
  rw [loadOps, scanLines_opsLogText lib fun op hop =>
    newline_not_mem_marshalOperation lib (hv op hop).payload_valid]
  exact loadOpsLoop_marshal 0 s L hdec hfit

theorem fresh_of_nodup {ops : List Operation} {op : Operation}
    (hid : ((ops ++ [op]).map Operation.id).Nodup) (hkey : ((ops ++ [op]).map opKey).Nodup) :
    Fresh ops op := fun o ho => by
  simp only [List.map_append, List.map_singleton, List.nodup_append,
    List.disjoint_singleton] at hid hkey
  refine ⟨fun e => hid.2.2 (e ▸ List.mem_map_of_mem _ ho), fun ⟨ea, es⟩ => hkey.2.2 ?_⟩
  have : opKey o = opKey op := by simp [opKey, ea, es]
  exact this ▸ List.mem_map_of_mem _ ho

/-- Replaying verified records whose IDs and keys are fresh and distinct adds
them all, and the handle keeps `LogInv`. -/
theorem replayOps_of_nodup : ∀ (L : List Operation) {s : Store} (line : Nat), LogInv lib s →
    (∀ op ∈ L, Verified lib op) → ((s.ops ++ L).map Operation.id).Nodup →
    ((s.ops ++ L).map opKey).Nodup →
    ∃ s', replayOps lib line s L = .ok s' ∧ s'.ops = s.ops ++ L ∧ LogInv lib s'
  | [], s, _, h, _, _, _ => ⟨s, rfl, (List.append_nil _).symm, h⟩
  | op :: L, s, line, h, hv, hid, hkey => by
    have hid' : (((s.ops ++ [op]) ++ L).map Operation.id).Nodup := by simpa using hid
    have hkey' : (((s.ops ++ [op]) ++ L).map opKey).Nodup := by simpa using hkey
    rw [List.map_append] at hid' hkey'
    have ha : s.Admits op :=
      h.admits_iff.mpr (fresh_of_nodup hid'.of_append_left hkey'.of_append_left)
    have hv₀ := hv op (List.mem_cons_self _ _)
    obtain ⟨s', hr, hops, hs'⟩ := replayOps_of_nodup L (line + 1) (h.insert hv₀ ha)
      (fun o ho => hv o (List.mem_cons_of_mem _ ho)) (by simpa using hid) (by simpa using hkey)
    refine ⟨s', ?_, by simp [hops], hs'⟩
    simp only [replayOps, loadRecord_of_admits hv₀ ha, Except.bind, hr]

/-- The sort orders records read back as it ordered the records written. -/
theorem sortOps_map_reloaded (ops : List Operation) :
    sortOps (ops.map (reloaded lib)) = (sortOps ops).map (reloaded lib) :=
  (List.map_insertionSort _ _ (reloaded lib) ops fun _ _ _ _ => Iff.rfl).symm

theorem collectMissing_map_reloaded (summary : Bytes → Option UInt64) (limit : Int) :
    ∀ (out L : List Operation), collectMissing summary limit (out.map (reloaded lib))
      (L.map (reloaded lib)) = (collectMissing summary limit out L).map (reloaded lib)
  | _, [] => rfl
  | out, op :: L => by
    have ih := fun out => collectMissing_map_reloaded summary limit out L
    simp only [List.map_cons, collectMissing, reloaded_author, reloaded_seq, List.length_map]
    split_ifs <;> simp [← ih]

theorem Ops_map_reloaded {s s' : Store} (h : s'.ops = s.ops.map (reloaded lib)) (limit : Int) :
    Ops s' limit = (Ops s limit).map (reloaded lib) := by
  simp only [Ops, h, sortOps_map_reloaded, List.length_map]
  split_ifs <;> simp [List.map_drop]

theorem MissingFor_map_reloaded {s s' : Store} (h : s'.ops = s.ops.map (reloaded lib))
    (summary : Bytes → Option UInt64) (limit : Int) :
    MissingFor s' summary limit = (MissingFor s summary limit).map (reloaded lib) := by
  simp only [MissingFor, h, sortOps_map_reloaded]
  exact collectMissing_map_reloaded summary limit [] _

/-- The failing input of the round trip: on a fresh handle, `AppendLocalOp`
of a type of `maxTokenSize` letters and `{}` succeeds and writes its line, and
`loadOps` of the file then fails whatever the decoder: the next `OpenStore` of
the repository does. -/
theorem reload_fails_long_type (decode : Bytes → Option Operation) (k : KeyPair) (now : Time)
    (peers : List Bytes) :
    ∃ op : Operation,
      (AppendLocalOp lib now .whole (Store.empty (generateIdentity lib k) (k.priv lib) peers) []
        (List.replicate maxTokenSize 0x61) emptyObject).result = .ok op ∧
      loadOps lib decode (Store.empty (generateIdentity lib k) (k.priv lib) peers)
        (AppendLocalOp lib now .whole (Store.empty (generateIdentity lib k) (k.priv lib) peers) []
          (List.replicate maxTokenSize 0x61) emptyObject).log = .error .tooLong := by
  have hτ : trimSpace (List.replicate maxTokenSize 0x61) = List.replicate maxTokenSize 0x61 :=
    trimSpace_of_graphic fun b hb => List.eq_of_mem_replicate hb ▸ by decide
  obtain ⟨op, hv, hty, -, -, -, -, h⟩ := @appendLocalOp_empty lib k now .whole peers []
    (List.replicate maxTokenSize 0x61) (by
      rw [hτ]
      exact List.ne_nil_of_length_pos (by rw [List.length_replicate]; decide))
  rw [h]
  refine ⟨op, rfl, ?_⟩
  have hlines : scanLines (opsLogText lib [op]) = [op].map (marshalOperation lib) :=
    scanLines_opsLogText lib fun o ho =>
      List.mem_singleton.mp ho ▸ newline_not_mem_marshalOperation lib hv.payload_valid
  rw [show [] ++ Write.whole.written (opsLine lib op) = opsLogText lib [op] by
    simp only [List.nil_append, opsLogText_singleton, Write.written], loadOps, hlines]
  refine loadOpsLoop_tooLong lib decode [] ?_
  have := length_type_lt_marshalOperation lib op
  rw [hty, hτ, List.length_replicate] at this
  omega

/-- The round trip of `ops.log`: after any run of local and remote appends on
a new repository whose writes are all whole, `ops.log` is the text of the
handle's records, and the next `OpenStore` succeeds when every line fits the
scanner and `json.Unmarshal` reads each back as `json.Marshal` wrote it.  The
handle it opens holds the running handle's operations with their payloads
compacted, each verifying under its ID; it has the running handle's indices,
and answers `Summary`, `Ops` and `MissingFor` as that handle does, up to the
compaction. -/
theorem reopen_after_persisted_run (identity : Identity) (privateKey : Bytes)
    (peers : List Bytes) (calls : List LogCall) (hc : ∀ c ∈ calls, c.Persists)
    (decode : Bytes → Option Operation)
    (hdec : ∀ op ∈ (runCalls lib (Store.empty identity privateKey peers, []) calls).1.ops,
      decode (marshalOperation lib op) = some (reloaded lib op))
    (hfit : ∀ op ∈ (runCalls lib (Store.empty identity privateKey peers, []) calls).1.ops,
      (marshalOperation lib op).length < maxTokenSize) :
    let st := runCalls lib (Store.empty identity privateKey peers, []) calls
    st.2 = opsLogText lib st.1.ops ∧
    ∃ s, loadOps lib decode (Store.empty identity privateKey peers) st.2 = .ok s ∧
      s.ops = st.1.ops.map (reloaded lib) ∧ (∀ op ∈ s.ops, Verified lib op) ∧
      s.opIDs = st.1.opIDs ∧ s.authorSeqIndex = st.1.authorSeqIndex ∧
      Summary s = Summary st.1 ∧
      (∀ limit, Ops s limit = (Ops st.1 limit).map (reloaded lib)) ∧
      ∀ summary limit,
        MissingFor s summary limit = (MissingFor st.1 summary limit).map (reloaded lib) := by
  intro st
  have hinv : LogInv lib st.1 := (logInv_empty identity privateKey peers).runCalls calls
  have hlog : opsLogText lib st.1.ops = st.2 := ops_eq_log_of_persisted calls hc _ rfl
  obtain ⟨s, hr, hops, hs⟩ := replayOps_of_nodup (st.1.ops.map (reloaded lib)) 0
    (logInv_empty identity privateKey peers)
    (fun _ hop => by
      obtain ⟨o, ho, rfl⟩ := List.mem_map.mp hop
      exact (hinv.verified o ho).reloaded)
    (show ((st.1.ops.map (reloaded lib)).map Operation.id).Nodup by
      rw [List.map_map]; exact hinv.ids_nodup)
    (show ((st.1.ops.map (reloaded lib)).map opKey).Nodup by
      rw [List.map_map]; exact hinv.keys_nodup)
  replace hops : s.ops = st.1.ops.map (reloaded lib) := hops
  obtain ⟨hI, hX, hS⟩ := hs.indices_eq hinv fun t => by rw [hops, List.map_map]; exact Iff.rfl
  refine ⟨hlog.symm, s, ?_, hops, hs.verified, hI, hX, hS, Ops_map_reloaded hops,
    MissingFor_map_reloaded hops⟩
  rw [← hlog, loadOps_opsLogText hinv.verified hdec hfit]
  exact hr

set_option maxRecDepth 8000 in
/-- The theorem under `Stdlib.separating` at a local `git.commit` and a
remote operation of another node, read back by the decoder that looks each
line up among the handle's records. -/
theorem reopen_after_persisted_run_two :
    let lib := Stdlib.separating
    let now : Time := ⟨1970, 1, 1, 0, 0, 0, 0, by decide⟩
    let handle (seed : UInt8) := Store.empty (generateIdentity lib ⟨List.replicate 32 seed, rfl⟩)
      (KeyPair.priv lib ⟨List.replicate 32 seed, rfl⟩) []
    let b := (runCalls lib (handle 2, []) [.appendLocal now .whole (ascii "git.push") []]).1.ops
    let calls := .appendLocal now .whole (ascii "git.commit") [] :: b.map (.addRemote .whole)
    let st := runCalls lib (handle 1, []) calls
    let decode (line : Bytes) := (st.1.ops.find? fun op => marshalOperation lib op = line).map
      (reloaded lib)
    ((∀ op ∈ st.1.ops, decode (marshalOperation lib op) = some (reloaded lib op)) ∧
      (∀ op ∈ st.1.ops, (marshalOperation lib op).length < maxTokenSize) ∧ st.1.ops.length = 2) ∧
    st.2 = opsLogText lib st.1.ops ∧
    ∃ s, loadOps lib decode (handle 1) st.2 = .ok s ∧
      s.ops = st.1.ops.map (reloaded lib) ∧ (∀ op ∈ s.ops, Verified lib op) ∧
      s.opIDs = st.1.opIDs ∧ s.authorSeqIndex = st.1.authorSeqIndex ∧
      Summary s = Summary st.1 ∧
      (∀ limit, Ops s limit = (Ops st.1 limit).map (reloaded lib)) ∧
      ∀ summary limit,
        MissingFor s summary limit = (MissingFor st.1 summary limit).map (reloaded lib) :=
  (fun h => ⟨h, reopen_after_persisted_run _ _ [] _
    (by simp [LogCall.Persists]) _ h.1 h.2.1⟩) (by decide)

end Dqrvcs

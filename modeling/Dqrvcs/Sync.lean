/-
# `Dqrvcs.Sync` — anti-entropy over the store primitives

A pull step has one store feed each operation of
`other.MissingFor(self.Summary(), limit)`, in order, to its own
`AddRemoteOp`.  `MissingFor` is the sorted slice filtered by
`seq > summary[author]` and cut after `limit` operations
(`missingFor_eq`).

For two stores whose logs are dense and consistent (a key held by both has
one ID, and an ID names one operation), what is proved is:

* the filter selects exactly what the puller lacks, so every operation of
  the step is stored: the puller's slice grows by the batch
  (`ops_pull`);
* the cut keeps, for each author, a prefix of the missing seqs, so the
  puller stays dense, and the pair stays consistent (`pull_preserves`);
* after any sequence of steps in either direction, once both directions
  return nothing, each store holds exactly the union of the two initial
  logs (`union_of_quiescent`).

What is not proved is that the steps are ever quiescent: that is a fact
about how often `SyncPeer` runs, which the store does not decide.
-/
import Dqrvcs.Density
import Dqrvcs.Order

namespace Dqrvcs

/-! ## `MissingFor` -/

/-- The test of `MissingFor`'s loop: `summary` lacks `op`. -/
def lacks (summary : Bytes → Option UInt64) (op : Operation) : Bool :=
  decide ((summary op.author).getD 0 < op.seq)

theorem collectMissing_eq (summary : Bytes → Option UInt64) (limit : Int) :
    ∀ (l out : List Operation), (limit ≤ 0 ∨ out.length < limit) →
      collectMissing summary limit out l = out ++
        if 0 < limit then (l.filter (lacks summary)).take (limit.toNat - out.length)
        else l.filter (lacks summary)
  | [], out, _ => by simp [collectMissing]
  | op :: rest, out, hout => by
    unfold collectMissing
    by_cases hp : (summary op.author).getD 0 < op.seq
    · have hl : lacks summary op = true := decide_eq_true hp
      rw [if_pos hp, List.filter_cons_of_pos hl]
      by_cases hcut : 0 < limit ∧ limit ≤ out.length + 1
      · rw [if_pos hcut, if_pos hcut.1, show limit.toNat - out.length = 0 + 1 by omega]
        simp
      · rw [if_neg hcut, collectMissing_eq summary limit rest (out ++ [op]) (by simp; omega)]
        split_ifs with hlim
        · rw [show limit.toNat - out.length = (limit.toNat - (out ++ [op]).length) + 1 by
            simp; omega]
          simp
        · simp
    · rw [if_neg hp, List.filter_cons_of_neg (by simpa [lacks] using hp)]
      exact collectMissing_eq summary limit rest out hout

/-- `MissingFor` is the sorted slice filtered by `lacks`, cut after `limit`
operations when `limit > 0`. -/
theorem missingFor_eq (s : Store) (summary : Bytes → Option UInt64) (limit : Int) :
    MissingFor s summary limit =
      if 0 < limit then ((sortOps s.ops).filter (lacks summary)).take limit.toNat
      else (sortOps s.ops).filter (lacks summary) := by
  rw [MissingFor, collectMissing_eq _ _ _ _ (by simp; omega)]
  simp

/-- `MissingFor`'s specification on every reachable handle: for every
summary (absent authors at `0`) and every limit, it is any list of the stored
operations the summary lacks, ordered by author and then by seq, cut to its
first `limit` elements when `limit > 0`.  Keys being unique, there is one such
list, so the result does not depend on the order the slice was built in. -/
theorem missingFor_spec (identity : Identity) (privateKey : Bytes) (peers : List Bytes)
    (log : Bytes) (calls : List LogCall) (summary : Bytes → Option UInt64)
    (limit : Int) (L : List Operation)
    (hperm : L.Perm ((runCalls lib (Store.empty identity privateKey peers, log) calls).1.ops.filter
      fun op => (summary op.author).getD 0 < op.seq))
    (hsorted : L.Pairwise fun a b =>
      bytesLt a.author b.author = true ∨ (a.author = b.author ∧ a.seq < b.seq)) :
    MissingFor (runCalls lib (Store.empty identity privateKey peers, log) calls).1 summary limit =
      if 0 < limit then L.take limit.toNat else L := by
  have h : LogInv lib (runCalls lib (Store.empty identity privateKey peers, log) calls).1 :=
    (logInv_empty identity privateKey peers).runCalls calls
  have hL : (sortOps (runCalls lib (Store.empty identity privateKey peers, log) calls).1.ops).filter
      (lacks summary) = L :=
    List.eq_of_perm_of_sorted (((sortOps_perm _).filter _).trans hperm.symm)
      ((sorted_opLt_sortOps h.keys_nodup).filter _) (hsorted.imp opLess_iff.mpr)
  rw [missingFor_eq, hL]

set_option maxRecDepth 8000 in
/-- The specification under `Stdlib.separating` on a handle holding its own
operation and two received from a node that sorts before it, against the
summary of that node after its first operation, with a limit of one: the
answer is the node's second operation, though the slice holds it last. -/
theorem missingFor_spec_two_authors :
    let lib := Stdlib.separating
    let now : Time := ⟨1970, 1, 1, 0, 0, 0, 0, by decide⟩
    let handle (seed : UInt8) := Store.empty (generateIdentity lib ⟨List.replicate 32 seed, rfl⟩)
      (KeyPair.priv lib ⟨List.replicate 32 seed, rfl⟩) []
    let a := (runCalls lib (handle 1, []) [.appendLocal now .whole (ascii "git.commit") [],
      .appendLocal now .whole (ascii "git.push") []]).1.ops
    let st := runCalls lib (handle 2, [])
      (.appendLocal now .whole (ascii "git.push") [] :: a.map (.addRemote .whole))
    let summary := Summary (runCalls lib (handle 1, [])
      [.appendLocal now .whole (ascii "git.commit") []]).1
    let L := (st.1.ops.filter fun op => (summary op.author).getD 0 < op.seq).reverse
    (st.1.ops.length = 3 ∧ L.length = 2 ∧ L.Pairwise fun a b =>
      bytesLt a.author b.author = true ∨ (a.author = b.author ∧ a.seq < b.seq)) ∧
      MissingFor st.1 summary 1 = L.take 1 :=
  (fun h => ⟨h, missingFor_spec _ _ [] [] _ _ 1 _ (List.reverse_perm _) h.2.2⟩) (by decide)

/-! ## The batch of a pull step -/

variable {lib : Stdlib}

theorem missingFor_sublist (s : Store) (summary : Bytes → Option UInt64) (limit : Int) :
    (MissingFor s summary limit).Sublist ((sortOps s.ops).filter (lacks summary)) := by
  rw [missingFor_eq]
  split_ifs
  · exact List.take_sublist _ _
  · exact List.Sublist.refl _

theorem mem_of_mem_missingFor {s : Store} {summary : Bytes → Option UInt64} {limit : Int}
    {op : Operation} (h : op ∈ MissingFor s summary limit) : op ∈ s.ops ∧ lacks summary op := by
  have := (missingFor_sublist s summary limit).subset h
  rw [List.mem_filter] at this
  exact ⟨(sortOps_perm _).subset this.1, this.2⟩

theorem nodup_map_missingFor {β : Type} (f : Operation → β) {s : Store}
    {summary : Bytes → Option UInt64} {limit : Int} (hf : (s.ops.map f).Nodup) :
    ((MissingFor s summary limit).map f).Nodup :=
  (((missingFor_sublist s summary limit).trans (List.filter_sublist _)).map f).nodup
    (((sortOps_perm _).map f).nodup_iff.mpr hf)

/-- A prefix of a strictly sorted list holds everything that sorts below its
members. -/
theorem mem_take_of_opLess {L : List Operation} (hs : L.Sorted opLt) {k : Nat}
    {o o' : Operation} (ho : o ∈ L.take k) (ho' : o' ∈ L) (hlt : opLess o' o = true) :
    o' ∈ L.take k := by
  rw [← List.take_append_drop k L] at hs ho'
  rcases List.mem_append.mp ho' with h | h
  · exact h
  · have : opLess o o' = true := (List.pairwise_append.mp hs).2.2 o ho o' h
    simp [opLess_asymm this] at hlt

/-- What the summary lacks of an author, below a member of the batch, is in
the batch: the cut at `limit` keeps a prefix of every author's missing seqs. -/
theorem mem_missingFor_of_opLess {s : Store} {summary : Bytes → Option UInt64} {limit : Int}
    (h : LogInv lib s) {o o' : Operation} (ho : o ∈ MissingFor s summary limit) (ho' : o' ∈ s.ops)
    (hl : lacks summary o') (hlt : opLess o' o = true) : o' ∈ MissingFor s summary limit := by
  have hF : o' ∈ (sortOps s.ops).filter (lacks summary) :=
    List.mem_filter.mpr ⟨(sortOps_perm _).symm.subset ho', hl⟩
  rw [missingFor_eq] at ho ⊢
  split_ifs at ho ⊢
  · exact mem_take_of_opLess ((sorted_opLt_sortOps h.keys_nodup).filter _) ho hF hlt
  · exact hF

/-! ## One pull step -/

/-- Two logs agree: a key held by both has one ID, and an ID names one
operation. -/
def Consistent (X Y : Store) : Prop :=
  ∀ x ∈ X.ops, ∀ y ∈ Y.ops, (opKey x = opKey y → x.id = y.id) ∧ (x.id = y.id → x = y)

theorem Consistent.symm {X Y : Store} (h : Consistent X Y) : Consistent Y X := fun y hy x hx =>
  ⟨fun e => ((h x hx y hy).1 e.symm).symm, fun e => ((h x hx y hy).2 e.symm).symm⟩

/-- One pull step: `dst` feeds each operation of
`src.MissingFor(dst.Summary(), limit)`, in order, to its `AddRemoteOp`. -/
def pull (lib : Stdlib) (io : Write) (src : Store) (dst : Store × Bytes) (limit : Int) :
    Store × Bytes :=
  runCalls lib dst ((MissingFor src (Summary dst.1) limit).map (LogCall.addRemote io))

/-- What the puller lacks is fresh at the puller. -/
theorem fresh_of_mem_missingFor {src dst : Store} {limit : Int} (hdst : LogInv lib dst)
    (hc : Consistent src dst) {o : Operation} (ho : o ∈ MissingFor src (Summary dst) limit) :
    Fresh dst.ops o := by
  obtain ⟨hos, hl⟩ := mem_of_mem_missingFor ho
  have hlt : dst.seqOf o.author < o.seq := of_decide_eq_true hl
  refine fun y hy => ⟨fun e => ?_, fun ⟨ea, es⟩ => ?_⟩
  · have := (hc o hos y hy).2 e.symm
    subst this
    exact absurd (hdst.seq_le_seqOf o hy) (UInt64.not_le.mpr hlt)
  · exact absurd (ea ▸ es ▸ hdst.seq_le_seqOf y hy) (UInt64.not_le.mpr hlt)

/-- Ingesting verified operations, each fresh at the start and distinct from
the others, appends them all. -/
theorem foldl_ingest_of_fresh : ∀ (B ops₀ : List Operation),
    (∀ b ∈ B, Verified lib b ∧ Fresh ops₀ b) → (B.map Operation.id).Nodup → (B.map opKey).Nodup →
      B.foldl (ingest lib) ops₀ = ops₀ ++ B
  | [], _, _, _, _ => by simp
  | b :: B, ops₀, h, hid, hkey => by
    have hb := h b (List.mem_cons_self _ _)
    rw [List.map_cons, List.nodup_cons] at hid hkey
    rw [List.foldl_cons, ingest, if_pos hb, foldl_ingest_of_fresh B (ops₀ ++ [b]) ?_ hid.2 hkey.2,
      List.append_assoc, List.singleton_append]
    refine fun b' hb' => ⟨(h b' (List.mem_cons_of_mem _ hb')).1,
      fresh_append.mpr ⟨(h b' (List.mem_cons_of_mem _ hb')).2, fun o ho => ?_⟩⟩
    obtain rfl := List.mem_singleton.mp ho
    exact ⟨fun e => hid.1 (e ▸ List.mem_map_of_mem _ hb'),
      fun ⟨ea, es⟩ => hkey.1 (by simpa [opKey, ea, es] using List.mem_map_of_mem opKey hb')⟩

theorem logInv_pull {io : Write} {src : Store} {dst : Store × Bytes} {limit : Int}
    (hdst : LogInv lib dst.1) : LogInv lib (pull lib io src dst limit).1 :=
  hdst.runCalls _

section Pull

variable {io : Write} {src : Store} {dst : Store × Bytes} {limit : Int}
  (hsrc : LogInv lib src) (hdst : LogInv lib dst.1) (hc : Consistent src dst.1)
include hsrc hdst hc

/-- Every operation of the batch is stored: the puller's slice grows by the
batch. -/
theorem ops_pull :
    (pull lib io src dst limit).1.ops = dst.1.ops ++ MissingFor src (Summary dst.1) limit := by
  have hB : ((MissingFor src (Summary dst.1) limit).map (LogCall.addRemote io)).filterMap
      LogCall.ingested = MissingFor src (Summary dst.1) limit := by
    rw [List.filterMap_map]
    exact List.filterMap_some _
  unfold pull
  rw [ops_runCalls_of_ingests _ _ hdst (by simp [LogCall.ingested]), hB]
  exact foldl_ingest_of_fresh _ _
    (fun b hb => ⟨hsrc.verified b (mem_of_mem_missingFor hb).1, fresh_of_mem_missingFor hdst hc hb⟩)
    (nodup_map_missingFor _ hsrc.ids_nodup) (nodup_map_missingFor _ hsrc.keys_nodup)

/-- The puller stays dense: below each member of the batch, what the puller
had and the rest of the batch hold every seq of its author. -/
theorem dense_pull (dsrc : Dense src) (ddst : Dense dst.1) :
    Dense (pull lib io src dst limit).1 := by
  rw [(logInv_pull hdst).dense_iff, ops_pull hsrc hdst hc]
  intro o ho n h₁ h₂
  rcases List.mem_append.mp ho with ho | ho
  · obtain ⟨o', ho', e⟩ := (hdst.dense_iff.mp ddst) o ho n h₁ h₂
    exact ⟨o', List.mem_append_left _ ho', e⟩
  rcases Nat.lt_or_ge n o.seq.toNat with hn | hn
  swap
  · exact ⟨o, List.mem_append_right _ ho, rfl, by omega⟩
  by_cases hd : n ≤ (dst.1.seqOf o.author).toNat
  · obtain ⟨o', ho', e⟩ := (ddst o.author n).mpr ⟨h₁, hd⟩
    exact ⟨o', List.mem_append_left _ ho', e⟩
  obtain ⟨o', ho', ea, es⟩ :=
    (hsrc.dense_iff.mp dsrc) o (mem_of_mem_missingFor ho).1 n h₁ h₂
  refine ⟨o', List.mem_append_right _ (mem_missingFor_of_opLess hsrc ho ho' ?_ ?_), ea, es⟩
  · exact decide_eq_true (show (dst.1.seqOf o'.author).toNat < o'.seq.toNat by rw [ea]; omega)
  · exact opLess_iff.mpr (.inr ⟨ea, show o'.seq.toNat < o.seq.toNat by omega⟩)

/-- The pair stays consistent: the batch is drawn from `src`, whose IDs and
keys are unique. -/
theorem consistent_pull : Consistent src (pull lib io src dst limit).1 := by
  intro x hx y hy
  rw [ops_pull hsrc hdst hc] at hy
  rcases List.mem_append.mp hy with hy | hy
  · exact hc x hx y hy
  · have hy := (mem_of_mem_missingFor hy).1
    exact ⟨fun e => congrArg Operation.id (List.inj_on_of_nodup_map hsrc.keys_nodup hx hy e),
      fun e => List.inj_on_of_nodup_map hsrc.ids_nodup hx hy e⟩

end Pull

/-! ## Quiescence -/

theorem mem_of_not_lacks {X Y : Store} (hX : LogInv lib X) (dY : Dense Y) (hc : Consistent X Y)
    {x : Operation} (hx : x ∈ X.ops) (hl : lacks (Summary Y) x = false) : x ∈ Y.ops := by
  have hle : x.seq.toNat ≤ (Y.seqOf x.author).toNat :=
    Nat.not_lt.mp (of_decide_eq_false hl)
  obtain ⟨y, hy, ea, es⟩ := (dY x.author x.seq.toNat).mpr ⟨(hX.verified x hx).seq_pos, hle⟩
  have hk : opKey x = opKey y := by simp [opKey, ea, UInt64.toNat.inj es]
  exact (hc x hx y hy).2 ((hc x hx y hy).1 hk) ▸ hy

theorem subset_of_missingFor_nil {X Y : Store} {limit : Int} (hX : LogInv lib X) (dY : Dense Y)
    (hc : Consistent X Y) (hq : MissingFor X (Summary Y) limit = []) : ∀ x ∈ X.ops, x ∈ Y.ops := by
  intro x hx
  refine mem_of_not_lacks hX dY hc hx (Bool.eq_false_iff.mpr fun hl => ?_)
  have hF : x ∈ (sortOps X.ops).filter (lacks (Summary Y)) :=
    List.mem_filter.mpr ⟨(sortOps_perm _).symm.subset hx, hl⟩
  rw [missingFor_eq] at hq
  split_ifs at hq with hlim
  · rcases List.take_eq_nil_iff.mp hq with h | h
    · omega
    · simp [h] at hF
  · simp [hq] at hF

theorem missingFor_nil_of_subset {X Y : Store} (hY : LogInv lib Y) (h : ∀ x ∈ X.ops, x ∈ Y.ops)
    (limit : Int) : MissingFor X (Summary Y) limit = [] := by
  have hF : (sortOps X.ops).filter (lacks (Summary Y)) = [] :=
    List.filter_eq_nil_iff.mpr fun x hx hl => absurd (hY.seq_le_seqOf x
      (h x ((sortOps_perm _).subset hx))) (UInt64.not_le.mpr (of_decide_eq_true hl))
  rw [missingFor_eq, hF, List.take_nil, ite_self]

section Pull

variable {io : Write} {src : Store} {dst : Store × Bytes} {limit : Int}
  (hsrc : LogInv lib src) (hdst : LogInv lib dst.1) (hc : Consistent src dst.1)
include hsrc hdst hc

/-- A pull with no limit leaves the puller holding everything the source
holds. -/
theorem subset_pull (ddst : Dense dst.1) (hl : limit ≤ 0) :
    ∀ x ∈ src.ops, x ∈ (pull lib io src dst limit).1.ops := by
  intro x hx
  rw [ops_pull hsrc hdst hc, List.mem_append]
  cases hlx : lacks (Summary dst.1) x
  · exact .inl (mem_of_not_lacks hsrc ddst hc hx hlx)
  · refine .inr ?_
    rw [missingFor_eq, if_neg (by omega)]
    exact List.mem_filter.mpr ⟨(sortOps_perm _).symm.subset hx, hlx⟩

end Pull

/-! ## Runs of pull steps -/

/-- A step of anti-entropy between `X` and `Y`: which side pulls, with which
limit, and whether its writes of `ops.log` succeed. -/
structure PullStep where
  yPulls : Bool
  limit : Int
  io : Write

/-- The pair after one step. -/
def PullStep.run (lib : Stdlib) (p : PullStep) (xy : (Store × Bytes) × (Store × Bytes)) :
    (Store × Bytes) × (Store × Bytes) :=
  if p.yPulls then (xy.1, pull lib p.io xy.1.1 xy.2 p.limit)
  else (pull lib p.io xy.2.1 xy.1 p.limit, xy.2)

/-- The pair after a sequence of steps. -/
def runPulls (lib : Stdlib) (steps : List PullStep)
    (xy : (Store × Bytes) × (Store × Bytes)) :
    (Store × Bytes) × (Store × Bytes) :=
  steps.foldl (fun xy p => p.run lib xy) xy

/-- What a run of pull steps keeps, relative to the initial logs `X₀`, `Y₀`. -/
structure SyncInv (lib : Stdlib) (X₀ Y₀ X Y : Store) : Prop where
  logInv_X : LogInv lib X
  logInv_Y : LogInv lib Y
  dense_X : Dense X
  dense_Y : Dense Y
  consistent : Consistent X Y
  union : ∀ o, o ∈ X.ops ∨ o ∈ Y.ops ↔ o ∈ X₀.ops ∨ o ∈ Y₀.ops

namespace SyncInv

variable {X₀ Y₀ X : Store}

theorem symm {Y : Store} (h : SyncInv lib X₀ Y₀ X Y) : SyncInv lib Y₀ X₀ Y X :=
  ⟨h.logInv_Y, h.logInv_X, h.dense_Y, h.dense_X, h.consistent.symm,
    fun o => or_comm.trans ((h.union o).trans or_comm)⟩

/-- A pull into `Y` from `X` keeps the invariant: the batch is drawn from `X`,
so the union does not change. -/
theorem pullY {Y : Store × Bytes} (h : SyncInv lib X₀ Y₀ X Y.1) (io : Write)
    (limit : Int) : SyncInv lib X₀ Y₀ X (pull lib io X Y limit).1 := by
  have hops : (pull lib io X Y limit).1.ops = Y.1.ops ++ MissingFor X (Summary Y.1) limit :=
    ops_pull h.logInv_X h.logInv_Y h.consistent
  refine ⟨h.logInv_X, logInv_pull h.logInv_Y, h.dense_X,
    dense_pull h.logInv_X h.logInv_Y h.consistent h.dense_X h.dense_Y,
    consistent_pull h.logInv_X h.logInv_Y h.consistent, fun o => ?_⟩
  rw [← h.union o, hops, List.mem_append]
  constructor
  · rintro (h' | h' | h')
    · exact .inl h'
    · exact .inr h'
    · exact .inl (mem_of_mem_missingFor h').1
  · rintro (h' | h')
    · exact .inl h'
    · exact .inr (.inl h')

/-- The step lemma of the pair. -/
theorem run {xy : (Store × Bytes) × (Store × Bytes)}
    (h : SyncInv lib X₀ Y₀ xy.1.1 xy.2.1) (p : PullStep) :
    SyncInv lib X₀ Y₀ (p.run lib xy).1.1 (p.run lib xy).2.1 := by
  unfold PullStep.run
  split_ifs
  · exact h.pullY p.io p.limit
  · exact (h.symm.pullY p.io p.limit).symm

theorem runPulls : ∀ (steps : List PullStep) {xy : (Store × Bytes) × (Store × Bytes)},
    SyncInv lib X₀ Y₀ xy.1.1 xy.2.1 →
      SyncInv lib X₀ Y₀ (Dqrvcs.runPulls lib steps xy).1.1 (Dqrvcs.runPulls lib steps xy).2.1
  | [], _, h => h
  | p :: ps, _, h => runPulls ps (h.run p)

end SyncInv

/-- A full exchange is quiescent: once `Y` has pulled from `X` and then `X`
from `Y`, each with no limit, neither direction returns anything. -/
theorem quiescent_after_exchange {X Y : Store × Bytes} (hX : LogInv lib X.1)
    (hY : LogInv lib Y.1) (dX : Dense X.1) (dY : Dense Y.1) (hc : Consistent X.1 Y.1)
    {io₁ io₂ : Write} {l₁ l₂ : Int} (hl₁ : l₁ ≤ 0) (hl₂ : l₂ ≤ 0) (limit₁ limit₂ : Int) :
    let xy := runPulls lib [⟨true, l₁, io₁⟩, ⟨false, l₂, io₂⟩] (X, Y)
    MissingFor xy.1.1 (Summary xy.2.1) limit₁ = [] ∧
      MissingFor xy.2.1 (Summary xy.1.1) limit₂ = [] := by
  intro xy
  have h₁ : SyncInv lib X.1 Y.1 X.1 (pull lib io₁ X.1 Y l₁).1 :=
    SyncInv.pullY ⟨hX, hY, dX, dY, hc, fun _ => Iff.rfl⟩ io₁ l₁
  have hXY : ∀ x ∈ X.1.ops, x ∈ (pull lib io₁ X.1 Y l₁).1.ops := subset_pull hX hY hc dY hl₁
  have hYX := @subset_pull lib io₂ _ _ l₂ h₁.logInv_Y hX h₁.consistent.symm dX hl₂
  have hops := @ops_pull lib io₂ _ _ l₂ h₁.logInv_Y hX h₁.consistent.symm
  have hX₂ : ∀ x ∈ (pull lib io₂ (pull lib io₁ X.1 Y l₁).1 X l₂).1.ops,
      x ∈ (pull lib io₁ X.1 Y l₁).1.ops := fun x hx => by
    rcases List.mem_append.mp (hops ▸ hx) with hx | hx
    · exact hXY x hx
    · exact (mem_of_mem_missingFor hx).1
  exact ⟨missingFor_nil_of_subset h₁.logInv_Y hX₂ limit₁,
    missingFor_nil_of_subset (logInv_pull hX) hYX limit₂⟩

/-- Anti-entropy over the store primitives.  For two dense, consistent logs,
a pull step in either direction stores every operation it returns, keeps both
dense and consistent, and with `limit > 0` grows the puller when it returns
anything; and after any run of steps, once both directions return nothing,
each store holds exactly the union of the two initial logs. -/
theorem antiEntropy_converges :
    (∀ (io : Write) (src : Store) (dst : Store × Bytes) (limit : Int),
      LogInv lib src → LogInv lib dst.1 → Dense src → Dense dst.1 → Consistent src dst.1 →
        (pull lib io src dst limit).1.ops = dst.1.ops ++ MissingFor src (Summary dst.1) limit ∧
        Dense (pull lib io src dst limit).1 ∧ Consistent src (pull lib io src dst limit).1 ∧
        (0 < limit → MissingFor src (Summary dst.1) limit ≠ [] →
          dst.1.ops.length < (pull lib io src dst limit).1.ops.length)) ∧
    ∀ (X Y : Store × Bytes) (steps : List PullStep) (limit₁ limit₂ : Int),
      LogInv lib X.1 → LogInv lib Y.1 → Dense X.1 → Dense Y.1 → Consistent X.1 Y.1 →
      MissingFor (runPulls lib steps (X, Y)).1.1 (Summary (runPulls lib steps (X, Y)).2.1) limit₁ = [] →
      MissingFor (runPulls lib steps (X, Y)).2.1 (Summary (runPulls lib steps (X, Y)).1.1) limit₂ = [] →
        ∀ o, (o ∈ (runPulls lib steps (X, Y)).1.1.ops ↔ o ∈ X.1.ops ∨ o ∈ Y.1.ops) ∧
          (o ∈ (runPulls lib steps (X, Y)).2.1.ops ↔ o ∈ X.1.ops ∨ o ∈ Y.1.ops) := by
  refine ⟨fun io src dst limit hsrc hdst dsrc ddst hc => ?_,
    fun X Y steps l₁ l₂ hX hY dX dY hc q₁ q₂ o => ?_⟩
  · have hops : (pull lib io src dst limit).1.ops =
        dst.1.ops ++ MissingFor src (Summary dst.1) limit := ops_pull hsrc hdst hc
    exact ⟨hops, dense_pull hsrc hdst hc dsrc ddst, consistent_pull hsrc hdst hc,
      fun _ hne => by rw [hops, List.length_append]; exact Nat.lt_add_of_pos_right (List.length_pos.mpr hne)⟩
  · have h₀ : SyncInv lib X.1 Y.1 (X, Y).1.1 (X, Y).2.1 := ⟨hX, hY, dX, dY, hc, fun _ => Iff.rfl⟩
    have h := SyncInv.runPulls steps h₀
    have sXY := subset_of_missingFor_nil h.logInv_X h.dense_Y h.consistent q₁
    have sYX := subset_of_missingFor_nil h.logInv_Y h.dense_X h.consistent.symm q₂
    exact ⟨⟨fun ho => (h.union o).mp (.inl ho),
        fun ho => ((h.union o).mpr ho).elim id (sYX o)⟩,
      ⟨fun ho => (h.union o).mp (.inr ho),
        fun ho => ((h.union o).mpr ho).elim (sXY o) id⟩⟩

set_option maxRecDepth 8000 in
/-- The theorem under `Stdlib.separating` at two handles holding operations,
one node's two and another's one, after a full exchange: `Y` pulls from `X`,
then `X` from `Y`, neither with a limit. -/
theorem antiEntropy_converges_exchange :
    let lib := Stdlib.separating
    let now : Time := ⟨1970, 1, 1, 0, 0, 0, 0, by decide⟩
    let handle (seed : UInt8) := Store.empty (generateIdentity lib ⟨List.replicate 32 seed, rfl⟩)
      (KeyPair.priv lib ⟨List.replicate 32 seed, rfl⟩) []
    let X := runCalls lib (handle 1, []) [.appendLocal now .whole (ascii "git.commit") [],
      .appendLocal now .whole (ascii "git.push") []]
    let Y := runCalls lib (handle 2, []) [.appendLocal now .whole (ascii "git.push") []]
    let xy := runPulls lib [⟨true, 0, .whole⟩, ⟨false, 0, .whole⟩] (X, Y)
    (X.1.ops.length = 2 ∧ Y.1.ops.length = 1 ∧ Consistent X.1 Y.1) ∧
      ∀ o, (o ∈ xy.1.1.ops ↔ o ∈ X.1.ops ∨ o ∈ Y.1.ops) ∧
        (o ∈ xy.2.1.ops ↔ o ∈ X.1.ops ∨ o ∈ Y.1.ops) :=
  (fun h => (fun q => ⟨h, antiEntropy_converges.2 _ _ _ 0 0 ((logInv_empty _ _ _).runCalls _)
      ((logInv_empty _ _ _).runCalls _)
      (Dense.runCalls _ (logInv_empty _ _ _) (dense_empty _ _ _) (by exact ⟨trivial, trivial, trivial⟩))
      (Dense.runCalls _ (logInv_empty _ _ _) (dense_empty _ _ _) (by exact ⟨trivial, trivial⟩))
      h.2.2 q.1 q.2⟩)
    (quiescent_after_exchange ((logInv_empty _ _ _).runCalls _) ((logInv_empty _ _ _).runCalls _)
      (Dense.runCalls _ (logInv_empty _ _ _) (dense_empty _ _ _) (by exact ⟨trivial, trivial, trivial⟩))
      (Dense.runCalls _ (logInv_empty _ _ _) (dense_empty _ _ _) (by exact ⟨trivial, trivial⟩)) h.2.2
      le_rfl le_rfl 0 0))
    (by unfold Consistent; decide)

end Dqrvcs

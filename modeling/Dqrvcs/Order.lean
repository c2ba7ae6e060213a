/-
# `Dqrvcs.Order` — the order operations arrive in does not matter

`MissingFor` and `Ops` sort the slice with `sort.SliceStable` by `opLess`,
which compares `(author, seq)` lexicographically.  On a handle satisfying
`LogInv` no two operations share that key, so the strict order is total on
the slice, the stable sort has only one possible output, and it depends on
the slice only up to permutation (`sortOps_eq_of_perm`).

What the slice is up to permutation is decided by `ingest`: on a handle
satisfying `LogInv`, `addOperationLocked` appends exactly the operations that
verify and are fresh (`LogInv.ops_addOperationLocked`).  For a set of
operations with distinct IDs and distinct keys, whether one of them is fresh
does not depend on which others came before it, so any two feeding orders,
with any duplicates, append the same set (`foldl_ingest`).
-/
import Dqrvcs.Invariant

namespace Dqrvcs

/-! ## The order of `opLess` -/

theorem opLess_iff {a b : Operation} : opLess a b = true ↔
    bytesLt a.author b.author = true ∨ (a.author = b.author ∧ a.seq < b.seq) := by
  unfold opLess
  by_cases h : a.author = b.author
  · simp [h, bytesLt_irrefl]
  · simp [h]

theorem opLess_asymm {a b : Operation} (h : opLess a b = true) : opLess b a = false := by
  rw [← Bool.not_eq_true, opLess_iff]
  rcases opLess_iff.mp h with h | ⟨e, h⟩
  · rintro (h' | ⟨e, -⟩)
    · simp [bytesLt_asymm h] at h'
    · simp [e, bytesLt_irrefl] at h
  · rintro (h' | ⟨-, h'⟩)
    · simp [e, bytesLt_irrefl] at h'
    · exact UInt64.lt_asymm h h'

theorem opLess_trans {a b c : Operation} (h₁ : opLess a b = true) (h₂ : opLess b c = true) :
    opLess a c = true := by
  rw [opLess_iff] at *
  rcases h₁ with h₁ | ⟨e₁, h₁⟩ <;> rcases h₂ with h₂ | ⟨e₂, h₂⟩
  · exact .inl (bytesLt_trans h₁ h₂)
  · exact .inl (e₂ ▸ h₁)
  · exact .inl (e₁ ▸ h₂)
  · exact .inr ⟨e₁.trans e₂, UInt64.lt_trans h₁ h₂⟩

theorem opLess_of_key_ne {a b : Operation} (hk : ¬ (a.author = b.author ∧ a.seq = b.seq))
    (h : opLess b a = false) : opLess a b = true := by
  rw [← Bool.not_eq_true, opLess_iff] at h
  rw [opLess_iff]
  by_cases e : a.author = b.author
  · refine .inr ⟨e, ?_⟩
    rcases UInt64.le_total a.seq b.seq with hl | hl
    · refine UInt64.not_le.mp fun hba => hk ⟨e, UInt64.toNat.inj (Nat.le_antisymm hl hba)⟩
    · exact absurd (.inr ⟨e.symm, UInt64.not_le.mp fun hab =>
        hk ⟨e, UInt64.toNat.inj (Nat.le_antisymm hab hl)⟩⟩) h
  · rcases bytesLt_total e with h' | h'
    · exact .inl h'
    · exact absurd (.inl h') h

/-- The relation `insertionSort` is given: `b` does not sort before `a`. -/
def opLe (a b : Operation) : Prop := opLess b a = false

instance : DecidableRel opLe := fun _ _ => inferInstanceAs (Decidable (_ = _))

instance : IsTotal Operation opLe :=
  ⟨fun a b => by
    cases h : opLess b a
    · exact .inl h
    · exact .inr (opLess_asymm h)⟩

instance : IsTrans Operation opLe :=
  ⟨fun a b c h₁ h₂ => by
    unfold opLe at *
    cases h : opLess c a
    · rfl
    · by_cases hk : b.author = c.author ∧ b.seq = c.seq
      · have : opLess c a = opLess b a := by simp [opLess, hk.1, hk.2]
        rw [← this, h] at h₁
        exact h₁
      · rw [← h₁, opLess_trans (opLess_of_key_ne hk h₂) h]⟩

theorem sortOps_perm (ops : List Operation) : (sortOps ops).Perm ops :=
  List.perm_insertionSort _ _

/-- The strict order, antisymmetric because nothing is below itself. -/
def opLt (a b : Operation) : Prop := opLess a b = true

instance : IsAntisymm Operation opLt :=
  ⟨fun _ _ h₁ h₂ => absurd (opLess_asymm h₁) (by simp [opLt] at h₂; simp [h₂])⟩

theorem sorted_opLt_sortOps {ops : List Operation} (hk : (ops.map opKey).Nodup) :
    (sortOps ops).Sorted opLt := by
  have hk' : ((sortOps ops).map opKey).Nodup := ((sortOps_perm ops).map _).nodup_iff.mpr hk
  have hs := List.sorted_insertionSort opLe ops
  refine ((List.pairwise_map.mp hk').and hs).imp fun ⟨hne, hle⟩ => opLess_of_key_ne ?_ hle
  rintro ⟨ea, es⟩
  exact hne (by simp [opKey, ea, es])

theorem sortOps_eq_of_perm {ops₁ ops₂ : List Operation} (hp : ops₁.Perm ops₂)
    (hk : (ops₁.map opKey).Nodup) : sortOps ops₁ = sortOps ops₂ :=
  List.eq_of_perm_of_sorted ((sortOps_perm _).trans (hp.trans (sortOps_perm _).symm))
    (sorted_opLt_sortOps hk) (sorted_opLt_sortOps ((hp.map _).nodup_iff.mp hk))

/-! ## What ingesting does to the slice -/

variable {lib : Stdlib}

/-- What `addOperationLocked` does to the slice of a handle satisfying `LogInv`. -/
def ingest (lib : Stdlib) (ops : List Operation) (op : Operation) : List Operation :=
  if Verified lib op ∧ Fresh ops op then ops ++ [op] else ops

theorem LogInv.ops_addOperationLocked {persist : Bool} {io : Write} {s : Store} {log : Bytes}
    {op : Operation} (h : LogInv lib s) :
    (addOperationLocked lib persist io s log op).store.ops = ingest lib s.ops op := by
  simp only [addOperationLocked_store, ingest, h.admits_iff]
  split_ifs <;> rfl

/-- The operation a call feeds to `addOperationLocked` from outside; `none`
for `AppendLocalOp`, which builds its own. -/
def LogCall.ingested : LogCall → Option Operation
  | .appendLocal .. => none
  | .addRemote _ op => some op
  | .replay op => some op

theorem LogInv.ops_run {st : Store × Bytes} {c : LogCall} {op : Operation}
    (h : LogInv lib st.1) (hc : c.ingested = some op) :
    (c.run lib st).1.ops = ingest lib st.1.ops op := by
  obtain ⟨s, log⟩ := st
  cases c with
  | appendLocal => cases hc
  | addRemote io op' => cases hc; exact h.ops_addOperationLocked
  | replay op' => cases hc; exact h.ops_addOperationLocked

theorem ops_runCalls_of_ingests : ∀ (calls : List LogCall) (st : Store × Bytes),
    LogInv lib st.1 → (∀ c ∈ calls, c.ingested.isSome) →
      (runCalls lib st calls).1.ops = (calls.filterMap LogCall.ingested).foldl (ingest lib) st.1.ops
  | [], _, _, _ => rfl
  | c :: cs, st, h, hc => by
    obtain ⟨op, hop⟩ := Option.isSome_iff_exists.mp (hc c (List.mem_cons_self _ _))
    rw [runCalls_cons, List.filterMap_cons_some hop, List.foldl_cons, ← h.ops_run hop]
    exact ops_runCalls_of_ingests cs _ (h.memStep (memStep_run c st))
      fun c' h' => hc c' (List.mem_cons_of_mem _ h')

section Distinct

/-! ## Feeding a set of operations with distinct IDs and keys -/

variable {S : List Operation} (hS : ∀ x ∈ S, ∀ y ∈ S, x.id = y.id ∨ opKey x = opKey y → x = y)
include hS

theorem fresh_iff_not_mem {A : List Operation} (hA : ∀ a ∈ A, a ∈ S) {x : Operation} (hx : x ∈ S) :
    Fresh A x ↔ x ∉ A := by
  refine ⟨fun hf hxA => (hf x hxA).1 rfl, fun hxA o ho => ?_⟩
  have hne : o ≠ x := fun e => hxA (e ▸ ho)
  exact ⟨fun e => hne (hS o (hA o ho) x hx (.inl e)),
    fun ⟨ea, es⟩ => hne (hS o (hA o ho) x hx (.inr (by simp [opKey, ea, es])))⟩

/-- Folding `ingest` over any sequence drawn from the set appends, with no
repeats, exactly the members fed that verify and are fresh at the start. -/
theorem foldl_ingest (ops₀ : List Operation) : ∀ (F A : List Operation), (∀ x ∈ F, x ∈ S) →
    (∀ a ∈ A, a ∈ S ∧ Verified lib a ∧ Fresh ops₀ a) → A.Nodup →
    ∃ A', F.foldl (ingest lib) (ops₀ ++ A) = ops₀ ++ A' ∧ A'.Nodup ∧
      ∀ y, y ∈ A' ↔ y ∈ A ∨ (y ∈ F ∧ Verified lib y ∧ Fresh ops₀ y)
  | [], A, _, _, hn => ⟨A, rfl, hn, by simp⟩
  | x :: F, A, hF, hA, hn => by
    have hx := hF x (List.mem_cons_self _ _)
    have hF' := fun y hy => hF y (List.mem_cons_of_mem _ hy)
    have hfresh : Fresh (ops₀ ++ A) x ↔ Fresh ops₀ x ∧ x ∉ A := by
      rw [fresh_append, fresh_iff_not_mem hS (fun a ha => (hA a ha).1) hx]
    by_cases hin : Verified lib x ∧ Fresh ops₀ x ∧ x ∉ A
    · have step : ingest lib (ops₀ ++ A) x = ops₀ ++ (A ++ [x]) := by
        rw [ingest, if_pos ⟨hin.1, hfresh.mpr hin.2⟩, List.append_assoc]
      obtain ⟨A', h₁, h₂, h₃⟩ := foldl_ingest ops₀ F (A ++ [x]) hF'
        (by simpa [or_imp, forall_and, hx, hin.1, hin.2.1] using hA)
        (List.nodup_append.mpr ⟨hn, List.nodup_singleton x, by simpa using hin.2.2⟩)
      refine ⟨A', by rw [List.foldl_cons, step, h₁], h₂, fun y => ?_⟩
      by_cases hy : y = x
      · subst hy; simp [h₃, hin]
      · simp [h₃, hy]
    · have step : ingest lib (ops₀ ++ A) x = ops₀ ++ A := by
        rw [ingest, if_neg fun h => hin ⟨h.1, hfresh.mp h.2⟩]
      obtain ⟨A', h₁, h₂, h₃⟩ := foldl_ingest ops₀ F A hF' hA hn
      refine ⟨A', by rw [List.foldl_cons, step, h₁], h₂, fun y => ?_⟩
      by_cases hy : y = x
      · subst hy
        rw [h₃]
        exact ⟨fun h => h.imp_right fun ⟨hm, hv, hf⟩ => ⟨List.mem_cons_of_mem _ hm, hv, hf⟩,
          fun h => h.elim .inl fun ⟨_, hv, hf⟩ => .inl (by_contra fun hn => hin ⟨hv, hf, hn⟩)⟩
      · simp [h₃, hy]

end Distinct

/-- Every operation of the run is drawn from `S`, and every member of `S` is
fed at least once. -/
def Feeds (S : List Operation) (calls : List LogCall) : Prop :=
  (∀ c ∈ calls, ∃ x ∈ S, c.ingested = some x) ∧ ∀ x ∈ S, ∃ c ∈ calls, c.ingested = some x

theorem mem_filterMap_ingested {S : List Operation} {calls : List LogCall} (hF : Feeds S calls)
    {x : Operation} : x ∈ calls.filterMap LogCall.ingested ↔ x ∈ S := by
  rw [List.mem_filterMap]
  refine ⟨fun ⟨c, hc, e⟩ => ?_, hF.2 x⟩
  obtain ⟨y, hy, e'⟩ := hF.1 c hc
  exact Option.some.inj (e.symm.trans e') ▸ hy

/-- Ingest order independence: from any reachable handle, two runs that feed
the same set of verified operations with distinct IDs and keys, in any order,
with any repeats, through `AddRemoteOp` or as replayed lines, end with the
same `Summary`, the same `Ops` and the same `MissingFor`. -/
theorem ingest_order_independent (identity : Identity) (privateKey : Bytes) (peers : List Bytes)
    (log : Bytes) (calls : List LogCall) (S : List Operation)
    (hv : ∀ x ∈ S, verifyOperation lib x = .ok ()) (hid : (S.map Operation.id).Nodup)
    (hkey : (S.map opKey).Nodup) (F₁ F₂ : List LogCall) (hF₁ : Feeds S F₁) (hF₂ : Feeds S F₂) :
    let st := runCalls lib (Store.empty identity privateKey peers, log) calls
    Summary (runCalls lib st F₁).1 = Summary (runCalls lib st F₂).1 ∧
      (∀ limit, Ops (runCalls lib st F₁).1 limit = Ops (runCalls lib st F₂).1 limit) ∧
      ∀ summary limit, MissingFor (runCalls lib st F₁).1 summary limit =
        MissingFor (runCalls lib st F₂).1 summary limit := by
  intro st
  have h₀ : LogInv lib st.1 := (logInv_empty identity privateKey peers).runCalls calls
  have hS : ∀ x ∈ S, ∀ y ∈ S, x.id = y.id ∨ opKey x = opKey y → x = y :=
    fun x hx y hy e => e.elim (List.inj_on_of_nodup_map hid hx hy)
      (List.inj_on_of_nodup_map hkey hx hy)
  have slice : ∀ F, Feeds S F → ∃ A, (runCalls lib st F).1.ops = st.1.ops ++ A ∧ A.Nodup ∧
      ∀ y, y ∈ A ↔ y ∈ S ∧ Fresh st.1.ops y := fun F hF => by
    have hsome : ∀ c ∈ F, c.ingested.isSome := fun c hc => by
      obtain ⟨x, -, e⟩ := hF.1 c hc
      simp [e]
    obtain ⟨A, h₁, h₂, h₃⟩ := foldl_ingest hS st.1.ops (F.filterMap LogCall.ingested) []
      (fun x hx => (mem_filterMap_ingested hF).mp hx) (by simp) List.nodup_nil
    refine ⟨A, by rw [ops_runCalls_of_ingests F st h₀ hsome, ← h₁, List.append_nil], h₂,
      fun y => ?_⟩
    rw [h₃, mem_filterMap_ingested hF]
    exact ⟨fun h => h.elim (by simp) fun h => ⟨h.1, h.2.2⟩,
      fun h => .inr ⟨h.1, (verifyOperation_eq_ok lib).mp (hv y h.1), h.2⟩⟩
  obtain ⟨A₁, e₁, n₁, m₁⟩ := slice F₁ hF₁
  obtain ⟨A₂, e₂, n₂, m₂⟩ := slice F₂ hF₂
  have hp : (runCalls lib st F₁).1.ops.Perm (runCalls lib st F₂).1.ops := by
    rw [e₁, e₂]
    exact ((List.perm_ext_iff_of_nodup n₁ n₂).mpr fun y => (m₁ y).trans (m₂ y).symm).append_left _
  have i₁ := h₀.runCalls F₁
  have i₂ := h₀.runCalls F₂
  have hsort := sortOps_eq_of_perm hp i₁.keys_nodup
  exact ⟨(i₁.indices_eq i₂ fun _ => (hp.map idKey).mem_iff).2.2, fun _ => by simp only [Ops, hsort],
    fun _ _ => by simp only [MissingFor, hsort]⟩

set_option maxRecDepth 8000 in
/-- The theorem under `Stdlib.separating` on a handle holding one operation of
its own, fed three operations of two other nodes: once each in order through
`AddRemoteOp`, and in reverse then again in order as replayed lines. -/
theorem ingest_order_independent_two_orders :
    let lib := Stdlib.separating
    let now : Time := ⟨1970, 1, 1, 0, 0, 0, 0, by decide⟩
    let handle (seed : UInt8) := Store.empty (generateIdentity lib ⟨List.replicate 32 seed, rfl⟩)
      (KeyPair.priv lib ⟨List.replicate 32 seed, rfl⟩) []
    let S := (runCalls lib (handle 1, []) [.appendLocal now .whole (ascii "git.commit") [],
      .appendLocal now .whole (ascii "git.push") []]).1.ops ++
      (runCalls lib (handle 2, []) [.appendLocal now .whole (ascii "git.push") []]).1.ops
    let st := runCalls lib (handle 3, []) [.appendLocal now .whole (ascii "git.commit") []]
    let F₁ := S.map (.addRemote .whole)
    let F₂ := (S.reverse ++ S).map .replay
    (S.length = 3 ∧ (S.map Operation.id).Nodup ∧ (S.map opKey).Nodup) ∧
      Summary (runCalls lib st F₁).1 = Summary (runCalls lib st F₂).1 ∧
      (∀ limit, Ops (runCalls lib st F₁).1 limit = Ops (runCalls lib st F₂).1 limit) ∧
      ∀ summary limit, MissingFor (runCalls lib st F₁).1 summary limit =
        MissingFor (runCalls lib st F₂).1 summary limit :=
  (fun h => ⟨h, ingest_order_independent _ _ [] [] _ _
    (fun x hx => (verifyOperation_eq_ok _).mpr ((List.mem_append.mp hx).elim
      (((logInv_empty _ _ _).runCalls _).verified x) (((logInv_empty _ _ _).runCalls _).verified x)))
    h.2.1 h.2.2 _ _
    ⟨fun _ hc => by
      obtain ⟨x, hx, rfl⟩ := List.mem_map.mp hc
      exact ⟨x, hx, rfl⟩, fun x hx => ⟨_, List.mem_map_of_mem _ hx, rfl⟩⟩
    ⟨fun _ hc => by
      obtain ⟨x, hx, rfl⟩ := List.mem_map.mp hc
      exact ⟨x, (List.mem_append.mp hx).elim List.mem_reverse.mp id, rfl⟩,
      fun x hx => ⟨_, List.mem_map_of_mem _ (List.mem_append_right _ hx), rfl⟩⟩⟩)
    (by decide)

end Dqrvcs

import OpenData.Lib.Smallest
import OpenData.Proofs.Timeseries.Aggregate

/-!
# What `topk` and `bottomk` keep

The order of the heap entries is that of `kKey`, so each heap is a bounded heap of the library: it
keeps the first `k` valid cells of its group and step (`selectHeaps_spec`). `topk_emits` adds what
the operator around it does: the buffer has the cells of all batches, and the parameter is loaded
first.
-/

namespace OpenData.Timeseries

open Lib List AggregateOp

variable {V : Type} {f : KValues V} {order : KOrder} {map : List Nat} {k n t i : Nat}

/-! ### The heaps of a step -/

/-- Better values come first and `NaN` last. Among equals the smaller series comes first. -/
def kKey (f : KValues V) (order : KOrder) (e : Nat × V) : Bool ×ₗ Int ×ₗ Nat :=
  toLex (f.isNan e.2, toLex (if f.isNan e.2 then 0 else match order with
    | .smallestFirst => -f.rank e.2
    | .largestFirst => f.rank e.2, e.1))

theorem entryCmp_eq_lt {a b} : entryCmp f order a b = .lt ↔ kKey f order a < kKey f order b := by
  have hswap : f.rank b.2 = f.rank a.2 ↔ f.rank a.2 = f.rank b.2 := eq_comm
  cases ha : f.isNan a.2 <;> cases hb : f.isNan b.2 <;> cases order <;>
    simp [entryCmp, kCmp, kKey, ha, hb, Prod.Lex.toLex_lt_toLex, Ordering.then_eq_lt,
      compare_lt_iff_lt, hswap]

theorem fst_eq_of_kKey_eq {a b} (h : kKey f order a = kKey f order b) : a.1 = b.1 :=
  congrArg (fun key => (ofLex (ofLex key).2).2) h

theorem offerEntry_eq (heap : List (Nat × V)) (e : Nat × V) :
    offerEntry f order k heap e = heapOffer (kKey f order) k heap e := by
  have hpush : ∀ heap : List (Nat × V), pushEntry f order heap e =
      heapPush (kKey f order) heap e := by
    intro heap
    induction heap with
    | nil => rfl
    | cons a heap ih =>
      simp only [pushEntry, heapPush, orderedInsert_cons, entryCmp_eq_lt, not_lt] at ih ⊢
  cases heap <;> simp only [offerEntry, heapOffer, hpush, entryCmp_eq_lt]

theorem selectHeaps_spec (hk : k ≠ 0) {entries} (hnodup : (entries.map Prod.fst).Nodup) :
    (selectHeaps f order k map n entries).length = n ∧ ∀ g < n, ∃ heap,
      (selectHeaps f order k map n entries)[g]? = some heap ∧
        KeptHeap (kKey f order) k (entries.filter fun e => map[e.1]? = some g) heap := by
  rw [selectHeaps, if_neg hk]
  refine foldl_history (I := fun (done : List (Nat × V)) (heaps : List (List (Nat × V))) =>
    heaps.length = n ∧ ∀ g < n, ∃ heap, heaps[g]? = some heap ∧
      KeptHeap (kKey f order) k (done.filter fun e => map[e.1]? = some g) heap)
    ⟨length_replicate, fun g hg => ⟨[], by simp [hg], Kept.nil, Pairwise.nil⟩⟩ ?_
  rintro done e rest heaps rfl ⟨hlength, h⟩
  rw [offerCell]
  cases hgroup : map[e.1]? with
  | none => exact ⟨hlength, by simpa [hgroup] using h⟩
  | some group =>
    refine ⟨by simpa using hlength, fun g hg => ?_⟩
    obtain ⟨heap, hheap, hkept⟩ := h g hg
    rw [getElem?_modify, hheap, filter_append]
    by_cases heq : group = g
    · subst heq
      refine ⟨heapOffer (kKey f order) k heap e, by simp [offerEntry_eq], ?_⟩
      rw [filter_cons_of_pos (by simpa using hgroup), filter_nil]
      refine hkept.offer hk fun hmem => ?_
      -- The series of `e` is not among those before it.
      obtain ⟨e', he', hkey⟩ := mem_map.mp hmem
      have hbefore := (mem_filter.mp (hkept.mem e' he')).1
      rw [map_append, map_cons, nodup_append] at hnodup
      exact hnodup.2.2 _ (mem_map_of_mem hbefore) _ mem_cons_self (fst_eq_of_kKey_eq hkey)
    · exact ⟨heap, by simp [heq], by simpa [hgroup, heq] using hkept⟩

theorem exists_heap_of_mem {entries} (hnodup : (entries.map Prod.fst).Nodup)
    {e} (h : e ∈ (selectHeaps f order k map n entries).flatten) : e ∈ entries ∧ ∃ g heap,
       (selectHeaps f order k map n entries)[g]? = some heap ∧ e ∈ heap ∧
        map[e.1]? = some g := by
  by_cases hk : k = 0
  · simp [selectHeaps, hk] at h
  · obtain ⟨hlength, hspec⟩ := @selectHeaps_spec _ f order map k n hk entries hnodup
    obtain ⟨heap, hheap, hmem⟩ := mem_flatten.mp h
    obtain ⟨g, hg⟩ := mem_iff_getElem?.mp hheap
    obtain ⟨heap', hheap', hkept⟩ := hspec g (hlength ▸ (List.getElem?_eq_some_iff.mp hg).1)
    obtain rfl : heap' = heap := Option.mem_unique hheap' hg
    obtain ⟨he, hgroup⟩ := mem_filter.mp (hkept.mem e hmem)
    exact ⟨he, g, heap', hg, hmem, of_decide_eq_true hgroup⟩

theorem kept_selectHeaps {entries} (hnodup : (entries.map Prod.fst).Nodup)
    {g} (hg : g < n) : ∃ heap,
      Kept (kKey f order) k (entries.filter fun e => map[e.1]? = some g) heap ∧
      ∀ e : Nat × V, map[e.1]? = some g →
        (e ∈ (selectHeaps f order k map n entries).flatten ↔ e ∈ heap) := by
  by_cases hk : k = 0
  · subst hk
    exact ⟨[], ⟨nodup_nil, by simp, Nat.zero_le 0, by simp⟩, by simp [selectHeaps]⟩
  · obtain ⟨heap, hheap, hkept⟩ := (@selectHeaps_spec _ f order map k n hk entries hnodup).2 g hg
    refine ⟨heap, hkept.toKept, fun e he => ⟨fun hmem => ?_, fun hmem =>
      mem_flatten.mpr ⟨heap, mem_of_getElem? hheap, hmem⟩⟩⟩
    -- An entry is in the heap of its own group only.
    obtain ⟨-, g', heap', hheap', hmem', hgroup⟩ := exists_heap_of_mem hnodup hmem
    obtain rfl : g' = g := Option.mem_unique hgroup he
    obtain rfl : heap' = heap := Option.mem_unique hheap' hheap
    exact hmem'

/-! ### The buffer -/

theorem mem_stepEntries {cells} {v : V} :
    (i, v) ∈ stepEntries n cells t ↔ i < n ∧ (cells[t * n + i]?).join = some v := by
  simp only [stepEntries, mem_filterMap, mem_range, Option.map_eq_some_iff, Prod.mk.injEq]
  constructor
  · rintro ⟨_, hlt, v, hv, rfl, rfl⟩
    exact ⟨hlt, hv⟩
  · rintro ⟨hlt, hv⟩
    exact ⟨i, hlt, v, hv, rfl, rfl⟩

theorem nodup_stepEntries (cells : List (Option V)) :
    ((stepEntries n cells t).map Prod.fst).Nodup := by
  refine pairwise_map.mpr (pairwise_filterMap.mpr (nodup_range.imp fun hne e he e' he' heq => ?_))
  obtain ⟨v, -, rfl⟩ := Option.map_eq_some_iff.mp he
  obtain ⟨v', -, rfl⟩ := Option.map_eq_some_iff.mp he'
  exact hne heq

variable {batches : List (ValueBatch V)} {steps : Nat}

theorem join_absorbBatchBreaker
    (hnodup : ((cellsOf batches).map Prod.fst).Nodup) (ht : t < steps) (hi : i < n) (v : V) :
    ((batches.foldl (absorbBatchBreaker n) (replicate (steps * n) none))[t * n + i]?).join =
      some v ↔ ((t, i), v) ∈ cellsOf batches := by
  have hwrites : batches.foldl (absorbBatchBreaker n) (replicate (steps * n) none) =
      setAll (replicate (steps * n) none) (((cellsOf batches).filter fun e => e.1.2 < n).map
        fun e => (e.1.1 * n + e.1.2, some e.2)) := by
    refine (setAll_flatMap _ batches).trans ?_
    simp only [cellsOf, filter_flatMap, map_flatMap]
  have hmem : ∀ w, ((t, i), w) ∈ (cellsOf batches).filter (fun e => e.1.2 < n) ↔
      ((t, i), w) ∈ cellsOf batches := by
    intro w
    simp [mem_filter, hi]
  rw [hwrites, join_setCells (fun e he => by simpa using (mem_filter.mp he).2) ht hi, hmem]
  intro w w' hw hw'
  rw [hmem] at hw hw'
  exact congrArg Prod.snd (inj_on_of_nodup_map hnodup hw hw' rfl)

/-! ### The parameter -/

def scalarAt (asI64 : V → Int64) (batches : List (ValueBatch V)) (t : Nat) : Int64 :=
  (((batches.find? fun batch => batch.stepRange.contains t).bind fun batch =>
    batch.cellOf (t - batch.stepRange.start) 0).map asI64).getD 0

def CoversOnce (batches : List (ValueBatch V)) : Prop :=
  ∀ t, ∀ b ∈ batches, ∀ b' ∈ batches, b.stepRange.contains t → b'.stepRange.contains t → b = b'

theorem loadBatch_spec {asI64 : V → Int64} (hone : CoversOnce batches) (ht : t < steps) :
    (batches.foldl (loadBatch asI64) (some (replicate steps 0))).map
      (fun values => values.getD t 0) = some (scalarAt asI64 batches t) := by
  generalize hvalue : (fun (b : ValueBatch V) step =>
    ((b.cellOf (step - b.stepRange.start) 0).map asI64).getD 0) = value
  have hfold : ∀ values, batches.foldl (loadBatch asI64) (some values) =
      some (setAll values (batches.flatMap fun b =>
        b.stepRange.toList.map fun step => (step, value b step))) := by
    intro values
    rw [← setAll_flatMap]
    clear hone
    induction batches generalizing values with
    | nil => rfl
    | cons b batches ih => rw [foldl_cons, loadBatch, Option.map_some, ih, foldl_cons, ← hvalue]
  have hmem : ∀ c, (t, c) ∈ (batches.flatMap fun b =>
      b.stepRange.toList.map fun step => (step, value b step)) ↔
        ∃ b ∈ batches, b.stepRange.contains t ∧ value b t = c := by
    intro c
    simp only [mem_flatMap, mem_map, Span.mem_toList, Prod.mk.injEq]
    constructor
    · rintro ⟨b, hb, _, hstep, rfl, rfl⟩
      exact ⟨b, hb, hstep, rfl⟩
    · rintro ⟨b, hb, hstep, rfl⟩
      exact ⟨b, hb, t, hstep, rfl, rfl⟩
  have hcell := @getElem?_setAll _ _ (replicate steps (0 : Int64)) t (by simpa using ht)
    fun c c' h h' => by
      obtain ⟨b, hb, hstep, rfl⟩ := (hmem c).mp h
      obtain ⟨b', hb', hstep', rfl⟩ := (hmem c').mp h'
      rw [hone t b hb b' hb' hstep hstep']
  rw [hfold, Option.map_some, getD_eq_getElem?_getD, scalarAt]
  cases hfind : batches.find? fun batch => batch.stepRange.contains t with
  | none =>
    have hnone : t ∉ (batches.flatMap fun b =>
        b.stepRange.toList.map fun step => (step, value b step)).map Prod.fst := by
      intro h
      obtain ⟨w, hw, rfl⟩ := mem_map.mp h
      obtain ⟨b, hb, hstep, -⟩ := (hmem w.2).mp hw
      exact find?_eq_none.mp hfind b hb hstep
    rw [(hcell 0).mpr (.inr ⟨hnone, by simp [ht]⟩)]
    rfl
  | some b =>
    have hstep := find?_some hfind
    have hb := (hmem (value b t)).mpr ⟨b, mem_of_find?_eq_some hfind, hstep, rfl⟩
    rw [(hcell _).mpr (.inl hb), ← hvalue]
    rfl

theorem kForStep_loaded {σ : Type} {asI64 : V → Int64} {child param grid} (accums : σ)
    (hone : ∀ c ∈ param, CoversOnce c.batches) (ht : t < grid.stepCount) (len : Nat) (k : Int64) :
    kForStep (loaded asI64 child param grid accums).paramValues t len k =
      coerceKSize ((param.map fun c => scalarAt asI64 c.batches t).getD k) len := by
  cases param with
  | none => rfl
  | some param =>
    simp only [kForStep, loaded, Option.bind_some, loadBatch_spec (hone param rfl) ht,
      Option.map_some, Option.getD_some]

/-! ### The operator -/

theorem finaliseTopkOrBottomk_kept {grid} (f : KValues V) (k : Int64) (order : KOrder)
    (hroom : ∀ cells, grid.allocate cells = .ok ()) (groups : Nat) (values : Option (List Int64))
    (buffer : List (Option V)) : ∃ out,
      finaliseTopkOrBottomk grid f k order map groups values buffer = .ok out ∧
      out.stepRange = ⟨0, grid.stepCount⟩ ∧ out.seriesRange = ⟨0, map.length⟩ ∧
      ∀ t g, t < grid.stepCount → g < groups → ∃ kept,
        Kept (kKey f order) (kForStep values t map.length k)
          ((stepEntries map.length buffer t).filter fun e => map[e.1]? = some g) kept ∧
        ∀ i v, map[i]? = some g → (out.cell t i = some v ↔ (i, v) ∈ kept) := by
  refine ⟨_, by rw [finaliseTopkOrBottomk, hroom]; rfl, rfl, rfl, fun t g ht hg => ?_⟩
  have hentries := @nodup_stepEntries _ map.length t buffer
  obtain ⟨kept, hkept, hmem⟩ := @kept_selectHeaps _ f order map (kForStep values t map.length k)
    groups _ hentries g hg
  refine ⟨kept, hkept, fun i v hgroup => ?_⟩
  have hi := (List.getElem?_eq_some_iff.mp hgroup).1
  rw [OutputGrid.cell_batch ht hi, join_setAll hi, hmem _ hgroup]
  intro v v' h h'
  exact congrArg Prod.snd (inj_on_of_nodup_map hentries (exists_heap_of_mem hentries h).1
    (exists_heap_of_mem hentries h').1 rfl)

theorem min_coerceKSize (k : Int64) {len m} (h : m ≤ len) :
    min (coerceKSize k len) m = min (max k.toInt 0).toNat m := by
  rw [coerceKSize]
  split <;> omega

/-- At every step and in every group `topk` and `bottomk` keep the first cells in the order of
`kKey`, as many as the parameter says, whatever the tiles and the pending results are. -/
theorem topk_emits {roster : List (List Label)} (grouping : AggregateGrouping) (f : KValues V)
    (k : Int64) (order : KOrder) {child : Child String (ValueBatch V)}
    {param : Option (Child String (ValueBatch V))} {grid : OutputGrid} (hsound : child.Sound)
    (hparam : ∀ c ∈ param, c.Sound) (hone : ∀ c ∈ param, CoversOnce c.batches)
    (hroom : ∀ cells, grid.allocate cells = .ok ())
    (hnodup : ((cellsOf child.batches).map Prod.fst).Nodup) :
    let table := buildGroupMap roster grouping
    let emitted := fun n => (calls (nextBreaker f k order table grid)
      (newBreaker child param table grid) n).filterMap Poll.emitted
    let kAt := fun t => (param.map fun c => scalarAt f.asI64 c.batches t).getD k
    (child.batches = [] → ∀ n, emitted n = []) ∧
    (child.batches ≠ [] → ∃ out : ValueBatch V, (∀ n, emitted n =
        if n ≤ child.pendings + (param.map Child.pendings).getD 0 then [] else [.ok out]) ∧
      out.stepRange = ⟨0, grid.stepCount⟩ ∧ out.seriesRange = ⟨0, roster.length⟩ ∧
      ∀ t g, t < grid.stepCount → g < table.2.length →
        let cells := (groupCells table.1 child.batches t g).map fun e => (e.1.2, e.2)
        ∃ kept, Kept (kKey f order) (coerceKSize (kAt t) roster.length) cells kept ∧
          kept.length = min (max (kAt t).toInt 0).toNat cells.length ∧
          ∀ i v, table.1[i]? = some g → (out.cell t i = some v ↔ (i, v) ∈ kept)) := by
  have htable : Interned _ (buildGroupMap roster grouping) := interned_internAll _
  have hlen : (buildGroupMap roster grouping).1.length = roster.length := by
    simpa using htable.length
  intro table emitted kAt
  refine ⟨fun hnone => new_silent hsound hparam hnone, fun hsome => ?_⟩
  obtain ⟨out, hout, hsteps, hseries, hkept⟩ := finaliseTopkOrBottomk_kept f k order hroom
    table.2.length (loaded f.asI64 child param grid
      (List.replicate (grid.stepCount * table.1.length) (none : Option V))).paramValues
    (child.batches.foldl (absorbBatchBreaker table.1.length)
      (List.replicate (grid.stepCount * table.1.length) none))
  refine ⟨out, (new_emits hsound hparam hsome hout).calls, hsteps,
    hseries.trans (by rw [hlen]), fun t g ht hg => ?_⟩
  obtain ⟨kept, hkept, hmem⟩ := hkept t g ht hg
  have hcells : ∀ e : Nat × V, e ∈ (stepEntries table.1.length (child.batches.foldl
      (absorbBatchBreaker table.1.length) (List.replicate (grid.stepCount * table.1.length) none))
        t).filter (fun e => table.1[e.1]? = some g) ↔
      e ∈ (groupCells table.1 child.batches t g).map fun e => (e.1.2, e.2) := by
    intro e
    simp only [mem_filter, groupCells, mem_map, decide_eq_true_eq]
    constructor
    · rintro ⟨he, hgroup⟩
      obtain ⟨hi, he⟩ := mem_stepEntries.mp he
      exact ⟨((t, e.1), e.2), ⟨(join_absorbBatchBreaker hnodup ht hi _).mp he, rfl, hgroup⟩, rfl⟩
    · rintro ⟨e, ⟨he, rfl, hgroup⟩, rfl⟩
      have hi := (List.getElem?_eq_some_iff.mp hgroup).1
      exact ⟨mem_stepEntries.mpr ⟨hi, (join_absorbBatchBreaker hnodup ht hi _).mpr he⟩, hgroup⟩
  have hkept' := hkept.congr hcells
  rw [kForStep_loaded _ hone ht, hlen] at hkept'
  refine ⟨kept, hkept', ?_, hmem⟩
  have hseries := @nodup_groupCells _ _ table.1 hnodup t g
  have hle : ((groupCells table.1 child.batches t g).map fun e => (e.1.2, e.2)).length ≤
      roster.length := by
    have hsub : (groupCells table.1 child.batches t g).map (fun e => e.1.2) ⊆
        List.range roster.length := by
      intro i hi
      obtain ⟨e, he, rfl⟩ := mem_map.mp hi
      have hgroup := (of_decide_eq_true (mem_filter.mp he).2).2
      exact mem_range.mpr (hlen ▸ (List.getElem?_eq_some_iff.mp hgroup).1)
    simpa using (subperm_of_subset hseries hsub).length_le
  rw [hkept'.length_eq (Nodup.of_map Prod.fst (by rwa [map_map])), min_coerceKSize _ hle]

def natValues : KValues Nat := ⟨fun _ => false, fun n => n, fun n => Int64.ofNat n⟩

def onePerStep : Child String (ValueBatch Nat) :=
  [.pending, .ready (.ok (oneStepBatch ⟨0, 1⟩ [some 1]))]

theorem topk_two_tiles :
    let table := buildGroupMap [[⟨"a", "1"⟩], [⟨"a", "2"⟩]] (.by [])
    ∃ out : ValueBatch Nat, (∀ n, (calls (nextBreaker natValues 0 .smallestFirst table oneStepGrid)
      (newBreaker twoTiles (some onePerStep) table oneStepGrid)
        n).filterMap Poll.emitted = if n ≤ 2 then [] else [.ok out]) ∧
      ∃ kept : List (Nat × Nat), kept.length = 1 ∧ ∀ v, out.cell 0 1 = some v ↔ (1, v) ∈ kept := by
  obtain ⟨out, hout, -, -, hkept⟩ :=
    (@topk_emits _ [[⟨"a", "1"⟩], [⟨"a", "2"⟩]] (.by []) natValues 0
    .smallestFirst twoTiles (some onePerStep) oneStepGrid
    (by simp [Child.Sound, twoTiles]) (by simp [Child.Sound, onePerStep])
    (by simp [CoversOnce, Child.batches, onePerStep]) (fun _ => rfl) (by decide +kernel)).2
      (cons_ne_nil _ _)
  obtain ⟨kept, -, hlength, hcell⟩ := hkept 0 0 (by decide) (by decide +kernel)
  exact ⟨out, hout, kept, hlength.trans (by decide +kernel), fun v => hcell 1 v (by decide +kernel)⟩

end OpenData.Timeseries

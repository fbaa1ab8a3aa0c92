import OpenData.Proofs.Vector.Query

/-!
# The nearest vectors that exist

`resolve_top_k` merges candidate lists that are ordered by distance. Candidates come out of the heap
in order (`Ordered`), each id once (`Drained`), so what is still in the heap is at least as far away
as every result so far. `Progress` states this for the head of the outer loop, together with the ids
that are settled: an id that was seen either is among the results or has no data
(`resolveTopK_nearest`).
-/

namespace OpenData.Vector

open Lib List ScoredCandidate

section
variable {V D F : Type} [LinearOrder D] {choices : Choices V}
  {heap heap' : List (List (ScoredCandidate D))} {seen seen' : List VectorId}
  {batch : List (ScoredCandidate D)}

/-- Every list is ordered by distance. -/
def SortedLists (heap : List (List (ScoredCandidate D))) : Prop :=
  ∀ list ∈ heap, list.Pairwise fun c c' => c.distance ≤ c'.distance

/-- The candidates `new` come out of the heap in order, before everything that is left in it, and
everything that came out is seen. -/
structure Ordered (heap heap' : List (List (ScoredCandidate D))) (seen' : List VectorId)
    (new : List (ScoredCandidate D)) : Prop where
  lists : SortedLists heap'
  sorted : new.Pairwise fun c c' => c.distance ≤ c'.distance
  before : ∀ c ∈ new, ∀ c' ∈ heap'.flatten, c.distance ≤ c'.distance
  covered : ∀ c ∈ heap.flatten, c ∈ heap'.flatten ∨ c.internalId ∈ seen'

theorem least_of_popHeap {c} (hsorted : SortedLists heap)
    (h : popHeap choices heap = some (c, heap')) :
    (∀ c' ∈ heap.flatten, c.distance ≤ c'.distance) ∧ SortedLists heap' := by
  have hshuffle := choices.perm_shuffle [heap.flatten.length] heap
  obtain ⟨hleast, hrest⟩ := least_of_popMin (fun s hs => hsorted s (hshuffle.mem_iff.mp hs)) h
  refine ⟨?_, hrest⟩
  intro c' hc'
  obtain ⟨s, hs, hmem⟩ := mem_flatten.mp hc'
  exact hleast s (hshuffle.mem_iff.mpr hs) c' hmem

/-- The inner loop takes candidates in order and no more than it was asked for. It stops early
only with an empty heap. Induction on the bound of the pops. -/
theorem ordered_of_drain {limit fuel batch'}
    (hsorted : SortedLists heap) (hfuel : heap.flatten.length ≤ fuel)
    (hlimit : batch.length ≤ limit)
    (h : drain choices limit fuel heap seen batch = (heap', seen', batch')) :
    ∃ new, batch' = batch ++ new ∧ Ordered heap heap' seen' new ∧ batch'.length ≤ limit ∧
      (batch'.length = limit ∨ heap'.flatten = []) := by
  have hstop : ∀ heap seen batch, (heap, seen, batch) = (heap', seen', batch') →
      SortedLists heap → batch.length ≤ limit → (batch.length = limit ∨ heap.flatten = []) →
      ∃ new, batch' = batch ++ new ∧ Ordered heap heap' seen' new ∧ batch'.length ≤ limit ∧
        (batch'.length = limit ∨ heap'.flatten = []) := by
    intro _ _ _ heq hsorted hlimit hend
    obtain ⟨rfl, rfl, rfl⟩ := by simpa using heq
    exact ⟨[], by simp, ⟨hsorted, Pairwise.nil, by simp, fun c hc => Or.inl hc⟩, hlimit, hend⟩
  induction fuel generalizing heap seen batch with
  | zero =>
    have hnil : heap.flatten = [] := length_eq_zero_iff.mp (Nat.le_zero.mp hfuel)
    exact hstop _ _ _ h hsorted hlimit (Or.inr hnil)
  | succ fuel ih =>
    rw [drain] at h
    split at h
    · rename_i hroom
      cases hpop : popHeap choices heap with
      | none =>
        rw [hpop] at h
        exact hstop _ _ _ h hsorted hlimit (Or.inr (popHeap_eq_none hpop))
      | some popped =>
        obtain ⟨c, heap1⟩ := popped
        have hperm := perm_of_popHeap hpop
        obtain ⟨hleast, hsorted1⟩ := least_of_popHeap hsorted hpop
        have hfuel1 : heap1.flatten.length ≤ fuel := by
          have hlength := hperm.length_eq
          rw [length_cons] at hlength
          omega
        have hcover : ∀ {new : List (ScoredCandidate D)}, Ordered heap1 heap' seen' new →
            c.internalId ∈ seen' →
            ∀ c' ∈ heap.flatten, c' ∈ heap'.flatten ∨ c'.internalId ∈ seen' := by
          intro new hnew hseen c' hc'
          rcases mem_cons.mp (hperm.mem_iff.mpr hc') with rfl | hc'
          · exact Or.inr hseen
          · exact hnew.covered c' hc'
        simp only [hpop] at h
        split at h
        · -- The id was seen: only the heap moves.
          rename_i hin
          obtain ⟨new, hbatch, hnew, hend⟩ := ih hsorted1 hfuel1 hlimit h
          obtain ⟨_, -, hdrained⟩ := drained_of_drain h
          refine ⟨new, hbatch, ⟨hnew.lists, hnew.sorted, hnew.before, ?_⟩, hend⟩
          exact hcover hnew ((hdrained.seen _).mpr (Or.inl hin))
        · obtain ⟨new, hbatch, hnew, hend⟩ := ih hsorted1 hfuel1
            (by rw [length_append, length_singleton]; omega) h
          obtain ⟨drawn, hdrawn, hdrained⟩ := drained_of_drain h
          have hsame : new = drawn := append_cancel_left (hbatch.symm.trans hdrawn)
          have hheap : ∀ c' ∈ heap1.flatten, c.distance ≤ c'.distance := fun c' hc' =>
            hleast c' (hperm.mem_iff.mp (mem_cons_of_mem _ hc'))
          refine ⟨c :: new, by rw [hbatch]; simp, ⟨hnew.lists, ?_, ?_, ?_⟩, hend⟩
          · refine pairwise_cons.mpr ⟨?_, hnew.sorted⟩
            intro c' hc'
            exact hheap c' (hdrained.taken c' (hsame ▸ hc'))
          · intro c' hc' d hd
            rcases mem_cons.mp hc' with rfl | hc'
            · exact hheap d (hdrained.left d hd)
            · exact hnew.before c' hc' d hd
          · exact hcover hnew ((hdrained.seen _).mpr (Or.inl mem_cons_self))
    · rename_i hroom
      exact hstop _ _ _ h hsorted hlimit (Or.inl (Nat.le_antisymm hlimit (Nat.le_of_not_lt hroom)))

/-! ### One batch -/

variable {reader : QueryReader V} {data : VectorId → Option (VectorDataValue V)} {score : D → F}

def resultOf (score : D → F) (data : VectorId → Option (VectorDataValue V))
    (c : ScoredCandidate D) : Option (SearchResult V F) :=
  (data c.internalId).map fun vectorData =>
    { score := score c.distance, vector := vectorDataToVector vectorData }

/-- The candidates with data. -/
def existing (data : VectorId → Option (VectorDataValue V)) (cs : List (ScoredCandidate D)) :
    List (ScoredCandidate D) :=
  cs.filter fun c => (data c.internalId).isSome

variable {results : List (SearchResult V F)}

omit [LinearOrder D] in
/-- A batch of at most as many candidates as results are missing is resolved to its end: the
results reach `k` only with its last candidate. -/
theorem resolveBatch_eq
    (hdata : ∀ c ∈ batch, reader.getVectorData c.internalId = .ok (data c.internalId)) {k}
    (hroom : results.length + batch.length ≤ k) (hmissing : results.length < k) :
    resolveBatch reader score k batch results
      = .ok (results ++ batch.filterMap (resultOf score data),
          decide ((results ++ batch.filterMap (resultOf score data)).length = k)) := by
  induction batch generalizing results with
  | nil =>
    have hne : results.length ≠ k := by omega
    simp [resolveBatch, hne]
  | cons c batch ih =>
    rw [length_cons] at hroom
    obtain ⟨hone, hdata⟩ := forall_mem_cons.mp hdata
    rw [resolveBatch, hone]
    cases hc : data c.internalId with
    | none =>
      have hnone : resultOf score data c = none := by rw [resultOf, hc]; rfl
      simp only [bind, Except.bind, filterMap_cons, hnone]
      exact ih hdata (by omega) hmissing
    | some vectorData =>
      have hsome : resultOf score data c
          = some { score := score c.distance, vector := vectorDataToVector vectorData } := by
        rw [resultOf, hc]; rfl
      simp only [bind, Except.bind, filterMap_cons, hsome]
      split
      · -- The last result: nothing of the batch is left.
        rename_i hk
        rw [length_append, length_singleton] at hk
        have hnil : batch = [] := length_eq_zero_iff.mp (by omega)
        subst hnil
        simp [hk]
      · rename_i hk
        rw [length_append, length_singleton] at hk
        rw [ih hdata (by rw [length_append, length_singleton]; omega)
          (by rw [length_append, length_singleton]; omega)]
        simp

omit [LinearOrder D] in
theorem filterMap_resultOf (cs : List (ScoredCandidate D)) :
    cs.filterMap (resultOf score data) = (existing data cs).filterMap (resultOf score data) := by
  rw [existing, filterMap_filter]
  refine filterMap_congr fun c _ => ?_
  cases hc : data c.internalId <;> simp [resultOf, hc]

omit [LinearOrder D] in
theorem length_filterMap_resultOf (cs : List (ScoredCandidate D)) :
    (cs.filterMap (resultOf score data)).length = (existing data cs).length := by
  induction cs with
  | nil => rfl
  | cons c cs ih =>
    cases hc : data c.internalId <;>
      simp [resultOf, existing, hc] at ih ⊢ <;> exact ih

omit [LinearOrder D] in
theorem forall₂_resultOf {cs} (h : ∀ c ∈ cs, (data c.internalId).isSome) :
    Forall₂ (fun c result => resultOf score data c = some result) cs
      (cs.filterMap (resultOf score data)) := by
  induction cs with
  | nil => exact .nil
  | cons c cs ih =>
    obtain ⟨hc, hcs⟩ := forall_mem_cons.mp h
    obtain ⟨vectorData, hdata⟩ := Option.isSome_iff_exists.mp hc
    have hsome : resultOf score data c
        = some { score := score c.distance, vector := vectorDataToVector vectorData } := by
      rw [resultOf, hdata]; rfl
    rw [filterMap_cons_some hsome]
    exact .cons hsome (ih hcs)

/-! ### The outer loop -/

/-- The candidates of the results are the nearest of the lists that have data: in order, no id
twice, at most `k`, and as long as one is left out there are `k`, none of them farther away. -/
structure TopK (lists : List (List (ScoredCandidate D)))
    (data : VectorId → Option (VectorDataValue V)) (k : Nat) (picks : List (ScoredCandidate D)) :
    Prop where
  sorted : picks.Pairwise fun c c' => c.distance ≤ c'.distance
  nodup : (picks.map internalId).Nodup
  taken : ∀ c ∈ picks, c ∈ lists.flatten ∧ (data c.internalId).isSome
  length : picks.length = min k ((lists.flatten.map internalId).toFinset.filter
    fun id => (data id).isSome).card
  left : ∀ c ∈ lists.flatten, (data c.internalId).isSome →
    c.internalId ∉ picks.map internalId →
      ∀ c' ∈ picks, c'.distance ≤ c.distance

/-- The picks are the nearest so far with data, and all others are in the heap. -/
structure Progress (lists : List (List (ScoredCandidate D)))
    (data : VectorId → Option (VectorDataValue V)) (k : Nat)
    (heap : List (List (ScoredCandidate D))) (seen : List VectorId)
    (picks : List (ScoredCandidate D)) : Prop where
  heap_lists : SortedLists heap
  heap_sub : ∀ c ∈ heap.flatten, c ∈ lists.flatten
  sorted : picks.Pairwise fun c c' => c.distance ≤ c'.distance
  nodup : (picks.map internalId).Nodup
  taken : ∀ c ∈ picks, c ∈ lists.flatten ∧ (data c.internalId).isSome
  before : ∀ c ∈ picks, ∀ c' ∈ heap.flatten, c.distance ≤ c'.distance
  picked_seen : ∀ c ∈ picks, c.internalId ∈ seen
  settled : ∀ id ∈ seen, (data id).isSome → id ∈ picks.map internalId
  covered : ∀ c ∈ lists.flatten, c ∈ heap.flatten ∨ c.internalId ∈ seen
  length_le : picks.length ≤ k

variable {lists : List (List (ScoredCandidate D))} {k : Nat} {picks : List (ScoredCandidate D)}

theorem progress_start (hsorted : SortedLists lists) : Progress lists data k lists [] [] where
  heap_lists := hsorted
  heap_sub _ hc := hc
  sorted := Pairwise.nil
  nodup := nodup_nil
  taken := by simp
  before := by simp
  picked_seen := by simp
  settled := by simp
  covered _ hc := Or.inl hc
  length_le := Nat.zero_le k

theorem Progress.round (h : Progress lists data k heap seen picks)
    (hdrain : drain choices (k - picks.length) heap.flatten.length heap seen []
      = (heap', seen', batch)) :
    Progress lists data k heap' seen' (picks ++ existing data batch) := by
  obtain ⟨new, hbatch, hord, hlen, -⟩ :=
    ordered_of_drain h.heap_lists (Nat.le_refl _) (Nat.zero_le _) hdrain
  obtain ⟨drawn, hdrawn, hdrained⟩ := drained_of_drain hdrain
  rw [nil_append] at hbatch hdrawn
  subst hbatch hdrawn
  have hsub : (existing data batch).Sublist batch := filter_sublist
  exact {
    heap_lists := hord.lists
    heap_sub := fun c hc => h.heap_sub c (hdrained.left c hc)
    sorted := by
      refine pairwise_append.mpr ⟨h.sorted, hord.sorted.sublist hsub, ?_⟩
      intro c hc c' hc'
      exact h.before c hc c' (hdrained.taken c' (hsub.subset hc'))
    nodup := by
      rw [map_append]
      refine h.nodup.append ((hsub.map _).nodup hdrained.nodup) ?_
      intro id hid hid'
      obtain ⟨c, hc, rfl⟩ := mem_map.mp hid
      obtain ⟨c', hc', heq⟩ := mem_map.mp hid'
      exact hdrained.unseen c' (hsub.subset hc') (heq ▸ h.picked_seen c hc)
    taken := by
      intro c hc
      rcases mem_append.mp hc with hc | hc
      · exact h.taken c hc
      · obtain ⟨hc, hsome⟩ := mem_filter.mp hc
        exact ⟨h.heap_sub c (hdrained.taken c hc), hsome⟩
    before := by
      intro c hc c' hc'
      rcases mem_append.mp hc with hc | hc
      · exact h.before c hc c' (hdrained.left c' hc')
      · exact hord.before c (hsub.subset hc) c' hc'
    picked_seen := by
      intro c hc
      rcases mem_append.mp hc with hc | hc
      · exact (hdrained.seen _).mpr (Or.inl (h.picked_seen c hc))
      · exact (hdrained.seen _).mpr (Or.inr (mem_map_of_mem (hsub.subset hc)))
    settled := by
      intro id hid hsome
      rw [map_append, mem_append]
      rcases (hdrained.seen id).mp hid with hid | hid
      · exact Or.inl (h.settled id hid hsome)
      · obtain ⟨c, hc, rfl⟩ := mem_map.mp hid
        exact Or.inr (mem_map_of_mem (mem_filter.mpr ⟨hc, hsome⟩))
    covered := by
      intro c hc
      rcases h.covered c hc with hc | hc
      · exact hord.covered c hc
      · exact Or.inr ((hdrained.seen _).mpr (Or.inl hc))
    length_le := by
      have hle := hsub.length_le
      have hpicks := h.length_le
      rw [length_append]
      omega }

theorem Progress.topK (h : Progress lists data k heap seen picks)
    (hdone : picks.length = k ∨ heap.flatten = []) : TopK lists data k picks := by
  have hleft : ∀ c ∈ lists.flatten, (data c.internalId).isSome →
      c.internalId ∉ picks.map internalId → c ∈ heap.flatten := by
    intro c hc hsome hnot
    exact (h.covered c hc).resolve_right fun hseen => hnot (h.settled _ hseen hsome)
  refine ⟨h.sorted, h.nodup, h.taken, ?_, ?_⟩
  · -- The ids of the results are among the existing ids, and all of them unless there are `k`.
    have hcard : (picks.map internalId).toFinset.card = picks.length := by
      rw [toFinset_card_of_nodup h.nodup, length_map]
    have hsub : (picks.map internalId).toFinset ⊆ (lists.flatten.map internalId).toFinset.filter
          fun id => (data id).isSome := by
      intro id hid
      obtain ⟨c, hc, rfl⟩ := mem_map.mp (mem_toFinset.mp hid)
      obtain ⟨hmem, hsome⟩ := h.taken c hc
      exact Finset.mem_filter.mpr ⟨mem_toFinset.mpr (mem_map_of_mem hmem), hsome⟩
    have hle := Finset.card_le_card hsub
    rw [hcard] at hle
    rcases hdone with hk | hnil
    · omega
    · have hall : (lists.flatten.map internalId).toFinset.filter
          (fun id => (data id).isSome) ⊆ (picks.map internalId).toFinset := by
        intro id hid
        obtain ⟨hmem, hsome⟩ := Finset.mem_filter.mp hid
        obtain ⟨c, hc, rfl⟩ := mem_map.mp (mem_toFinset.mp hmem)
        by_contra hnot
        have hin := hleft c hc hsome fun hin => hnot (mem_toFinset.mpr hin)
        rw [hnil] at hin
        cases hin
      have hge := Finset.card_le_card hall
      rw [hcard] at hge
      have hk := h.length_le
      omega
  · intro c hc hsome hnot c' hc'
    exact h.before c' hc' c (hleft c hc hsome hnot)

/-- The loop heads that the outer loop goes through. -/
inductive LoopHead (reader : QueryReader V) (choices : Choices V) (score : D → F) (k : Nat)
    (lists : List (List (ScoredCandidate D))) :
    List (List (ScoredCandidate D)) → List VectorId → List (SearchResult V F) → Prop
  | start : LoopHead reader choices score k lists lists [] []
  | next {heap heap' seen seen' results results' batch}
      (head : LoopHead reader choices score k lists heap seen results)
      (drained : drain choices (k - results.length) heap.flatten.length heap seen []
        = (heap', seen', batch))
      (nonempty : batch ≠ [])
      (resolved : resolveBatch reader score k batch results = .ok (results', false)) :
      LoopHead reader choices score k lists heap' seen' results'

/-- The state of the loop between two batches: the results are those of the picks. -/
structure AtHead (lists : List (List (ScoredCandidate D)))
    (data : VectorId → Option (VectorDataValue V)) (score : D → F) (k : Nat)
    (heap : List (List (ScoredCandidate D))) (seen : List VectorId)
    (results : List (SearchResult V F)) (picks : List (ScoredCandidate D)) : Prop where
  progress : Progress lists data k heap seen picks
  results_eq : results = picks.filterMap (resultOf score data)
  length_eq : results.length = picks.length
  missing : k = 0 ∨ results.length < k

variable (hdata : ∀ c ∈ lists.flatten, reader.getVectorData c.internalId = .ok (data c.internalId))

include hdata

theorem AtHead.round
    (h : AtHead lists data score k heap seen results picks)
    (hdrain : drain choices (k - results.length) heap.flatten.length heap seen []
      = (heap', seen', batch)) (hne : batch ≠ []) :
    ∃ results', resolveBatch reader score k batch results
        = .ok (results', decide (results'.length = k)) ∧
      results' = (picks ++ existing data batch).filterMap (resultOf score data) ∧
      results'.length = (picks ++ existing data batch).length ∧
      Progress lists data k heap' seen' (picks ++ existing data batch) ∧
      heap'.flatten.length < heap.flatten.length := by
  obtain ⟨new, hbatch, -, hlen, -⟩ :=
    ordered_of_drain h.progress.heap_lists (Nat.le_refl _) (Nat.zero_le _) hdrain
  obtain ⟨drawn, hdrawn, hdrained⟩ := drained_of_drain hdrain
  rw [nil_append] at hdrawn
  subst hdrawn
  have hpos : 0 < batch.length := length_pos_iff.mpr hne
  have hmissing : results.length < k := by
    rcases h.missing with hk | hlt
    · omega
    · exact hlt
  have hbatch : ∀ c ∈ batch, reader.getVectorData c.internalId = .ok (data c.internalId) :=
    fun c hc => hdata c (h.progress.heap_sub c (hdrained.taken c hc))
  refine ⟨_, resolveBatch_eq hbatch (by omega) hmissing, ?_, ?_, ?_, ?_⟩
  · rw [h.results_eq, filterMap_append, ← filterMap_resultOf]
  · rw [length_append, length_append, length_filterMap_resultOf, h.length_eq]
  · rw [h.length_eq] at hdrain
    exact h.progress.round hdrain
  · have hlength := hdrained.length
    omega

theorem LoopHead.atHead (hsorted : SortedLists lists)
    (h : LoopHead reader choices score k lists heap seen results) :
    ∃ picks, AtHead lists data score k heap seen results picks := by
  induction h with
  | start =>
    refine ⟨[], progress_start hsorted, rfl, rfl, ?_⟩
    rcases Nat.eq_zero_or_pos k with hk | hk
    · exact Or.inl hk
    · exact Or.inr hk
  | next head drained nonempty resolved ih =>
    obtain ⟨picks, hhead⟩ := ih
    obtain ⟨results', hresolved, hresults, hlength, hprogress, -⟩ :=
      hhead.round hdata drained nonempty
    rw [resolved] at hresolved
    obtain ⟨rfl, hdone⟩ := Prod.mk.inj (Except.ok.inj hresolved)
    refine ⟨_, hprogress, hresults, hlength, Or.inr ?_⟩
    have hle := hprogress.length_le
    have hneq := of_decide_eq_false hdone.symm
    omega

theorem AtHead.resolveLoop {fuel}
    (h : AtHead lists data score k heap seen results picks) (hfuel : heap.flatten.length ≤ fuel) :
    ∃ picks', resolveLoop reader choices score k fuel heap seen results
        = .ok (picks'.filterMap (resultOf score data)) ∧ TopK lists data k picks' := by
  induction fuel generalizing heap seen results picks with
  | zero =>
    have hnil : heap.flatten = [] := length_eq_zero_iff.mp (Nat.le_zero.mp hfuel)
    exact ⟨picks, by rw [OpenData.Vector.resolveLoop, h.results_eq], h.progress.topK (Or.inr hnil)⟩
  | succ fuel ih =>
    rw [OpenData.Vector.resolveLoop]
    split
    · -- Nothing came out: the heap is empty, or no result was missing.
      rename_i heap' seen' hdrain
      obtain ⟨new, hnew, hord, -, hend⟩ :=
        ordered_of_drain h.progress.heap_lists (Nat.le_refl _) (Nat.zero_le _) hdrain
      have hprogress : Progress lists data k heap' seen' picks := by
        rw [h.length_eq] at hdrain
        simpa [existing] using h.progress.round hdrain
      refine ⟨picks, by rw [h.results_eq], hprogress.topK ?_⟩
      rcases hend with hend | hnil
      · left
        have hle := h.progress.length_le
        have hlen := h.length_eq
        rw [length_nil] at hend
        omega
      · exact Or.inr hnil
    · rename_i heap' seen' c batch hdrain
      obtain ⟨results', hresolved, hresults, hlength, hprogress, hless⟩ :=
        h.round hdata hdrain (cons_ne_nil c batch)
      rw [hresolved]
      simp only [bind, Except.bind]
      split
      · rename_i hk
        refine ⟨_, by rw [hresults], hprogress.topK (Or.inl ?_)⟩
        rw [← hlength]
        exact of_decide_eq_true hk
      · rename_i hk
        have hle := hprogress.length_le
        have hneq : ¬ results'.length = k := by simpa using hk
        refine ih ⟨hprogress, hresults, hlength, Or.inr (by omega)⟩ (by omega)

omit hdata in
/-- `resolve_top_k` over ordered lists returns the nearest vectors that have data, exactly where it
can allocate the results. At every head of its loop there are at most `k` results, so the
subtraction does not underflow, and every round that goes on leaves fewer candidates in the heap, so
the loop ends: any larger bound on the rounds gives the same. -/
theorem resolveTopK_nearest (lists : List (List (ScoredCandidate D))) (hsorted : SortedLists lists)
    (hdata : ∀ c ∈ lists.flatten, reader.getVectorData c.internalId = .ok (data c.internalId))
    (k : Nat) :
    ((∃ picks results, resolveTopK reader choices score lists k = .ok results ∧
      Forall₂ (fun c result => resultOf score data c = some result) picks results ∧
      TopK lists data k picks) ↔ searchResultBytes * k ≤ isizeMax) ∧
    (∀ heap seen results, LoopHead reader choices score k lists heap seen results →
      results.length ≤ k ∧
      ∀ heap' seen' batch, drain choices (k - results.length) heap.flatten.length heap seen []
        = (heap', seen', batch) → batch ≠ [] → heap'.flatten.length < heap.flatten.length) ∧
    ∀ fuel, lists.flatten.length ≤ fuel → resolveLoop reader choices score k fuel lists [] []
        = resolveLoop reader choices score k lists.flatten.length lists [] [] := by
  have hstart : AtHead lists data score k lists [] [] [] := by
    refine ⟨progress_start hsorted, rfl, rfl, ?_⟩
    rcases Nat.eq_zero_or_pos k with hk | hk
    · exact Or.inl hk
    · exact Or.inr hk
  refine ⟨⟨?_, fun hfits => ?_⟩, ?_, ?_⟩
  · rintro ⟨_, _, hrun, -⟩
    by_contra hfits
    rw [resolveTopK, ensure, if_neg hfits] at hrun
    cases hrun
  · obtain ⟨picks, hrun, htop⟩ := hstart.resolveLoop hdata (Nat.le_refl _)
    rw [resolveTopK, ensure, if_pos hfits]
    exact ⟨picks, _, hrun, forall₂_resultOf fun c hc => (htop.taken c hc).2, htop⟩
  · intro heap seen results hhead
    obtain ⟨picks, hat⟩ := hhead.atHead hdata hsorted
    refine ⟨?_, ?_⟩
    · rw [hat.length_eq]
      exact hat.progress.length_le
    · intro heap' seen' batch hdrain hne
      obtain ⟨-, -, -, -, -, hless⟩ := hat.round hdata hdrain hne
      exact hless
  · intro fuel hfuel
    induction fuel, hfuel using Nat.le_induction with
    | base => rfl
    | succ fuel hle ih => rw [resolveLoop_succ hle, ih]

end

namespace TwoVectors

def candidates : List (List (ScoredCandidate Nat)) :=
  [[⟨red, 5⟩, ⟨plain, 7⟩], [⟨ghost, 1⟩, ⟨red, 6⟩]]

end TwoVectors

theorem resolveTopK_nearest_twoVectors : SortedLists TwoVectors.candidates ∧
      ∃ picks results, resolveTopK (storageReader TwoVectors.store) TwoVectors.choices id
          TwoVectors.candidates 2 = .ok results ∧
        results.map (fun r => (r.vector.id, r.score)) = [("a", 5), ("b", 7)] ∧
        TopK TwoVectors.candidates (fun id => AList.lookup id TwoVectors.store.vectorData) 2
          picks := by
  have hsorted : SortedLists TwoVectors.candidates := by
    simp [SortedLists, TwoVectors.candidates]
  have heval : ((resolveTopK (storageReader TwoVectors.store) TwoVectors.choices id
      TwoVectors.candidates 2).toOption.map fun results =>
        results.map fun r => (r.vector.id, r.score)) = some [("a", 5), ("b", 7)] := by
    decide +kernel
  obtain ⟨results, hresults, hids⟩ := Option.map_eq_some_iff.mp heval
  have hresults := toOption_eq_some.mp hresults
  have hdata : ∀ c ∈ TwoVectors.candidates.flatten,
      (storageReader TwoVectors.store).getVectorData c.internalId
        = .ok (AList.lookup c.internalId TwoVectors.store.vectorData) := by
    intro c hc
    have hlevel : ∀ c ∈ TwoVectors.candidates.flatten, c.internalId.isDataVector = true := by decide
    show (ensure (c.internalId.isDataVector = true) >>= _) = _
    rw [ensure, if_pos (hlevel c hc)]
    rfl
  obtain ⟨picks, results', hrun, -, htop⟩ : ∃ picks results,
      resolveTopK (storageReader TwoVectors.store) TwoVectors.choices id
          TwoVectors.candidates 2 = .ok results ∧
        Forall₂ (fun c result => resultOf id
          (fun id => AList.lookup id TwoVectors.store.vectorData) c = some result) picks results ∧
        TopK TwoVectors.candidates (fun id => AList.lookup id TwoVectors.store.vectorData) 2
          picks :=
    (resolveTopK_nearest TwoVectors.candidates hsorted hdata 2).1.mpr (by decide)
  obtain rfl := Except.ok.inj (hresults.symm.trans hrun)
  exact ⟨hsorted, picks, results, hresults, hids, htop⟩

/-- A query without a limit: the results cannot be allocated. -/
theorem resolveTopK_overflow : resolveTopK (storageReader TwoVectors.store) TwoVectors.choices id
    TwoVectors.candidates usizeMax = .error .panic := by
  rfl

end OpenData.Vector

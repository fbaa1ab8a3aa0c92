import OpenData.Lib.Regroup
import OpenData.Vector.Query

/-!
# Filters and results of a search

A filter is evaluated by set algebra over the metadata index, and the complement of a `neq` is taken
in the set of candidates only. `mem_evaluateFilter` says that this is the evaluation of the filter
on the attributes of each vector, for the ids that are candidates and have data. Nothing is said
about other ids: the index of an `eq` may hold ids that are no candidates, and a candidate without
data passes every `neq`. Both do no harm, because only candidates are looked up in the result, and
those without data are passed over by the merge.
-/

namespace OpenData.Vector

open Lib List AList Except

variable {V : Type}

/-! ### The store -/

/-- What the writer keeps true of the store, as far as a search depends on it: the dictionary has
the current id of each external id, and only current ids have data. The index of a value has the ids
whose data carries it. -/
structure IndexConsistent [DecidableEq V] (same : FieldValue V → FieldValue V → Prop)
    (indexedFields : List String) (st : Storage V) : Prop where
  dictionary : ∀ id data, lookup id st.vectorData = some data →
    lookup data.externalId st.idDictionary = some id
  metadata : ∀ fieldName ∈ indexedFields, ∀ value : FieldValue V, value.isVector = false →
    ∀ n, n ∈ (st.getMetadataIndex { fieldName, value }).effectiveVectorIds ↔
      ∃ id data, id.id = n ∧ lookup id st.vectorData = some data ∧
        Carries same data.fields fieldName value

/-- Every read fails or returns what is stored. -/
structure QueryReader.Reads [DecidableEq V] (reader : QueryReader V) (st : Storage V) : Prop where
  postingList : ∀ id value, reader.getPostingList id = .ok value → value = st.getPostingList id
  vectorData : ∀ id data, reader.getVectorData id = .ok data →
    data = lookup id st.vectorData
  metadataIndex : ∀ fieldName (value : FieldValue V) bitmap,
    reader.getMetadataIndex fieldName value = .ok bitmap →
      value.isVector = false ∧ bitmap = st.getMetadataIndex { fieldName, value }

theorem reads_storageReader [DecidableEq V] (st : Storage V) : (storageReader st).Reads st where
  postingList := by
    intro id value h
    obtain ⟨_, -, h⟩ := exists_of_bind_eq_ok h
    exact (ok.inj h).symm
  vectorData := by
    intro id data h
    obtain ⟨_, -, h⟩ := exists_of_bind_eq_ok h
    exact (ok.inj h).symm
  metadataIndex := by
    intro fieldName value bitmap h
    obtain ⟨_, hensure, h⟩ := exists_of_bind_eq_ok h
    refine ⟨?_, (ok.inj h).symm⟩
    by_contra hvector
    rw [ensure, if_neg hvector] at hensure
    exact absurd hensure (by simp)

/-! ### Filters -/

section
variable [DecidableEq V] {same : FieldValue V → FieldValue V → Prop} {fields : List String}
  {st : Storage V} {reader : QueryReader V} {candidates ids : Finset Nat} {id : VectorId}
  {data : VectorDataValue V} {field : String}

theorem mem_readIndex (hst : IndexConsistent same fields st) (hreader : reader.Reads st)
    (hid : lookup id st.vectorData = some data) (hfield : field ∈ fields)
    {value} (h : readIndex reader field value = .ok ids) :
    id.id ∈ ids ↔ Carries same data.fields field value := by
  obtain ⟨bitmap, hbitmap, h⟩ := exists_of_bind_eq_ok h
  obtain ⟨hvector, rfl⟩ := hreader.metadataIndex _ _ _ hbitmap
  rw [← ok.inj h, hst.metadata field hfield value hvector]
  constructor
  · rintro ⟨id', data', heq, hid', hcarries⟩
    obtain rfl := VectorId.id_injective heq
    obtain rfl := Option.mem_unique hid hid'
    exact hcarries
  · exact fun hcarries => ⟨id, data, rfl, hid, hcarries⟩

theorem mem_inSet (hst : IndexConsistent same fields st) (hreader : reader.Reads st)
    (hid : lookup id st.vectorData = some data) (hfield : field ∈ fields)
    {values : List (FieldValue V)} {result}
    (h : values.foldlM (fun result value => do
      let ids ← readIndex reader field value
      .ok (result ∪ ids)) result = .ok ids) :
    id.id ∈ ids ↔ id.id ∈ result ∨ ∃ value ∈ values, Carries same data.fields field value := by
  induction values generalizing result with
  | nil =>
    cases h
    simp
  | cons value values ih =>
    rw [foldlM_cons] at h
    obtain ⟨result', hresult', h⟩ := exists_of_bind_eq_ok h
    obtain ⟨sub, hsub, hresult'⟩ := exists_of_bind_eq_ok hresult'
    rw [ih h, ← ok.inj hresult', Finset.mem_union,
      mem_readIndex hst hreader hid hfield hsub, exists_mem_cons_iff, or_assoc]

mutual

/-- Of the candidates that have data, the filter allows those that it matches. The induction is on
the filter. -/
theorem mem_evaluateFilter (hst : IndexConsistent same fields st) (hreader : reader.Reads st)
    (hid : lookup id st.vectorData = some data) (hcandidate : id.id ∈ candidates) :
    ∀ {filter : Filter V} {ids : Finset Nat}, filter.Within fields →
      evaluateFilter reader candidates filter = .ok ids →
        (id.id ∈ ids ↔ filter.Matches same data.fields)
  | .eq field value, ids, hwithin, h => by
      rw [evaluateFilter] at h
      exact mem_readIndex hst hreader hid hwithin h
  | .neq field value, ids, hwithin, h => by
      rw [evaluateFilter] at h
      obtain ⟨sub, hsub, h⟩ := exists_of_bind_eq_ok h
      rw [← ok.inj h, Finset.mem_sdiff, mem_readIndex hst hreader hid hwithin hsub, Filter.Matches]
      exact and_iff_right hcandidate
  | .inSet field values, ids, hwithin, h => by
      rw [evaluateFilter] at h
      rw [mem_inSet hst hreader hid hwithin h, Filter.Matches]
      simp
  | .and [], ids, hwithin, h => by
      rw [evaluateFilter] at h
      rw [← ok.inj h, Filter.Matches, AllMatch]
      exact iff_true_intro hcandidate
  | .and (filter :: filters), ids, hwithin, h => by
      rw [evaluateFilter] at h
      rw [Filter.Within, AllWithin] at hwithin
      obtain ⟨result, hresult, h⟩ := exists_of_bind_eq_ok h
      rw [mem_evaluateAnd hst hreader hid hcandidate hwithin.2 h,
        mem_evaluateFilter hst hreader hid hcandidate hwithin.1 hresult, Filter.Matches, AllMatch]
  | .or filters, ids, hwithin, h => by
      rw [evaluateFilter] at h
      rw [mem_evaluateOr hst hreader hid hcandidate hwithin h, Filter.Matches]
      simp

theorem mem_evaluateAnd (hst : IndexConsistent same fields st) (hreader : reader.Reads st)
    (hid : lookup id st.vectorData = some data) (hcandidate : id.id ∈ candidates) :
    ∀ {filters : List (Filter V)} {result ids : Finset Nat}, AllWithin fields filters →
      evaluateAnd reader candidates result filters = .ok ids →
        (id.id ∈ ids ↔ id.id ∈ result ∧ AllMatch same data.fields filters)
  | [], result, ids, hwithin, h => by
      rw [evaluateAnd] at h
      rw [← ok.inj h, AllMatch, and_true]
  | filter :: filters, result, ids, hwithin, h => by
      rw [evaluateAnd] at h
      rw [AllWithin] at hwithin
      obtain ⟨sub, hsub, h⟩ := exists_of_bind_eq_ok h
      rw [mem_evaluateAnd hst hreader hid hcandidate hwithin.2 h, Finset.mem_inter,
        mem_evaluateFilter hst hreader hid hcandidate hwithin.1 hsub, AllMatch, and_assoc]

theorem mem_evaluateOr (hst : IndexConsistent same fields st) (hreader : reader.Reads st)
    (hid : lookup id st.vectorData = some data) (hcandidate : id.id ∈ candidates) :
    ∀ {filters : List (Filter V)} {result ids : Finset Nat}, AllWithin fields filters →
      evaluateOr reader candidates result filters = .ok ids →
        (id.id ∈ ids ↔ id.id ∈ result ∨ AnyMatches same data.fields filters)
  | [], result, ids, hwithin, h => by
      rw [evaluateOr] at h
      rw [← ok.inj h, AnyMatches, or_false]
  | filter :: filters, result, ids, hwithin, h => by
      rw [evaluateOr] at h
      rw [AllWithin] at hwithin
      obtain ⟨sub, hsub, h⟩ := exists_of_bind_eq_ok h
      rw [mem_evaluateOr hst hreader hid hcandidate hwithin.2 h, Finset.mem_union,
        mem_evaluateFilter hst hreader hid hcandidate hwithin.1 hsub, AnyMatches, or_assoc]

end

theorem forall₂_applyFilter {D : Type} (hst : IndexConsistent same fields st)
    (hreader : reader.Reads st) {filter} (hwithin : filter.Within fields)
    {lists lists' : List (List (ScoredCandidate D))}
    (h : applyFilter reader lists filter = .ok lists') :
    Forall₂ (fun list list' => list'.Sublist list ∧ ∀ c ∈ list, ∀ data,
      lookup c.internalId st.vectorData = some data →
        (c ∈ list' ↔ filter.Matches same data.fields)) lists lists' := by
  obtain ⟨allowed, hallowed, h⟩ := exists_of_bind_eq_ok h
  rw [← ok.inj h, forall₂_map_right_iff, forall₂_same]
  intro list hlist
  refine ⟨filter_sublist, fun c hc data hdata => ?_⟩
  have hcandidate : c.internalId.id ∈ candidateIds lists := by
    rw [candidateIds, mem_toFinset]
    exact mem_map_of_mem (mem_flatten.mpr ⟨list, hlist, hc⟩)
  rw [mem_filter, decide_eq_true_eq,
    mem_evaluateFilter hst hreader hdata hcandidate hwithin hallowed]
  exact and_iff_right hc

end

/-! ### The merge of the lists -/

variable {fuel : Nat}

section
variable {D F : Type} [LinearOrder D] {choices : Choices V}
  {heap heap' : List (List (ScoredCandidate D))} {seen seen' : List VectorId}
  {batch : List (ScoredCandidate D)}
  {c : ScoredCandidate D}

theorem perm_of_popHeap (h : popHeap choices heap = some (c, heap')) :
    (c :: heap'.flatten).Perm heap.flatten :=
  (perm_of_popMin h).trans (choices.perm_shuffle _ heap).flatten

theorem popHeap_eq_none (h : popHeap choices heap = none) : heap.flatten = [] := by
  rw [flatten_eq_nil_iff]
  intro s hs
  exact popMin_eq_none h s ((choices.perm_shuffle _ heap).mem_iff.mpr hs)

/-- The new candidates are distinct, come from the heap, and are seen from now on. -/
structure Drained (heap heap' : List (List (ScoredCandidate D))) (seen seen' : List VectorId)
    (new : List (ScoredCandidate D)) : Prop where
  nodup : (new.map ScoredCandidate.internalId).Nodup
  unseen : ∀ c ∈ new, c.internalId ∉ seen
  taken : ∀ c ∈ new, c ∈ heap.flatten
  left : ∀ c ∈ heap'.flatten, c ∈ heap.flatten
  seen : ∀ id, id ∈ seen' ↔ id ∈ seen ∨ id ∈ new.map ScoredCandidate.internalId
  length : heap'.flatten.length + new.length ≤ heap.flatten.length

omit [LinearOrder D] in
theorem drained_nil : Drained heap heap seen seen [] :=
  ⟨nodup_nil, nofun, nofun, fun _ h => h, by simp, by simp⟩

variable {heap1 : List (List (ScoredCandidate D))} {new : List (ScoredCandidate D)}

omit [LinearOrder D] in
theorem Drained.skip (h : Drained heap1 heap' seen seen' new)
    (hpop : (c :: heap1.flatten).Perm heap.flatten) : Drained heap heap' seen seen' new where
  __ := h
  taken := fun c' hc' => hpop.mem_iff.mp (mem_cons_of_mem c (h.taken c' hc'))
  left := fun c' hc' => hpop.mem_iff.mp (mem_cons_of_mem c (h.left c' hc'))
  length := by
    have hlength := hpop.length_eq
    rw [length_cons] at hlength
    have := h.length
    omega

omit [LinearOrder D] in
theorem Drained.take (h : Drained heap1 heap' (c.internalId :: seen) seen' new)
    (hpop : (c :: heap1.flatten).Perm heap.flatten) (hnew : c.internalId ∉ seen) :
    Drained heap heap' seen seen' (c :: new) where
  nodup := by
    rw [map_cons, nodup_cons]
    refine ⟨fun hmem => ?_, h.nodup⟩
    obtain ⟨c', hc', heq⟩ := mem_map.mp hmem
    exact h.unseen c' hc' (heq ▸ mem_cons_self)
  unseen := by
    intro c' hc'
    rcases mem_cons.mp hc' with rfl | hc'
    · exact hnew
    · exact fun hmem => h.unseen c' hc' (mem_cons_of_mem _ hmem)
  taken := by
    intro c' hc'
    rcases mem_cons.mp hc' with rfl | hc'
    · exact hpop.mem_iff.mp mem_cons_self
    · exact hpop.mem_iff.mp (mem_cons_of_mem c (h.taken c' hc'))
  left := fun c' hc' => hpop.mem_iff.mp (mem_cons_of_mem c (h.left c' hc'))
  seen := by
    intro id
    rw [h.seen id, map_cons, mem_cons, mem_cons]
    tauto
  length := by
    have hlength := hpop.length_eq
    rw [length_cons] at hlength
    have := h.length
    rw [length_cons]
    omega

theorem drained_of_drain {limit batch'}
    (h : drain choices limit fuel heap seen batch = (heap', seen', batch')) :
    ∃ new, batch' = batch ++ new ∧ Drained heap heap' seen seen' new := by
  have hstop : ∀ heap seen batch, (heap, seen, batch) = (heap', seen', batch') →
      ∃ new, batch' = batch ++ new ∧ Drained heap heap' seen seen' new := by
    rintro _ _ _ heq
    obtain ⟨rfl, rfl, rfl⟩ := by simpa using heq
    exact ⟨[], (append_nil _).symm, drained_nil⟩
  induction fuel generalizing heap seen batch with
  | zero => exact hstop _ _ _ h
  | succ fuel ih =>
    rw [drain] at h
    split at h
    · cases hpop : popHeap choices heap with
      | none =>
        rw [hpop] at h
        exact hstop _ _ _ h
      | some popped =>
        obtain ⟨c, heap1⟩ := popped
        have hperm := perm_of_popHeap hpop
        simp only [hpop] at h
        split at h
        · obtain ⟨new, rfl, hnew⟩ := ih h
          exact ⟨new, rfl, hnew.skip hperm⟩
        · rename_i hunseen
          obtain ⟨new, rfl, hnew⟩ := ih h
          exact ⟨c :: new, by simp, hnew.take hperm hunseen⟩
    · exact hstop _ _ _ h

variable {results : List (SearchResult V F)}

section
variable [DecidableEq V] {st : Storage V} {reader : QueryReader V} {score : D → F}

def Resolves (st : Storage V) (result : SearchResult V F) (id : VectorId) : Prop :=
  ∃ data, lookup id st.vectorData = some data ∧ result.vector = vectorDataToVector data

variable {results' : List (SearchResult V F)}

omit [LinearOrder D] in
theorem resolves_of_resolveBatch (hreader : reader.Reads st) {k done}
    (h : resolveBatch reader score k batch results = .ok (results', done)) :
    ∃ new ids, results' = results ++ new ∧ Forall₂ (Resolves st) new ids ∧
      ids.Sublist (batch.map ScoredCandidate.internalId) := by
  induction batch generalizing results with
  | nil =>
    obtain ⟨rfl, -⟩ := Prod.mk.inj (ok.inj h)
    exact ⟨[], [], (append_nil _).symm, .nil, Sublist.slnil⟩
  | cons c batch ih =>
    rw [resolveBatch] at h
    obtain ⟨data, hdata, h⟩ := exists_of_bind_eq_ok h
    have hstored := hreader.vectorData _ _ hdata
    cases data with
    | none =>
      obtain ⟨new, ids, hresults, hnew, hids⟩ := ih h
      exact ⟨new, ids, hresults, hnew, hids.cons _⟩
    | some data =>
      simp only at h
      have hresolves : Resolves st
          { score := score c.distance, vector := vectorDataToVector data } c.internalId :=
        ⟨data, hstored.symm, rfl⟩
      split at h
      · obtain ⟨rfl, -⟩ := Prod.mk.inj (ok.inj h)
        exact ⟨[_], [_], rfl, .cons hresolves .nil, (nil_sublist _).cons_cons _⟩
      · obtain ⟨new, ids, rfl, hnew, hids⟩ := ih h
        exact ⟨_ :: new, _ :: ids, by simp, .cons hresolves hnew, hids.cons_cons _⟩

/-- The new results are the data of distinct candidates that were not seen before. -/
structure Resolved (st : Storage V) (heap : List (List (ScoredCandidate D))) (seen : List VectorId)
    (new : List (SearchResult V F)) (ids : List VectorId) : Prop where
  stored : Forall₂ (Resolves st) new ids
  nodup : ids.Nodup
  unseen : ∀ id ∈ ids, id ∉ seen
  taken : ∀ id ∈ ids, ∃ c ∈ heap.flatten, c.internalId = id

omit [LinearOrder D] [DecidableEq V] in
theorem Resolved.prepend {new new' : List (SearchResult V F)} {ids ids'}
    (hdrained : Drained heap heap' seen seen' batch) (hnew : Forall₂ (Resolves st) new ids)
    (hids : ids.Sublist (batch.map ScoredCandidate.internalId))
    (h : Resolved st heap' seen' new' ids') :
    Resolved st heap seen (new ++ new') (ids ++ ids') where
  stored := rel_append hnew h.stored
  nodup := by
    refine (hids.nodup hdrained.nodup).append h.nodup fun id hid hid' => ?_
    exact h.unseen id hid' ((hdrained.seen id).mpr (.inr (hids.subset hid)))
  unseen := by
    intro id hid
    rcases mem_append.mp hid with hid | hid
    · obtain ⟨c, hc, rfl⟩ := mem_map.mp (hids.subset hid)
      exact hdrained.unseen c hc
    · exact fun hmem => h.unseen id hid ((hdrained.seen id).mpr (.inl hmem))
  taken := by
    intro id hid
    rcases mem_append.mp hid with hid | hid
    · obtain ⟨c, hc, heq⟩ := mem_map.mp (hids.subset hid)
      exact ⟨c, hdrained.taken c hc, heq⟩
    · obtain ⟨c, hc, heq⟩ := h.taken id hid
      exact ⟨c, hdrained.left c hc, heq⟩

omit [LinearOrder D] [DecidableEq V] in
theorem resolved_nil : Resolved st heap seen ([] : List (SearchResult V F)) [] :=
  ⟨.nil, nodup_nil, nofun, nofun⟩

theorem resolved_of_resolveLoop (hreader : reader.Reads st) {k : Nat}
    (h : resolveLoop reader choices score k fuel heap seen results = .ok results') :
    ∃ new ids, results' = results ++ new ∧ Resolved st heap seen new ids := by
  induction fuel generalizing heap seen results with
  | zero =>
    rw [resolveLoop] at h
    exact ⟨[], [], by rw [← ok.inj h, append_nil], resolved_nil⟩
  | succ fuel ih =>
    rw [resolveLoop] at h
    split at h
    · exact ⟨[], [], by rw [← ok.inj h, append_nil], resolved_nil⟩
    · rename_i heap' seen' c batch hdrain
      obtain ⟨drawn, rfl, hdrained⟩ := drained_of_drain hdrain
      obtain ⟨⟨results1, done⟩, hbatch, h⟩ := exists_of_bind_eq_ok h
      obtain ⟨new, ids, rfl, hnew, hids⟩ := resolves_of_resolveBatch hreader hbatch
      simp only at h
      split at h
      · have hresolved := Resolved.prepend hdrained hnew hids resolved_nil
        rw [append_nil, append_nil] at hresolved
        exact ⟨new, ids, (ok.inj h).symm, hresolved⟩
      · obtain ⟨new', ids', rfl, hresolved⟩ := ih h
        exact ⟨new ++ new', ids ++ ids', append_assoc .., .prepend hdrained hnew hids hresolved⟩

omit [DecidableEq V] in
theorem resolveLoop_succ {k} (hfuel : heap.flatten.length ≤ fuel) :
    resolveLoop reader choices score k (fuel + 1) heap seen results =
      resolveLoop reader choices score k fuel heap seen results := by
  induction fuel generalizing heap seen results with
  | zero =>
    simp only [resolveLoop, Nat.le_zero.mp hfuel, drain]
  | succ fuel ih =>
    rw [resolveLoop]
    conv_rhs => rw [resolveLoop]
    split
    · rfl
    · rename_i heap' seen' c batch hdrain
      obtain ⟨drawn, hdrawn, hdrained⟩ := drained_of_drain hdrain
      have hlength := hdrained.length
      rw [← nil_append drawn, ← hdrawn, length_cons] at hlength
      simp only [ih (show heap'.flatten.length ≤ fuel by omega)]

end

end

/-! ### Search -/

section
variable [DecidableEq V] {F : Type} {same : FieldValue V → FieldValue V → Prop}
  {fields : List String} {st : Storage V} {D : Type} {heap : List (List (ScoredCandidate D))}
  {seen ids : List VectorId} {results : List (SearchResult V F)}

theorem Resolved.nodup_vectorIds (hst : IndexConsistent same fields st)
    (h : Resolved st heap seen results ids) : (results.map fun r => r.vector.id).Nodup := by
  have hmap : (results.map fun r => r.vector.id).map (fun id => lookup id st.idDictionary) =
      ids.map some := by
    have hstored := h.stored
    clear h
    induction hstored with
    | nil => rfl
    | cons hr _ ih =>
      obtain ⟨data, hdata, hvector⟩ := hr
      rw [map_cons, map_cons, map_cons, ih, hvector]
      exact congrArg (· :: _) (hst.dictionary _ data hdata)
  have hnodup : (ids.map some).Nodup := h.nodup.map (Option.some_injective _)
  rw [← hmap] at hnodup
  exact hnodup.of_map

omit [DecidableEq V] in
theorem vectorIds_applyFieldSelection (selection : FieldSelection)
    (results : List (SearchResult V F)) :
    (applyFieldSelection selection results).map (fun r => r.vector.id) =
      results.map fun r => r.vector.id := by
  rw [applyFieldSelection, map_map]
  refine map_congr_left fun r _ => ?_
  cases selection <;> rfl

omit [DecidableEq V] in
theorem exists_of_searchWithOptions [LinearOrder F] {math choices}
    {engine : QueryEngine V F} {query options filter}
    (hfilter : query.filter = some filter)
    (h : engine.searchWithOptions math choices query options = .ok results) :
    results = [] ∨ ∃ (lists lists' : List (List
        (ScoredCandidate (VectorDistance F engine.options.distanceMetric)))) (results' : _),
      applyFilter engine.storage lists filter = .ok lists' ∧
      resolveTopK engine.storage choices VectorDistance.score lists' query.limit = .ok results' ∧
      results = applyFieldSelection query.includeFields results' := by
  simp only [QueryEngine.searchWithOptions] at h
  split at h
  · exact absurd h (by simp)
  · obtain ⟨centroids, -, h⟩ := exists_of_bind_eq_ok h
    split at h
    · exact .inl (ok.inj h).symm
    · obtain ⟨lists, -, h⟩ := exists_of_bind_eq_ok h
      split at h
      · exact .inl (ok.inj h).symm
      · obtain ⟨lists', hlists', h⟩ := exists_of_bind_eq_ok h
        obtain ⟨results', hresults', h⟩ := exists_of_bind_eq_ok h
        rw [hfilter] at hlists'
        exact .inr ⟨lists, lists', results', hlists', hresults', (ok.inj h).symm⟩

/-- In a store with a consistent index, and for a filter on indexed fields: every result of a search
is a stored vector whose attributes the filter matches, no vector is in the results twice, and the
lists that the filter leaves have exactly those of their candidates with data that it matches. -/
theorem search_filtered [LinearOrder F] {math : VectorMath V F} {choices : Choices V}
    {engine : QueryEngine V F} (hst : IndexConsistent same fields st)
    (hreader : engine.storage.Reads st) {query : Query V} {options : SearchOptions}
    {filter : Filter V} (hfilter : query.filter = some filter) (hwithin : filter.Within fields) :
    (∀ results, engine.searchWithOptions math choices query options = .ok results →
      (∀ r ∈ results, ∃ id data, lookup id st.vectorData = some data ∧
        r.vector.id = data.externalId ∧ filter.Matches same data.fields) ∧
      (results.map fun r => r.vector.id).Nodup) ∧ ∀ lists lists' : List (List
        (ScoredCandidate (VectorDistance F engine.options.distanceMetric))),
      applyFilter engine.storage lists filter = .ok lists' →
        Forall₂ (fun list list' => list'.Sublist list ∧ ∀ c ∈ list, ∀ data,
          lookup c.internalId st.vectorData = some data →
            (c ∈ list' ↔ filter.Matches same data.fields)) lists lists' := by
  refine ⟨fun results h => ?_, fun lists lists' h => forall₂_applyFilter hst hreader hwithin h⟩
  rcases exists_of_searchWithOptions hfilter h with
    rfl | ⟨lists, lists', results', hlists, hresults,
    rfl⟩
  · exact ⟨nofun, nodup_nil⟩
  obtain ⟨_, -, hresults⟩ := exists_of_bind_eq_ok hresults
  obtain ⟨new, ids, hnew, hresolved⟩ := resolved_of_resolveLoop hreader hresults
  rw [nil_append] at hnew
  subst hnew
  rw [vectorIds_applyFieldSelection]
  refine ⟨fun r hr => ?_, hresolved.nodup_vectorIds hst⟩
  have hid : r.vector.id ∈ results'.map fun r => r.vector.id := by
    rw [← vectorIds_applyFieldSelection query.includeFields results']
    exact mem_map_of_mem hr
  obtain ⟨r', hr', hid⟩ := mem_map.mp hid
  obtain ⟨id, hmem, data, hdata, hvector⟩ := exists_of_mem_forall₂ hresolved.stored.flip hr'
  refine ⟨id, data, hdata, by rw [← hid, hvector, vectorDataToVector], ?_⟩
  -- The candidate of the result is in a list that the filter left.
  obtain ⟨c, hc, rfl⟩ := hresolved.taken id hmem
  obtain ⟨list', hlist', hc⟩ := mem_flatten.mp hc
  obtain ⟨list, -, hsublist, hmatches⟩ :=
    exists_of_mem_forall₂ (forall₂_applyFilter hst hreader hwithin hlists) hlist'
  exact (hmatches c (hsublist.subset hc) data hdata).mp hc

end

/-! ### A store of two vectors -/

namespace TwoVectors

theorem data_level_lt : 0 < 2 ^ 8 := by decide

theorem leaf_level_lt : 1 < 2 ^ 8 := by decide

theorem one_lt : 1 < 2 ^ 56 := by decide

theorem two_lt : 2 < 2 ^ 56 := by decide

theorem three_lt : 3 < 2 ^ 56 := by decide

def red : VectorId := ⟨0, 1, data_level_lt, one_lt⟩

def plain : VectorId := ⟨0, 2, data_level_lt, two_lt⟩

def ghost : VectorId := ⟨0, 3, data_level_lt, three_lt⟩

def leaf : VectorId := ⟨1, 1, leaf_level_lt, one_lt⟩

def store : Storage Nat :=
  { Storage.empty with
    postingLists := insert leaf
      (PostingListValue.fromPostingUpdates [.append red 5, .append plain 7]) ∅
    idDictionary := insert "a" red (insert "b" plain ∅)
    vectorData := insert red { externalId := "a", fields := [⟨"color", .string "red"⟩] }
      (insert plain { externalId := "b", fields := [] } ∅)
    metadataIndex := insert ⟨"color", .string "red"⟩ { included := {1}, excluded := ∅ } ∅ }

theorem lookup_vectorData (id : VectorId) : lookup id store.vectorData =
    if id = red then some { externalId := "a", fields := [⟨"color", .string "red"⟩] }
    else if id = plain then some { externalId := "b", fields := [] } else none := by
  rw [store]
  split
  · rename_i heq
    rw [heq, lookup_insert]
  · rename_i hne
    rw [lookup_insert_ne hne]
    split
    · rename_i heq
      rw [heq, lookup_insert]
    · rename_i hne'
      rw [lookup_insert_ne hne', lookup_empty]

theorem carries_iff {n value} : (∃ id data, id.id = n ∧ lookup id store.vectorData = some data ∧
      Carries (· = ·) data.fields "color" value) ↔ n = 1 ∧ value = .string "red" := by
  constructor
  · rintro ⟨id, data, rfl, hdata, f, hf, -, rfl⟩
    rw [lookup_vectorData] at hdata
    split at hdata
    · rename_i heq
      rw [← Option.some.inj hdata] at hf
      rw [heq, mem_singleton.mp hf]
      exact ⟨by decide, rfl⟩
    · split at hdata
      · rw [← Option.some.inj hdata] at hf
        exact absurd hf not_mem_nil
      · exact absurd hdata (by simp)
  · rintro ⟨rfl, rfl⟩
    exact ⟨red, _, by decide, lookup_vectorData red, _, mem_singleton.mpr rfl, rfl, rfl⟩

theorem indexConsistent : IndexConsistent (· = ·) ["color"] store where
  dictionary := by
    intro id data h
    rw [lookup_vectorData] at h
    split at h
    · rename_i heq
      rw [← Option.some.inj h, heq]
      decide
    · split at h
      · rename_i heq
        rw [← Option.some.inj h, heq]
        decide
      · exact absurd h (by simp)
  metadata := by
    intro fieldName hfield value _ n
    obtain rfl := mem_singleton.mp hfield
    rw [carries_iff, Storage.getMetadataIndex, store]
    by_cases hvalue : value = .string "red"
    · rw [hvalue, lookup_insert]
      simp [MetadataIndexValue.effectiveVectorIds]
    · have hne : (⟨"color", value⟩ : Field Nat) ≠ ⟨"color", .string "red"⟩ :=
        fun heq => hvalue (Field.mk.inj heq).2
      rw [lookup_insert_ne hne]
      simp [MetadataIndexValue.effectiveVectorIds, MetadataIndexValue.empty, hvalue]

def math : VectorMath Nat Nat where
  length _ := 1
  l2NormalizeVector v := v
  l2Distance a b := (a - b) + (b - a)
  dotProduct a b := a * b
  one := 1
  add := (· + ·)
  mul := (· * ·)
  neg x := x
  powi := (· ^ ·)
  ltZero _ := false
  le a b := a ≤ b
  sortScored := sortBy Prod.snd
  sortScored_perm := perm_sortBy Prod.snd

theorem perm_order (_ : List Nat) (n : Nat) : (range n).Perm (range n) := .refl _

def choices : Choices Nat where
  order _ n := range n
  order_perm := perm_order
  twoMeans _ _ := (0, 0)

def engine : QueryEngine Nat Nat where
  options := { dimensions := 1, distanceMetric := .l2, queryPruningFactor := some 1 }
  centroidIndex _ := .value [(leaf, 6)]
  depth := { val := 3, three_le := by decide, lt := by decide }
  storage := storageReader store

def filter : Filter Nat := .and [.neq "color" (.string "red"), .or [.neq "color" (.string "blue")]]

def query : Query Nat :=
  { vector := 6, limit := 3, filter := some filter, includeFields := .none }

end TwoVectors

theorem search_filtered_twoVectors :
    ∃ results, TwoVectors.engine.searchWithOptions TwoVectors.math TwoVectors.choices
        TwoVectors.query { nprobe := none } = .ok results ∧
      results.map (fun r => r.vector.id) = ["b"] ∧
      ∀ r ∈ results, ∃ id data, lookup id TwoVectors.store.vectorData = some data ∧
        r.vector.id = data.externalId ∧ TwoVectors.filter.Matches (· = ·) data.fields := by
  have heval : ((TwoVectors.engine.searchWithOptions TwoVectors.math TwoVectors.choices
      TwoVectors.query { nprobe := none }).toOption.map fun results =>
        results.map fun r => r.vector.id) = some ["b"] := by
    decide +kernel
  obtain ⟨results, hresults, hids⟩ := Option.map_eq_some_iff.mp heval
  have hresults := toOption_eq_some.mp hresults
  have hwithin : TwoVectors.filter.Within ["color"] := by
    simp [TwoVectors.filter, Filter.Within, AllWithin]
  have hreads : TwoVectors.engine.storage.Reads TwoVectors.store := reads_storageReader _
  have hfilter : TwoVectors.query.filter = some TwoVectors.filter := rfl
  obtain ⟨hsearch, -⟩ := search_filtered TwoVectors.indexConsistent hreads hfilter hwithin
  exact ⟨results, hresults, hids, (hsearch results hresults).1⟩

end OpenData.Vector

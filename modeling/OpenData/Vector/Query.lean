import OpenData.Vector.Centroids

/-!
# The query engine

The embedding of `QueryEngine::search_with_options` (`vector/src/query_engine.rs`). A search finds
the nearest leaf centroids, loads their posting lists as lists of candidates in the order of their
distance, takes out what the filter of the query does not allow, and merges the lists until it has
enough vectors.
-/

namespace OpenData.Vector

open Lib

/-! ### Distances -/

inductive DistanceMetric where
  | l2
  | cosine
  | dotProduct
deriving Repr, DecidableEq

/-- What the query engine computes with vectors and floating-point numbers. The order of `F` is that
of `total_cmp`, and `le` is that of `<=`. -/
structure VectorMath (V F : Type) where
  length : V → Nat
  l2NormalizeVector : V → V
  l2Distance : V → V → F
  dotProduct : V → V → F
  one : F
  add : F → F → F
  mul : F → F → F
  neg : F → F
  powi : F → Nat → F
  ltZero : F → Bool
  le : F → F → Bool
  sortScored : List (VectorId × F) → List (VectorId × F)
  sortScored_perm : ∀ scored, (sortScored scored).Perm scored

def VectorDistance (F : Type) : DistanceMetric → Type
  | .l2 => F
  | .cosine => F
  | .dotProduct => Fᵒᵈ

instance {F : Type} [LinearOrder F] : (metric : DistanceMetric) →
    LinearOrder (VectorDistance F metric)
  | .l2 => inferInstanceAs (LinearOrder F)
  | .cosine => inferInstanceAs (LinearOrder F)
  | .dotProduct => inferInstanceAs (LinearOrder Fᵒᵈ)

def VectorDistance.score {F : Type} : {metric : DistanceMetric} → VectorDistance F metric → F
  | .l2, d => d
  | .cosine, d => d
  | .dotProduct, d => OrderDual.ofDual d

namespace VectorMath

variable {V F : Type} (math : VectorMath V F)

def computeDistance (a b : V) : (metric : DistanceMetric) → VectorDistance F metric
  | .l2 => math.l2Distance a b
  | .cosine => math.l2Distance a b
  | .dotProduct => OrderDual.toDual (math.dotProduct a b)

def rawDistance (a b : V) (metric : DistanceMetric) : F :=
  match metric with
  | .dotProduct => math.neg (math.computeDistance a b metric).score
  | _ => (math.computeDistance a b metric).score

def normalizeIfNeeded (metric : DistanceMetric) (v : V) : V :=
  if metric = .cosine then math.l2NormalizeVector v else v

end VectorMath

/-! ### Queries -/

inductive Filter (V : Type) where
  | eq (field : String) (value : FieldValue V)
  | neq (field : String) (value : FieldValue V)
  | inSet (field : String) (values : List (FieldValue V))
  | and (filters : List (Filter V))
  | or (filters : List (Filter V))

inductive FieldSelection where
  | all
  | none
  | fields (names : List String)

structure Query (V : Type) where
  vector : V
  limit : Nat
  filter : Option (Filter V)
  includeFields : FieldSelection

structure SearchOptions where
  nprobe : Option Nat

structure FoundVector (V : Type) where
  id : String
  attributes : List (Field V)

structure SearchResult (V F : Type) where
  score : F
  vector : FoundVector V

/-! ### What a filter means -/

section
variable {V : Type}

def Carries (same : FieldValue V → FieldValue V → Prop) (attributes : List (Field V))
    (field : String) (value : FieldValue V) : Prop :=
  ∃ f ∈ attributes, f.fieldName = field ∧ same f.value value

mutual

/-- The filter on the attributes of one vector. A `neq` holds of a vector without the attribute. -/
def Filter.Matches (same : FieldValue V → FieldValue V → Prop) (attributes : List (Field V)) :
    Filter V → Prop
  | .eq field value => Carries same attributes field value
  | .neq field value => ¬ Carries same attributes field value
  | .inSet field values => ∃ value ∈ values, Carries same attributes field value
  | .and filters => AllMatch same attributes filters
  | .or filters => AnyMatches same attributes filters

def AllMatch (same : FieldValue V → FieldValue V → Prop) (attributes : List (Field V)) :
    List (Filter V) → Prop
  | [] => True
  | filter :: filters => filter.Matches same attributes ∧ AllMatch same attributes filters

def AnyMatches (same : FieldValue V → FieldValue V → Prop) (attributes : List (Field V)) :
    List (Filter V) → Prop
  | [] => False
  | filter :: filters => filter.Matches same attributes ∨ AnyMatches same attributes filters

end

mutual

/-- The filter names no other fields. -/
def Filter.Within (fields : List String) : Filter V → Prop
  | .eq field _ => field ∈ fields
  | .neq field _ => field ∈ fields
  | .inSet field _ => field ∈ fields
  | .and filters => AllWithin fields filters
  | .or filters => AllWithin fields filters

def AllWithin (fields : List String) : List (Filter V) → Prop
  | [] => True
  | filter :: filters => filter.Within fields ∧ AllWithin fields filters

end

end

/-! ### Reads -/

structure QueryReader (V : Type) where
  getPostingList : VectorId → Result (PostingListValue V)
  getVectorData : VectorId → Result (Option (VectorDataValue V))
  getMetadataIndex : String → FieldValue V → Result MetadataIndexValue

/-- The reads of a store. The list of an id that is no node and the data of an id that is no data
vector cannot be asked for, and the key of a vector value cannot be encoded. -/
def storageReader {V : Type} [DecidableEq V] (st : Storage V) : QueryReader V where
  getPostingList id := do
    ensure (id.isCentroid ∨ id = VectorId.root)
    .ok (st.getPostingList id)
  getVectorData id := do
    ensure id.isDataVector
    .ok (AList.lookup id st.vectorData)
  getMetadataIndex fieldName value := do
    ensure (value.isVector = false)
    .ok (st.getMetadataIndex { fieldName, value })

section
variable {V : Type} (reader : QueryReader V)

/-! ### Filters -/

def readIndex (field : String) (value : FieldValue V) : Result (Finset Nat) := do
  let bitmap ← reader.getMetadataIndex field value
  .ok bitmap.effectiveVectorIds

mutual

def evaluateFilter (candidates : Finset Nat) : Filter V → Result (Finset Nat)
  | .eq field value => readIndex reader field value
  | .neq field value => do
      let ids ← readIndex reader field value
      .ok (candidates \ ids)
  | .inSet field values =>
    values.foldlM (fun result value => do
      let ids ← readIndex reader field value
      .ok (result ∪ ids)) ∅
  | .and [] => .ok candidates
  | .and (filter :: filters) => do
      let result ← evaluateFilter candidates filter
      evaluateAnd candidates result filters
  | .or filters => evaluateOr candidates ∅ filters

def evaluateAnd (candidates result : Finset Nat) : List (Filter V) → Result (Finset Nat)
  | [] => .ok result
  | filter :: filters => do
      let sub ← evaluateFilter candidates filter
      evaluateAnd candidates (result ∩ sub) filters

def evaluateOr (candidates result : Finset Nat) : List (Filter V) → Result (Finset Nat)
  | [] => .ok result
  | filter :: filters => do
      let sub ← evaluateFilter candidates filter
      evaluateOr candidates (result ∪ sub) filters

end

variable {D : Type}

structure ScoredCandidate (D : Type) where
  internalId : VectorId
  distance : D

def candidateIds (sortedLists : List (List (ScoredCandidate D))) : Finset Nat :=
  (sortedLists.flatten.map fun c => c.internalId.id).toFinset

def applyFilter (sortedLists : List (List (ScoredCandidate D))) (filter : Filter V) :
    Result (List (List (ScoredCandidate D))) := do
  let allowed ← evaluateFilter reader (candidateIds sortedLists) filter
  .ok (sortedLists.map fun list => list.filter fun c => c.internalId.id ∈ allowed)

/-! ### The merge of the lists -/

def vectorDataToVector (vectorData : VectorDataValue V) : FoundVector V :=
  { id := vectorData.externalId, attributes := vectorData.fields }

variable [LinearOrder D] (choices : Choices V)

def popHeap (heap : List (List (ScoredCandidate D))) :
    Option (ScoredCandidate D × List (List (ScoredCandidate D))) :=
  popMin ScoredCandidate.distance (choices.shuffle [heap.flatten.length] heap)

/-- The inner loop: up to `limit` candidates that were not seen. The first argument bounds the
number of pops. -/
def drain (limit : Nat) : Nat → List (List (ScoredCandidate D)) → List VectorId →
    List (ScoredCandidate D) →
    List (List (ScoredCandidate D)) × List VectorId × List (ScoredCandidate D)
  | 0, heap, seen, batch => (heap, seen, batch)
  | fuel + 1, heap, seen, batch =>
    if batch.length < limit then
      match popHeap choices heap with
      | none => (heap, seen, batch)
      | some (candidate, heap) =>
        if candidate.internalId ∈ seen then drain limit fuel heap seen batch
        else
          drain limit fuel heap (candidate.internalId :: seen) (batch ++ [candidate])
    else (heap, seen, batch)

variable {F : Type} (score : D → F)

/-- The results with those of a batch, and whether there are `k` now. -/
def resolveBatch (k : Nat) : List (ScoredCandidate D) → List (SearchResult V F) →
    Result (List (SearchResult V F) × Bool)
  | [], results => .ok (results, false)
  | c :: batch, results => do
      let vectorData ← reader.getVectorData c.internalId
      match vectorData with
      | none => resolveBatch k batch results
      | some vectorData =>
        let results :=
          results ++ [{ score := score c.distance, vector := vectorDataToVector vectorData }]
        if results.length = k then .ok (results, true) else resolveBatch k batch results

def resolveLoop (k : Nat) : Nat → List (List (ScoredCandidate D)) → List VectorId →
    List (SearchResult V F) → Result (List (SearchResult V F))
  | 0, _, _, results => .ok results
  | fuel + 1, heap, seen, results =>
    match drain choices (k - results.length) heap.flatten.length heap seen [] with
    | (_, _, []) => .ok results
    | (heap, seen, c :: batch) => do
        let (results, done) ← resolveBatch reader score k (c :: batch) results
        if done then .ok results else resolveLoop k fuel heap seen results

/-- The size of a `SearchResult`: a score, a string and a vector. -/
def searchResultBytes : Nat := 56

/-- The results are allocated for `k` items before the loop. The candidates of a batch are smaller
and no more than that. -/
def resolveTopK (sortedLists : List (List (ScoredCandidate D))) (k : Nat) :
    Result (List (SearchResult V F)) := do
  ensure (searchResultBytes * k ≤ isizeMax)
  resolveLoop reader choices score k sortedLists.flatten.length sortedLists [] []

end

def applyFieldSelection {V F : Type} (selection : FieldSelection)
    (results : List (SearchResult V F)) : List (SearchResult V F) :=
  results.map fun result =>
    match selection with
    | .all => result
    | .none => { result with vector := { result.vector with attributes := [] } }
    | .fields names =>
      { result with vector :=
        { result.vector with
          attributes := result.vector.attributes.filter fun a => a.fieldName ∈ names } }

/-! ### Search -/

structure QueryEngineOptions (F : Type) where
  dimensions : Nat
  distanceMetric : DistanceMetric
  queryPruningFactor : Option F

structure QueryEngine (V F : Type) where
  options : QueryEngineOptions F
  centroidIndex : VectorId → MaybeCached (PostingList V)
  depth : TreeDepth
  storage : QueryReader V

namespace QueryEngine

variable {V F : Type} [LinearOrder F] (math : VectorMath V F) (choices : Choices V)
  (engine : QueryEngine V F)

omit [LinearOrder F] in
def pruningThreshold (metric : DistanceMetric) (epsilon closest : F) : F :=
  match metric with
  | .dotProduct => math.mul (math.add math.one epsilon) closest
  | _ => math.mul (math.powi (math.add math.one epsilon) 2) closest

omit [LinearOrder F] in
def pruneCentroids (centroids : PostingList V) (query : V) : List VectorId :=
  match engine.options.queryPruningFactor with
  | none => centroids.map Prod.fst
  | some epsilon =>
    let metric := engine.options.distanceMetric
    let scored := math.sortScored
      (centroids.map fun p => (p.1, math.rawDistance query p.2 metric))
    match scored with
    | [] => []
    | (_, closest) :: _ =>
      if math.ltZero closest then scored.map Prod.fst
      else
        (scored.takeWhile fun e =>
          math.le e.2 (pruningThreshold math metric epsilon closest)).map Prod.fst

def scoreList (query : V) (site : Nat) (centroidId : VectorId) :
    Result (List (ScoredCandidate (VectorDistance F engine.options.distanceMetric))) := do
  let value ← engine.storage.getPostingList centroidId
  .ok (sortBy ScoredCandidate.distance (choices.shuffle [site]
    ((PostingList.fromValue value).map fun p =>
      { internalId := p.1
        distance := math.computeDistance query p.2 engine.options.distanceMetric })))

def joined {α : Type} : Result α → Result α
  | .error .panic => .error (.err (.internal "task join error"))
  | result => result

def loadAndScore (centroidIds : List VectorId) (query : V) :
    Result (List (List (ScoredCandidate (VectorDistance F engine.options.distanceMetric)))) := do
  let lists ← centroidIds.zipIdx.mapM fun (id, site) =>
    joined (scoreList math choices engine query site id)
  .ok (lists.filter fun list => !list.isEmpty)

def searchCentroids (query : V) (k : Nat) : Result (PostingList V) :=
  searchInLevel (fun a b => math.computeDistance a b engine.options.distanceMetric)
    engine.centroidIndex engine.depth query k leafLevel

def filterLists {D : Type} (sortedLists : List (List (ScoredCandidate D))) :
    Option (Filter V) → Result (List (List (ScoredCandidate D)))
  | none => .ok sortedLists
  | some filter => applyFilter engine.storage sortedLists filter

def searchWithOptions (query : Query V) (options : SearchOptions) :
    Result (List (SearchResult V F)) :=
  let nprobe := options.nprobe.getD (max 10 (min query.limit 100))
  if math.length query.vector ≠ engine.options.dimensions then
    .error (.err (.invalidInput (s!"Query dimension mismatch: expected " ++
      s!"{engine.options.dimensions}, got {math.length query.vector}")))
  else do
    let queryVector := math.normalizeIfNeeded engine.options.distanceMetric query.vector
    let centroids ← searchCentroids math engine queryVector nprobe
    if centroids = [] then .ok []
    else do
      let centroidIds := pruneCentroids math engine centroids queryVector
      let sortedLists ← loadAndScore math choices engine centroidIds queryVector
      if sortedLists = [] then .ok []
      else do
        let sortedLists ← filterLists engine sortedLists query.filter
        let results ← resolveTopK engine.storage choices VectorDistance.score sortedLists
          query.limit
        .ok (applyFieldSelection query.includeFields results)

end QueryEngine

end OpenData.Vector

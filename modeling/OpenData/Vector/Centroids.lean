import OpenData.Vector.Storage

/-!
# The centroid cache and the search in the tree

The writer keeps the posting lists of the root and of all centroids above the leaves in one cache
that it shares with the readers. Each entry has the epoch of the batch that wrote it. A reader of an
older snapshot does not use an entry that is newer than its snapshot and reads the list from the
storage.
-/

namespace OpenData.Vector

open Lib

variable {V D : Type}

/-! ### Reads -/

inductive MaybeCached (α : Type) where
  | value (a : α)
  | future (a : α)

namespace MaybeCached

variable {α β : Type}

def get : MaybeCached α → α
  | value a => a
  | future a => a

def map (f : α → β) : MaybeCached α → MaybeCached β
  | value a => value (f a)
  | future a => future (f a)

def isCached : MaybeCached α → Bool
  | value _ => true
  | future _ => false

end MaybeCached

/-! ### The cache -/

structure WrittenPostingList (V : Type) where
  postingList : PostingList V
  writtenEpoch : Nat

abbrev AllCentroidsCache (V : Type) := Table VectorId (WrittenPostingList V)

namespace AllCentroidsCache

def posting (cache : AllCentroidsCache V) (id : VectorId) (epoch : Nat) : Option (PostingList V) :=
  (AList.lookup id cache).bind fun p => if epoch < p.writtenEpoch then none else some p.postingList

def applyUpdates (postingList : Option (PostingList V)) (updates : List (PostingUpdate V)) :
    PostingList V :=
  match postingList with
  | none => PostingList.fromValue (PostingListValue.fromPostingUpdates updates)
  | some postingList => postingList.update updates

def baseRoot (cache : AllCentroidsCache V) : Option (List (PostingUpdate V)) →
    Result (PostingList V)
  | some root => .ok (applyUpdates none root)
  | none => do
      let cached ← expect (AList.lookup VectorId.root cache)
      .ok cached.postingList

def updateRoot (cache : AllCentroidsCache V) (epoch : Nat)
    (root : Option (List (PostingUpdate V))) (rootUpdates : List (PostingUpdate V)) :
    Result (AllCentroidsCache V) :=
  if root.isSome ∨ rootUpdates ≠ [] then do
    let base ← baseRoot cache root
    let updated := if rootUpdates = [] then base else applyUpdates (some base) rootUpdates
    .ok (AList.insert VectorId.root { postingList := updated, writtenEpoch := epoch } cache)
  else .ok cache

def insertNew (epoch : Nat) (cache : AllCentroidsCache V) (id : VectorId) :
    Result (AllCentroidsCache V) :=
  if id.level = leafLevel then .ok cache
  else do
    ensure id.isCentroid
    .ok (AList.insert id { postingList := [], writtenEpoch := epoch } cache)

def updatePosting (epoch : Nat) (cache : AllCentroidsCache V)
    (e : VectorId × List (PostingUpdate V)) : Result (AllCentroidsCache V) :=
  if e.1.level = leafLevel then .ok cache
  else do
    ensure e.1.isCentroid
    let cached ← expect (AList.lookup e.1 cache)
    let updated := applyUpdates (some cached.postingList) e.2
    .ok (AList.insert e.1 { postingList := updated, writtenEpoch := epoch } cache)

def removeDeleted (cache : AllCentroidsCache V) (id : VectorId) : Result (AllCentroidsCache V) := do
  ensure id.isCentroid
  .ok (AList.erase id cache)

def updatePostings (cache : AllCentroidsCache V) (epoch : Nat)
    (root : Option (List (PostingUpdate V))) (rootUpdates : List (PostingUpdate V))
    (newCentroids : List VectorId) (centroidPostings : List (VectorId × List (PostingUpdate V)))
    (deletedCentroids : List VectorId) : Result (AllCentroidsCache V) := do
  let cache ← updateRoot cache epoch root rootUpdates
  let cache ← newCentroids.foldlM (insertNew epoch) cache
  let cache ← centroidPostings.foldlM (updatePosting epoch) cache
  deletedCentroids.foldlM removeDeleted cache

end AllCentroidsCache

structure CachedCentroidReader (V : Type) where
  cache : AllCentroidsCache V
  snapshot : Storage V
  epoch : Nat

namespace CachedCentroidReader

def readPostings (reader : CachedCentroidReader V) (id : VectorId) :
    MaybeCached (PostingList V) :=
  match reader.cache.posting id reader.epoch with
  | some postings => .value postings
  | none => .future (PostingList.fromValue (reader.snapshot.getPostingList id))

def readRoot (reader : CachedCentroidReader V) : MaybeCached (PostingList V) :=
  reader.readPostings VectorId.root

end CachedCentroidReader

/-! ### Search -/

variable [LinearOrder D] (dist : V → V → D)

def rank (query : V) (p : Posting V) : D ×ₗ Nat := toLex (dist query p.2, p.1.id)

def pushHeap (query : V) (heap : PostingList V) (p : Posting V) : PostingList V :=
  heap.orderedInsert (fun a b => rank dist query b ≤ rank dist query a) p

/-- The loop body of `score_and_rank`: the `k` smallest so far, each id once. -/
def keepBest (query : V) (k : Nat) (heap : PostingList V) (candidate : Posting V) :
    PostingList V :=
  if candidate.1 ∈ heap.map Prod.fst then heap
  else if heap.length < k then pushHeap dist query heap candidate
  else
    match heap with
    | [] => []
    | worst :: rest =>
      if rank dist query candidate < rank dist query worst then
        pushHeap dist query rest candidate
      else worst :: rest

def firstOfEach (postings : PostingList V) : PostingList V :=
  postings.foldl (fun seen p => if p.1 ∈ seen.map Prod.fst then seen else seen ++ [p]) []

def usizeMax : Nat := 2 ^ 64 - 1

/-- The largest number of bytes that an allocation can ask for. `with_capacity` panics beyond. -/
def isizeMax : Nat := 2 ^ 63 - 1

/-- The largest capacity of a `HashSet<VectorId>`. Seven of eight buckets are used, their number is
a power of two, and one takes 9 bytes, with 16 bytes behind all of them: `2 ^ 59` buckets fit into
`isizeMax` bytes. A heap of as many items of 16 bytes fits too. -/
def rankCapacity : Nat := 7 * 2 ^ 56

/-- The `k` postings that are nearest to the query, in order. -/
def scoreAndRank (level : Nat) (query : V) (postings : List (PostingList V)) (k : Nat) :
    Result (PostingList V) :=
  if k = 0 ∨ postings = [] then .ok []
  else if k = usizeMax then do
    ensure (∀ p ∈ postings.flatten, p.1.level = level)
    .ok (sortBy (rank dist query) (firstOfEach postings.flatten))
  else do
    -- The heap and the set of its ids are allocated for `k` items before the loop.
    ensure (k ≤ rankCapacity)
    ensure (∀ p ∈ postings.flatten, p.1.level = level)
    .ok (postings.flatten.foldl (keepBest dist query k) []).reverse

def beam : Nat := 100

/-- `resume_search_in_level`. The lists of one level hold the ids of the next level down. The first
argument bounds the number of levels. -/
def descend (read : VectorId → MaybeCached (PostingList V)) (depth : TreeDepth) (query : V)
    (k target : Nat) : Nat → Nat → List (MaybeCached (PostingList V)) → Result (PostingList V)
  | 0, _, _ => .error .panic
  | fuel + 1, level, reads => do
      -- Lists that had to be read come behind those from the cache.
      let postings := (reads.filter (·.isCached) ++ reads.filter (!·.isCached)).map (·.get)
      ensure (postings ≠ [])
      ensure (leafLevel < level)
      let below := depth.nextLevelDown level
      if below = target then scoreAndRank dist target query postings k
      else do
        let next ← scoreAndRank dist below query postings (max beam k)
        descend read depth query k target fuel below (next.map fun p => read p.1)

def searchInLevel (read : VectorId → MaybeCached (PostingList V)) (depth : TreeDepth) (query : V)
    (k target : Nat) : Result (PostingList V) :=
  descend dist read depth query k target depth.val rootLevel [read VectorId.root]

end OpenData.Vector

import OpenData.Common.Sequence
import OpenData.Vector.Centroids

/-!
# The state of the indexer and the delta of a batch

`VectorIndexState` is what the indexer keeps between batches. A batch collects its changes in a
`VectorIndexDelta`, and reads the index as it is with them through a `VectorIndexView`. Freezing the
delta applies it to the state and to the cache, and returns the operations for the storage.
-/

namespace OpenData.Vector

open Lib
open Common (Record)
open OpenData.Sequence (SequenceAllocator)

variable {V : Type}

structure VectorIndexState (V : Type) where
  dictionary : Table String VectorId
  depth : TreeDepth
  rootCentroidCount : Nat
  centroids : Table VectorId (CentroidInfoValue V)
  centroidCounts : Table VectorId Nat
  sequence : SequenceAllocator
  centroidSequence : SequenceAllocator
  centroidCache : AllCentroidsCache V

/-! ### The forward index -/

structure ForwardIndexDelta (V : Type) where
  dictionaryUpdates : Table String VectorId
  vectorUpdates : Table VectorId (VectorDataValue V)
  vectorIndexUpdates : Table VectorId (VectorIndexDataValue V)
  vectorDeletes : List VectorId
  idAllocator : SequenceAllocator
  ops : List Record

namespace ForwardIndexDelta

def new (state : VectorIndexState V) : ForwardIndexDelta V :=
  { dictionaryUpdates := ∅, vectorUpdates := ∅, vectorIndexUpdates := ∅, vectorDeletes := []
    idAllocator := state.sequence, ops := [] }

def recordOps (d : ForwardIndexDelta V) : List (RecordOp V) :=
  d.ops.map .putBlock
    ++ d.dictionaryUpdates.toList.map (fun e => .putIdDictionary e.1 e.2)
    ++ d.vectorUpdates.toList.map (fun e => .putVectorData e.1 e.2)
    ++ d.vectorIndexUpdates.toList.map (fun e => .putVectorIndexData e.1 e.2)
    ++ d.vectorDeletes.flatMap (fun id => [.deleteVectorData id, .deleteVectorIndexData id])

def freeze (d : ForwardIndexDelta V) (state : VectorIndexState V) :
    VectorIndexState V × List (RecordOp V) :=
  ({ state with
    dictionary := state.dictionary.insertAll d.dictionaryUpdates.toList
    sequence := d.idAllocator }, d.recordOps)

end ForwardIndexDelta

/-! ### The search index -/

structure SearchIndexDelta (V : Type) where
  depth : TreeDepth
  upsertedCentroids : Table VectorId (CentroidInfoValue V)
  newCentroids : List VectorId
  deletedCentroids : List VectorId
  centroidCountDeltas : Table VectorId Int
  root : Option (List (PostingUpdate V))
  rootCentroidCount : Nat
  rootUpdates : List (PostingUpdate V)
  postingUpdates : Table VectorId (List (PostingUpdate V))
  invertedIndexUpdates : Table (Field V) MetadataIndexValue
  idAllocator : SequenceAllocator
  currentPosting : Table VectorId VectorId
  ops : List Record

def saturatingAddSigned (n : Nat) (delta : Int) : Nat := min (n + delta).toNat (2 ^ 64 - 1)

namespace SearchIndexDelta

def new (state : VectorIndexState V) : SearchIndexDelta V :=
  { depth := state.depth, upsertedCentroids := ∅, newCentroids := [], deletedCentroids := []
    centroidCountDeltas := ∅, root := none, rootCentroidCount := state.rootCentroidCount
    rootUpdates := [], postingUpdates := ∅, invertedIndexUpdates := ∅
    idAllocator := state.centroidSequence, currentPosting := ∅, ops := [] }

def addToRoot (d : SearchIndexDelta V) (centroidId : VectorId) (vector : V) :
    Result (SearchIndexDelta V) := do
  ensure (d.depth.maxInnerLevel = centroidId.level)
  ensure centroidId.isCentroid
  .ok { d with
    rootUpdates := d.rootUpdates ++ [.append centroidId vector]
    rootCentroidCount := d.rootCentroidCount + 1 }

def removeFromRoot (d : SearchIndexDelta V) (centroidId : VectorId) :
    Result (SearchIndexDelta V) := do
  ensure (d.depth.maxInnerLevel = centroidId.level)
  ensure (0 < d.rootCentroidCount)
  .ok { d with
    rootUpdates := d.rootUpdates ++ [.delete centroidId]
    rootCentroidCount := d.rootCentroidCount - 1 }

def parentFits (d : SearchIndexDelta V) (level : Nat) (parent : VectorId) : Prop :=
  leafLevel ≤ level ∧ level ≤ d.depth.maxInnerLevel ∧ d.depth.nextLevelUp level = parent.level

instance (d : SearchIndexDelta V) (level : Nat) (parent : VectorId) :
    Decidable (d.parentFits level parent) := inferInstanceAs (Decidable (_ ∧ _))

def updateCentroid (d : SearchIndexDelta V) (centroidId : VectorId) (entry : CentroidInfoValue V) :
    Result (SearchIndexDelta V) := do
  ensure (centroidId.level = entry.level)
  ensure (d.parentFits centroidId.level entry.parentVectorId)
  .ok { d with upsertedCentroids := d.upsertedCentroids.insert centroidId entry }

def addCentroid (d : SearchIndexDelta V) (level : Nat) (vector : V) (parent : VectorId) :
    Result ((VectorId × CentroidInfoValue V) × SearchIndexDelta V) := do
  ensure (d.parentFits level parent)
  let (number, seqAllocPut, idAllocator) := d.idAllocator.allocateOne
  let id ← VectorId.centroidId level number.toNat
  let centroid ← CentroidInfoValue.new level vector parent
  .ok ((id, centroid), { d with
    idAllocator
    ops := d.ops ++ seqAllocPut.toList
    centroidCountDeltas := d.centroidCountDeltas.insert id 0
    upsertedCentroids := d.upsertedCentroids.insert id centroid
    newCentroids := d.newCentroids.insert id })

/-- `delete_centroids` for one centroid. -/
def deleteCentroid (d : SearchIndexDelta V) (c : VectorId) : SearchIndexDelta V :=
  { d with
    centroidCountDeltas := d.centroidCountDeltas.erase c
    upsertedCentroids := d.upsertedCentroids.erase c
    postingUpdates := d.postingUpdates.erase c
    newCentroids := d.newCentroids.filter (· ≠ c)
    deletedCentroids := d.deletedCentroids.insert c }

def pushPosting (d : SearchIndexDelta V) (centroidId : VectorId) (u : PostingUpdate V)
    (change : Int) : SearchIndexDelta V :=
  { d with
    postingUpdates := d.postingUpdates.alter centroidId fun us => us.getD [] ++ [u]
    centroidCountDeltas := d.centroidCountDeltas.alter centroidId fun n => n.getD 0 + change }

def addToPosting (d : SearchIndexDelta V) (centroidId vectorId : VectorId) (vector : V) :
    Result (SearchIndexDelta V) := do
  ensure (vectorId.level + 1 = centroidId.level)
  let d := { d with currentPosting := d.currentPosting.insert vectorId centroidId }
  .ok (d.pushPosting centroidId (.append vectorId vector) 1)

def removeFromPosting (d : SearchIndexDelta V) (centroidId vectorId : VectorId) :
    Result (SearchIndexDelta V) := do
  ensure (vectorId.level + 1 = centroidId.level)
  ensure (∀ current ∈ d.currentPosting.lookup vectorId, current = centroidId)
  let d := { d with currentPosting := d.currentPosting.erase vectorId }
  .ok (d.pushPosting centroidId (.delete vectorId) (-1))

def addRootCentroids (level : Nat) : SearchIndexDelta V → List V →
    Result (PostingList V × SearchIndexDelta V)
  | d, [] => .ok ([], d)
  | d, vector :: vectors => do
      let ((id, centroid), d) ← d.addCentroid level vector VectorId.root
      let (postings, d) ← addRootCentroids level d vectors
      .ok ((id, centroid.vector) :: postings, d)

def promoteRoot (d : SearchIndexDelta V) (newRootCentroids : List V) :
    Result (Nat × SearchIndexDelta V) := do
  let depth ← TreeDepth.of ((d.depth.val + 1) % 2 ^ 8)
  let newLevel := depth.nextLevelDown rootLevel
  let (postings, d) ← addRootCentroids newLevel { d with depth } newRootCentroids
  ensure (∀ p ∈ postings, p.1.level = depth.maxInnerLevel)
  .ok (newLevel, { d with
    rootCentroidCount := postings.length
    root := some (postings.map fun p => .append p.1 p.2)
    rootUpdates := [] })

/-! ### Freezing -/

def applyCounts (counts : Table VectorId Nat) (deltas : Table VectorId Int) : Table VectorId Nat :=
  deltas.toList.foldl (fun counts e =>
    counts.alter e.1 fun n => saturatingAddSigned (n.getD 0) e.2) counts

def statsOp (counts : Table VectorId Nat) (id : VectorId) : Result (RecordOp V) := do
  let count ← expect (counts.lookup id)
  ensure (count < 2 ^ 31)
  .ok (.putCentroidStats id count)

def recordOps (d : SearchIndexDelta V) (counts : Table VectorId Nat) :
    Result (List (RecordOp V)) := do
  let counted := d.centroidCountDeltas.keys.filter fun id => id ∉ d.deletedCentroids
  let stats ← counted.mapM (statsOp counts)
  .ok (d.ops.map .putBlock
    ++ [.putCentroidsMeta d.depth]
    ++ d.root.toList.map (fun root =>
      .putPostingList VectorId.root (PostingListValue.fromPostingUpdates root))
    ++ (if d.rootUpdates = [] then [] else
      [.mergePostingList VectorId.root (PostingListValue.fromPostingUpdates d.rootUpdates)])
    ++ d.upsertedCentroids.toList.map (fun e => .putCentroidInfo e.1 e.2)
    ++ d.postingUpdates.toList.map (fun e =>
      .mergePostingList e.1 (PostingListValue.fromPostingUpdates e.2))
    ++ stats
    ++ d.invertedIndexUpdates.toList.map (fun e =>
      .mergeMetadataIndex e.1 e.2.makeMutuallyExclusive)
    ++ d.deletedCentroids.flatMap (fun id =>
      [.deleteCentroidInfo id, .deletePostingList id, .deleteCentroidStats id]))

def cachePostingUpdates (d : SearchIndexDelta V)
    (centroids : Table VectorId (CentroidInfoValue V)) :
    List (VectorId × List (PostingUpdate V)) :=
  d.postingUpdates.toList.filter fun e =>
    (centroids.lookup e.1).any fun centroid => 0 < centroid.level

def freeze (d : SearchIndexDelta V) (epoch : Nat) (state : VectorIndexState V) :
    Result (VectorIndexState V × List (RecordOp V)) := do
  let counts := (applyCounts state.centroidCounts d.centroidCountDeltas).eraseAll d.deletedCentroids
  let centroids :=
    (state.centroids.eraseAll d.deletedCentroids).insertAll d.upsertedCentroids.toList
  let cache ← state.centroidCache.updatePostings epoch d.root d.rootUpdates d.newCentroids
    (d.cachePostingUpdates centroids) d.deletedCentroids
  let ops ← d.recordOps counts
  .ok ({ state with
    depth := d.depth
    rootCentroidCount := d.rootCentroidCount
    centroids
    centroidCounts := counts
    centroidSequence := d.idAllocator
    centroidCache := cache }, ops)

end SearchIndexDelta

/-! ### The delta of a batch -/

structure VectorIndexDelta (V : Type) where
  forwardIndex : ForwardIndexDelta V
  searchIndex : SearchIndexDelta V

namespace VectorIndexDelta

def freeze (d : VectorIndexDelta V) (epoch : Nat) (state : VectorIndexState V) :
    Result (VectorIndexState V × List (RecordOp V)) := do
  let (state, forwardOps) := d.forwardIndex.freeze state
  let (state, searchOps) ← d.searchIndex.freeze epoch state
  .ok (state, forwardOps ++ searchOps)

end VectorIndexDelta

/-! ### The view -/

/-- The index with the changes of the delta. -/
structure VectorIndexView (V : Type) where
  delta : VectorIndexDelta V
  state : VectorIndexState V
  snapshot : Storage V
  snapshotEpoch : Nat

namespace VectorIndexView

variable (view : VectorIndexView V)

def centroid (id : VectorId) : Option (CentroidInfoValue V) :=
  (view.delta.searchIndex.upsertedCentroids.lookup id).or
    (if id ∈ view.delta.searchIndex.deletedCentroids then none
      else view.state.centroids.lookup id)

def cachedReader : CachedCentroidReader V :=
  { cache := view.state.centroidCache, snapshot := view.snapshot, epoch := view.snapshotEpoch }

def readRoot : MaybeCached (PostingList V) :=
  match view.delta.searchIndex.root with
  | some root =>
    .value (PostingList.fromValue (PostingListValue.fromPostingUpdates
      (root ++ view.delta.searchIndex.rootUpdates)))
  | none =>
    view.cachedReader.readRoot.map fun p =>
      if view.delta.searchIndex.rootUpdates = [] then p
      else p.update view.delta.searchIndex.rootUpdates

def readPostings (id : VectorId) : MaybeCached (PostingList V) :=
  if id = VectorId.root then view.readRoot
  else if id ∈ view.delta.searchIndex.deletedCentroids then .value []
  else (view.cachedReader.readPostings id).map fun p =>
    (view.delta.searchIndex.postingUpdates.lookup id).elim p p.update

def postingList (id : VectorId) : PostingList V := (view.readPostings id).get

end VectorIndexView

end OpenData.Vector

import OpenData.Vector.State

/-!
# The search index within a batch

The indexer changes the search index by a sequence of operations on one delta. `DeltaOp` lists the
operations that add, change or delete nodes and postings. `Issued` says what the indexer takes care
of: the ids that it names are ones it got from the index.
-/

namespace OpenData.Vector

open Lib

variable {V : Type}

inductive DeltaOp (V : Type) where
  | addCentroid (level : Nat) (vector : V) (parent : VectorId)
  | updateCentroid (centroidId : VectorId) (entry : CentroidInfoValue V)
  | deleteCentroids (centroids : List VectorId)
  | addToPosting (centroidId vectorId : VectorId) (vector : V)
  | removeFromPosting (centroidId vectorId : VectorId)
  | addToRoot (centroidId : VectorId) (vector : V)
  | removeFromRoot (centroidId : VectorId)
  | promoteRoot (newRootCentroids : List V)

namespace SearchIndexDelta

def deleteCentroids (d : SearchIndexDelta V) (centroids : List VectorId) : SearchIndexDelta V :=
  centroids.foldl deleteCentroid d

def applyOp (d : SearchIndexDelta V) : DeltaOp V → Result (SearchIndexDelta V)
  | .addCentroid level vector parent => do
      let (_, d) ← d.addCentroid level vector parent
      .ok d
  | .updateCentroid centroidId entry => d.updateCentroid centroidId entry
  | .deleteCentroids centroids => .ok (d.deleteCentroids centroids)
  | .addToPosting centroidId vectorId vector => d.addToPosting centroidId vectorId vector
  | .removeFromPosting centroidId vectorId => d.removeFromPosting centroidId vectorId
  | .addToRoot centroidId vector => d.addToRoot centroidId vector
  | .removeFromRoot centroidId => d.removeFromRoot centroidId
  | .promoteRoot newRootCentroids => do
      let (_, d) ← d.promoteRoot newRootCentroids
      .ok d

/-- A panic ends the batch. -/
def step (d : SearchIndexDelta V) (op : DeltaOp V) : Option (SearchIndexDelta V) :=
  (d.applyOp op).toOption

def nextNumber (d : SearchIndexDelta V) : Nat := d.idAllocator.peekNextSequence.toNat

def Allocated (d : SearchIndexDelta V) (c : VectorId) : Prop :=
  c.isCentroid ∧ c.number < d.nextNumber

def Known (state : VectorIndexState V) (d : SearchIndexDelta V) (c : VectorId) : Prop :=
  c ∉ d.deletedCentroids ∧
    ((d.upsertedCentroids.lookup c).isSome ∨ (state.centroids.lookup c).isSome)

def Issued (state : VectorIndexState V) (d : SearchIndexDelta V) : DeltaOp V → Prop
  | .updateCentroid centroidId _ => Known state d centroidId
  | .deleteCentroids centroids => ∀ c ∈ centroids, d.Allocated c
  | .addToPosting centroidId _ _ => d.Allocated centroidId
  | .removeFromPosting centroidId _ => d.Allocated centroidId
  | .addCentroid .. | .addToRoot .. | .removeFromRoot .. | .promoteRoot .. => True

instance (d : SearchIndexDelta V) (c : VectorId) : Decidable (d.Allocated c) :=
  inferInstanceAs (Decidable (_ ∧ _))

instance (state : VectorIndexState V) (d : SearchIndexDelta V) (c : VectorId) :
    Decidable (Known state d c) := inferInstanceAs (Decidable (_ ∧ _))

instance (state : VectorIndexState V) (d : SearchIndexDelta V) (op : DeltaOp V) :
    Decidable (Issued state d op) :=
  match op with
  | .updateCentroid centroidId _ => inferInstanceAs (Decidable (Known state d centroidId))
  | .deleteCentroids centroids => inferInstanceAs (Decidable (∀ c ∈ centroids, d.Allocated c))
  | .addToPosting centroidId _ _ => inferInstanceAs (Decidable (d.Allocated centroidId))
  | .removeFromPosting centroidId _ => inferInstanceAs (Decidable (d.Allocated centroidId))
  | .addCentroid .. | .addToRoot .. | .removeFromRoot .. | .promoteRoot .. => .isTrue trivial

end SearchIndexDelta

namespace VectorIndexView

variable (view : VectorIndexView V)

/-- The root and the centroids that are not deleted. -/
def Node (id : VectorId) : Prop :=
  id = VectorId.root ∨ id ∉ view.delta.searchIndex.deletedCentroids ∧ (view.centroid id).isSome

end VectorIndexView

end OpenData.Vector

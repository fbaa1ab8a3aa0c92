import OpenData.Common.Storage
import OpenData.Lib.KWay
import OpenData.Lib.Updates

/-!
# Ids, levels and values of the vector index

The index is a tree. Its root and its centroids are nodes, and each node has a posting list: the ids
and vectors one level below. The lowest level holds the data vectors.
-/

namespace OpenData.Vector

open Lib

/-! ### Results -/

inductive Error where
  | storage (message : String)
  | encoding (message : String)
  | invalidInput (message : String)
  | internal (message : String)
deriving Repr, DecidableEq

abbrev Result (α : Type) := Except (Fault Error) α

def ensure (c : Prop) [Decidable c] : Result Unit := if c then .ok () else .error .panic

def expect {α : Type} : Option α → Result α
  | some a => .ok a
  | none => .error .panic

/-! ### Ids -/

def leafLevel : Nat := 1

def rootLevel : Nat := 255

structure VectorId where
  level : Nat
  number : Nat
  level_lt : level < 2 ^ 8
  number_lt : number < 2 ^ 56
deriving Repr, DecidableEq

namespace VectorId

def id (x : VectorId) : Nat := x.level * 2 ^ 56 + x.number

def root : VectorId :=
  { level := rootLevel, number := 0, level_lt := by decide, number_lt := by decide }

def centroidId (level number : Nat) : Result VectorId :=
  if h : (0 < level ∧ level < rootLevel) ∧ 0 < number ∧ number < 2 ^ 56 then
    .ok { level, number, level_lt := Nat.lt_succ_of_lt h.1.2, number_lt := h.2.2 }
  else .error .panic

def isDataVector (x : VectorId) : Bool := x.level = 0

def isCentroid (x : VectorId) : Prop := 0 < x.level ∧ x ≠ root

instance (x : VectorId) : Decidable x.isCentroid := inferInstanceAs (Decidable (_ ∧ _))

/-- The `Display` form. -/
def display (x : VectorId) : String := s!"{x.level}:{x.number}"

end VectorId

/-! ### Levels -/

/-- The number of levels of a tree. There are at least the root, the leaf centroids and the data
vectors. -/
structure TreeDepth where
  val : Nat
  three_le : 3 ≤ val
  lt : val < 2 ^ 8
deriving Repr, DecidableEq

namespace TreeDepth

def of (val : Nat) : Result TreeDepth :=
  if h : 3 ≤ val ∧ val < 2 ^ 8 then .ok { val, three_le := h.1, lt := h.2 } else .error .panic

/-- The highest level with centroids. -/
def maxInnerLevel (depth : TreeDepth) : Nat := depth.val - 2

def nextLevelUp (depth : TreeDepth) (level : Nat) : Nat :=
  if level = depth.maxInnerLevel then rootLevel else level + 1

def nextLevelDown (depth : TreeDepth) (level : Nat) : Nat :=
  if level = rootLevel then depth.maxInnerLevel else level - 1

end TreeDepth

/-! ### Fields -/

def vectorFieldName : String := "vector"

inductive FieldValue (V : Type) where
  | string (s : String)
  | int64 (i : Int64)
  | float64 (bits : UInt64)
  | bool (b : Bool)
  | vector (v : V)
deriving DecidableEq

def FieldValue.isVector {V : Type} : FieldValue V → Bool
  | vector _ => true
  | _ => false

structure Field (V : Type) where
  fieldName : String
  value : FieldValue V
deriving DecidableEq

/-- `sort_by(|a, b| a.field_name.cmp(&b.field_name))`: names are compared by their bytes. -/
def sortFields {V : Type} (fields : List (Field V)) : List (Field V) :=
  sortBy (fun f => (asBytes f.fieldName).map UInt8.toNat) fields

structure VectorWrite (V : Type) where
  externalId : String
  values : V
  attributes : List (Field V)
deriving DecidableEq

structure IndexerOpts where
  rootThresholdVectors : Nat
  mergeThresholdVectors : Nat
  splitThresholdVectors : Nat
  splitSearchNeighbourhood : Nat
  indexedFields : List String

def collectIndexedFields {V : Type} (opts : IndexerOpts) (attributes : List (Field V)) :
    List (Field V) :=
  attributes.filter fun f => f.fieldName ≠ vectorFieldName ∧ f.fieldName ∈ opts.indexedFields

/-! ### Values of data vectors and centroids -/

structure VectorDataValue (V : Type) where
  externalId : String
  fields : List (Field V)
deriving DecidableEq

def VectorDataValue.new {V : Type} (externalId : String) (fields : List (Field V)) :
    VectorDataValue V :=
  { externalId, fields := sortFields fields }

structure VectorIndexDataValue (V : Type) where
  postings : List VectorId
  indexedFields : List (Field V)
deriving DecidableEq

def VectorIndexDataValue.new {V : Type} (postings : List VectorId)
    (indexedFields : List (Field V)) : Result (VectorIndexDataValue V) := do
  ensure (∀ posting ∈ postings, posting.isCentroid)
  ensure (∀ field ∈ indexedFields, field.fieldName ≠ vectorFieldName)
  .ok { postings, indexedFields := sortFields indexedFields }

structure CentroidInfoValue (V : Type) where
  level : Nat
  vector : V
  parentVectorId : VectorId
deriving DecidableEq

def CentroidInfoValue.new {V : Type} (level : Nat) (vector : V) (parentVectorId : VectorId) :
    Result (CentroidInfoValue V) := do
  ensure (parentVectorId.level = level + 1 ∨ parentVectorId = VectorId.root)
  .ok { level, vector, parentVectorId }

/-! ### Posting lists -/

abbrev PostingUpdate (V : Type) := Update VectorId V

structure PostingListValue (V : Type) where
  postings : List (PostingUpdate V)
  sorted : postings.Pairwise fun u u' => u.key.id < u'.key.id

theorem VectorId.id_injective : Function.Injective VectorId.id := by
  intro x y h
  obtain ⟨level, number, hlevel, hnumber⟩ := x
  obtain ⟨level', number', hlevel', hnumber'⟩ := y
  simp only [VectorId.id] at h
  obtain ⟨rfl, rfl⟩ : level = level' ∧ number = number' := by omega
  rfl

namespace PostingListValue

variable {V : Type}

def empty : PostingListValue V := { postings := [], sorted := List.Pairwise.nil }

theorem pairwise_sortBy_dedupe (updates : List (PostingUpdate V)) :
    (sortBy (fun u => u.key.id) (dedupe updates)).Pairwise fun u u' => u.key.id < u'.key.id := by
  have hperm := perm_sortBy (fun u : PostingUpdate V => u.key.id) (dedupe updates)
  have hnodup : ((sortBy (fun u => u.key.id) (dedupe updates)).map Update.key).Nodup :=
    (hperm.map Update.key).nodup_iff.mpr (nodup_keys_dedupe updates)
  refine ((pairwise_sortBy _ _).and (List.pairwise_map.mp hnodup)).imp fun h => ?_
  exact lt_of_le_of_ne h.1 fun heq => h.2 (VectorId.id_injective heq)

def fromPostingUpdates (updates : List (PostingUpdate V)) : PostingListValue V :=
  { postings := sortBy (fun u => u.key.id) (dedupe updates)
    sorted := pairwise_sortBy_dedupe updates }

def mergeBatch (existing : Option (PostingListValue V)) (operands : List (PostingListValue V)) :
    PostingListValue V :=
  match existing, operands with
  | existing, [] => existing.getD empty
  | none, [operand] => operand
  | existing, operands =>
    let sources := existing.toList ++ operands
    { postings := kWayMerge (fun u => u.key.id) (sources.map postings)
      sorted := by
        have hsorted : ∀ s ∈ sources.map postings,
            s.Pairwise fun u u' : PostingUpdate V => u.key.id < u'.key.id := by
          intro s hs
          obtain ⟨value, -, rfl⟩ := List.mem_map.mp hs
          exact value.sorted
        rw [kWayMerge_eq hsorted]
        exact pairwise_lastWinsMerge _ }

end PostingListValue

abbrev Posting (V : Type) := VectorId × V

/-- The form of a posting list in memory. -/
abbrev PostingList (V : Type) := List (Posting V)

namespace PostingList

variable {V : Type}

/-- The appended entries. The ids of a stored value are distinct, so that the assertion of the
source on them holds. -/
def fromValue (value : PostingListValue V) : PostingList V := Update.appends value.postings

/-- `update_in_place` and `update_and_flatten`, which differ in where the vectors lie. -/
def update (postings : PostingList V) (updates : List (PostingUpdate V)) : PostingList V :=
  updateEntries postings updates

end PostingList

/-! ### The metadata index -/

structure MetadataIndexValue where
  included : Finset Nat
  excluded : Finset Nat
deriving DecidableEq

namespace MetadataIndexValue

def empty : MetadataIndexValue := { included := ∅, excluded := ∅ }

def makeMutuallyExclusive (value : MetadataIndexValue) : MetadataIndexValue :=
  { value with excluded := value.excluded \ (value.included ∩ value.excluded) }

def effectiveVectorIds (value : MetadataIndexValue) : Finset Nat := value.included \ value.excluded

def mergePair (newer older : MetadataIndexValue) : MetadataIndexValue :=
  makeMutuallyExclusive
    { included := newer.included ∪ (older.included \ newer.excluded)
      excluded := newer.excluded ∪ (older.excluded \ newer.included) }

end MetadataIndexValue

/-! ### What the program leaves open -/

/-- The order in which a hash map is iterated or tasks finish, and the two centers of a clustering,
which depend on a random seed. Each call has a site of its own. -/
structure Choices (V : Type) where
  order : List Nat → Nat → List Nat
  order_perm : ∀ site n, (order site n).Perm (List.range n)
  twoMeans : List Nat → List (Nat × V) → V × V

namespace Choices

variable {V α : Type}

def shuffle (choices : Choices V) (site : List Nat) (l : List α) : List α :=
  (choices.order site l.length).filterMap (l[·]?)

theorem filterMap_getElem?_range (l : List α) : (List.range l.length).filterMap (l[·]?) = l := by
  induction l using List.reverseRecOn with
  | nil => rfl
  | append_singleton l a ih =>
    rw [List.length_append, List.length_singleton, List.range_succ, List.filterMap_append]
    have hleft : (List.range l.length).filterMap ((l ++ [a])[·]?) = l := by
      conv_rhs => rw [← ih]
      refine List.filterMap_congr fun i hi => ?_
      exact List.getElem?_append_left (List.mem_range.mp hi)
    rw [hleft]
    simp

theorem perm_shuffle (choices : Choices V) (site : List Nat) (l : List α) :
    (choices.shuffle site l).Perm l := by
  have hperm := (choices.order_perm site l.length).filterMap (l[·]?)
  rwa [filterMap_getElem?_range] at hperm

end Choices

end OpenData.Vector

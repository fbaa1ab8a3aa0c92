import OpenData.Common.Serde
import OpenData.Lib.Table
import OpenData.Vector.Types

/-!
# The records of the vector database

Every record type has a key of its own, so the store is kept as one table for each type. A batch of
operations is applied in order. Posting lists and metadata indexes are merged into what is stored
with the merge operator of their type, and all other records are put or deleted.
-/

namespace OpenData.Vector

open Lib
open Common (Record)

/-! ### Records -/

variable {V : Type}

structure Storage (V : Type) where
  blocks : Common.Storage
  centroidsMeta : Option TreeDepth
  centroidInfo : Table VectorId (CentroidInfoValue V)
  postingLists : Table VectorId (PostingListValue V)
  centroidStats : Table VectorId Int
  idDictionary : Table String VectorId
  vectorData : Table VectorId (VectorDataValue V)
  vectorIndexData : Table VectorId (VectorIndexDataValue V)
  metadataIndex : Table (Field V) MetadataIndexValue

inductive RecordOp (V : Type) where
  | putBlock (record : Record)
  | putCentroidsMeta (depth : TreeDepth)
  | putCentroidInfo (id : VectorId) (value : CentroidInfoValue V)
  | deleteCentroidInfo (id : VectorId)
  | putPostingList (id : VectorId) (value : PostingListValue V)
  | mergePostingList (id : VectorId) (value : PostingListValue V)
  | deletePostingList (id : VectorId)
  | putCentroidStats (id : VectorId) (numVectors : Int)
  | deleteCentroidStats (id : VectorId)
  | putIdDictionary (externalId : String) (id : VectorId)
  | putVectorData (id : VectorId) (value : VectorDataValue V)
  | deleteVectorData (id : VectorId)
  | putVectorIndexData (id : VectorId) (value : VectorIndexDataValue V)
  | deleteVectorIndexData (id : VectorId)
  | mergeMetadataIndex (key : Field V) (value : MetadataIndexValue)

namespace Storage

def empty : Storage V :=
  { blocks := ∅, centroidsMeta := none, centroidInfo := ∅, postingLists := ∅, centroidStats := ∅
    idDictionary := ∅, vectorData := ∅, vectorIndexData := ∅, metadataIndex := ∅ }

/-! ### Reads -/

def getPostingList (st : Storage V) (id : VectorId) : PostingListValue V :=
  (st.postingLists.lookup id).getD PostingListValue.empty

variable [DecidableEq V]

def getMetadataIndex (st : Storage V) (key : Field V) : MetadataIndexValue :=
  (st.metadataIndex.lookup key).getD MetadataIndexValue.empty

/-! ### Writes -/

def applyOp (st : Storage V) : RecordOp V → Storage V
  | .putBlock record => { st with blocks := st.blocks.put [record] }
  | .putCentroidsMeta depth => { st with centroidsMeta := some depth }
  | .putCentroidInfo id value => { st with centroidInfo := st.centroidInfo.insert id value }
  | .deleteCentroidInfo id => { st with centroidInfo := st.centroidInfo.erase id }
  | .putPostingList id value => { st with postingLists := st.postingLists.insert id value }
  | .mergePostingList id value =>
    { st with postingLists :=
      st.postingLists.alter id fun existing => PostingListValue.mergeBatch existing [value] }
  | .deletePostingList id => { st with postingLists := st.postingLists.erase id }
  | .putCentroidStats id n => { st with centroidStats := st.centroidStats.insert id n }
  | .deleteCentroidStats id => { st with centroidStats := st.centroidStats.erase id }
  | .putIdDictionary externalId id =>
    { st with idDictionary := st.idDictionary.insert externalId id }
  | .putVectorData id value => { st with vectorData := st.vectorData.insert id value }
  | .deleteVectorData id => { st with vectorData := st.vectorData.erase id }
  | .putVectorIndexData id value =>
    { st with vectorIndexData := st.vectorIndexData.insert id value }
  | .deleteVectorIndexData id => { st with vectorIndexData := st.vectorIndexData.erase id }
  | .mergeMetadataIndex key value =>
    { st with metadataIndex := st.metadataIndex.alter key fun existing =>
      MetadataIndexValue.mergePair value (existing.getD MetadataIndexValue.empty) }

/-- An atomic batch. -/
def apply (st : Storage V) (ops : List (RecordOp V)) : Storage V := ops.foldl applyOp st

end Storage

end OpenData.Vector

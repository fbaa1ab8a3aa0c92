import OpenData.Vector.Serde

/-!
# The merge operator of the vector store

The embedding of `VectorDbMergeOperator::merge_batch` and of the value encodings that it reads. The
store keeps merge operands and combines them with the value of their key later. How they are
combined depends on the record type in the key.
-/

namespace OpenData.Vector

open Lib Common

/-! ### Record types -/

def keyVersion : UInt8 := 0x01

def subsystem : UInt8 := 0x02

inductive RecordType where
  | collectionMeta
  | postingList
  | idDictionary
  | vectorData
  | vectorIndexData
  | metadataIndex
  | seqBlock
  | centroidStats
  | centroids
  | centroidInfo
  | centroidSeqBlock
deriving Repr, DecidableEq

namespace RecordType

def fromId (id : UInt8) : Except EncodingError RecordType :=
  if id = 0x01 then .ok .collectionMeta
  else if id = 0x04 then .ok .postingList
  else if id = 0x05 then .ok .idDictionary
  else if id = 0x06 then .ok .vectorData
  else if id = 0x0D then .ok .vectorIndexData
  else if id = 0x07 then .ok .metadataIndex
  else if id = 0x08 then .ok .seqBlock
  else if id = 0x09 then .ok .centroidStats
  else if id = 0x0A then .ok .centroids
  else if id = 0x0B then .ok .centroidInfo
  else if id = 0x0C then .ok .centroidSeqBlock
  else .error { message := s!"Invalid record type: 0x{hexByte id}" }

def fromPrefix (p : KeyPrefix) : Except EncodingError RecordType :=
  if p.subsystem ≠ subsystem then
    .error { message :=
      s!"invalid subsystem: expected 0x{hexByte subsystem}, got 0x{hexByte p.subsystem}" }
  else fromId ((p.tag &&& 0xF0) >>> 4)

end RecordType

/-! ### Posting lists -/

def appendByte : UInt8 := 0x0

def deleteByte : UInt8 := 0x1

def encodePosting : PostingUpdate Floats → Bytes
  | .append id vector => appendByte :: (id.encode ++ vector.flatMap encodeFloat)
  | .delete id => deleteByte :: id.encode

def PostingListValue.encodeToBytes (value : PostingListValue Floats) : Bytes :=
  value.postings.flatMap encodePosting

section

variable (dimensions : Nat)

def entrySize (entryType : UInt8) : Nat :=
  if entryType = appendByte then 1 + 8 + dimensions * 4 else 1 + 8

def peekEntry : Bytes → Except (Fault EncodingError) (Option (VectorId × Nat))
  | [] => .ok none
  | entryType :: buf =>
    if (entryType :: buf).length < 1 + 8 then .error .panic
    else
      match VectorId.decode buf with
      | .ok (id, _) => .ok (some (id, entrySize dimensions entryType))
      | .error _ => .error .panic

def takeEntry (size : Nat) (buf : Bytes) : Except (Fault EncodingError) (Bytes × Bytes) :=
  if buf.length < size then .error .panic else .ok (buf.take size, buf.drop size)

/-- The top of the heap, with the cursors behind it: the smallest id, and among equal ids the entry
of the last cursor. -/
def popEntry :
    List Bytes → Except (Fault EncodingError) (Option (VectorId × Bytes × List Bytes))
  | [] => .ok none
  | buf :: cursors => do
      let popped ← popEntry cursors
      let head ← peekEntry dimensions buf
      match head, popped with
      | none, popped => .ok (popped.map fun (id, entry, rest) => (id, entry, buf :: rest))
      | some (id, size), none => do
          let (entry, behind) ← takeEntry size buf
          .ok (some (id, entry, behind :: cursors))
      | some (id, size), some (id', entry', rest) =>
        if id'.id ≤ id.id then .ok (some (id', entry', buf :: rest))
        else do
          let (entry, behind) ← takeEntry size buf
          .ok (some (id, entry, behind :: cursors))

def skipEntries (id : VectorId) : Nat → List Bytes → Except (Fault EncodingError) (List Bytes)
  | 0, cursors => .ok cursors
  | fuel + 1, cursors => do
      match ← popEntry dimensions cursors with
      | none => .ok cursors
      | some (id', _, rest) => if id' = id then skipEntries id fuel rest else .ok cursors

def mergeEntries : Nat → List Bytes → Except (Fault EncodingError) Bytes
  | 0, _ => .ok []
  | fuel + 1, cursors => do
      match ← popEntry dimensions cursors with
      | none => .ok []
      | some (id, entry, rest) => do
          let rest ← skipEntries dimensions id rest.flatten.length rest
          let result ← mergeEntries fuel rest
          .ok (entry ++ result)

def mergeBatchPostingList (existing : Option Bytes) (operands : List Bytes) :
    Except (Fault EncodingError) Bytes :=
  match existing, operands with
  | existing, [] => .ok (existing.getD [])
  | none, [operand] => .ok operand
  | existing, operands =>
    let cursors := (existing.toList ++ operands).filter fun buf => !buf.isEmpty
    mergeEntries dimensions cursors.flatten.length cursors

end

/-! ### The metadata index -/

structure BitmapCodec where
  serialize : Finset Nat → Except EncodingError Bytes
  deserialize : Bytes → Except EncodingError (Finset Nat)

section

variable (codec : BitmapCodec)

/-- `u32::try_from` of a length, unwrapped, and the bytes. -/
def encodeBitmap (ids : Finset Nat) : Except (Fault EncodingError) Bytes := do
  let bytes ← (codec.serialize ids).mapError .err
  if bytes.length < 2 ^ 32 then .ok (toLe 4 bytes.length ++ bytes) else .error .panic

namespace MetadataIndexValue

def encodeToBytes (value : MetadataIndexValue) : Except (Fault EncodingError) Bytes := do
  let normalized := value.makeMutuallyExclusive
  let included ← encodeBitmap codec normalized.included
  let excluded ← encodeBitmap codec normalized.excluded
  .ok (included ++ excluded)

def decodeFromBytes (buf : Bytes) : Except EncodingError MetadataIndexValue :=
  if buf.length < 8 then .error { message := "Buffer too short for MetadataIndexValue" }
  else
    let includedLen := ofLe (buf.take 4)
    if buf.length < 4 + includedLen + 4 then
      .error { message := "Buffer too short for MetadataIndexValue included bitmap" }
    else do
      let included ← codec.deserialize ((buf.drop 4).take includedLen)
      let rest := buf.drop (4 + includedLen)
      let excludedLen := ofLe (rest.take 4)
      if rest.length < 4 + excludedLen then
        .error { message := "Buffer too short for MetadataIndexValue excluded bitmap" }
      else do
        let excluded ← codec.deserialize ((rest.drop 4).take excludedLen)
        .ok (makeMutuallyExclusive { included, excluded })

end MetadataIndexValue

def mergeBatchMetadataIndex (existing : Option Bytes) (operands : List Bytes) :
    Except (Fault EncodingError) Bytes := do
  let merged ← (existing.elim (.ok .empty) (MetadataIndexValue.decodeFromBytes codec)).mapError .err
  let merged ← operands.foldlM
    (fun merged operand => do
      let newer ← (MetadataIndexValue.decodeFromBytes codec operand).mapError .err
      .ok (newer.mergePair merged))
    merged
  merged.encodeToBytes codec

end

/-! ### Counts of centroids -/

structure CentroidStatsValue where
  numVectors : Int32
deriving DecidableEq

namespace CentroidStatsValue

def encodeToBytes (value : CentroidStatsValue) : Bytes := toLe 4 value.numVectors.toUInt32.toNat

def decodeFromBytes (buf : Bytes) : Except EncodingError CentroidStatsValue := do
  let (bytes, _) ← takeBytes 4
    s!"Buffer too short for CentroidStatsValue: expected 4 bytes, got {buf.length}" buf
  .ok { numVectors := (UInt32.ofNat (ofLe bytes)).toInt32 }

end CentroidStatsValue

/-- The range of `i32`. -/
def FitsI32 (n : Int) : Prop := -2 ^ 31 ≤ n ∧ n < 2 ^ 31

instance (n : Int) : Decidable (FitsI32 n) := inferInstanceAs (Decidable (_ ∧ _))

def checkedAdd (a b : Int32) : Except (Fault EncodingError) Int32 :=
  if FitsI32 (a.toInt + b.toInt) then .ok (a + b) else .error .panic

def mergeBatchCentroidStats (existing : Option Bytes) (operands : List Bytes) :
    Except (Fault EncodingError) Bytes := do
  let stats ← (existing.elim (.ok { numVectors := 0 })
    CentroidStatsValue.decodeFromBytes).mapError .err
  let total ← operands.foldlM
    (fun total operand => do
      let stats ← (CentroidStatsValue.decodeFromBytes operand).mapError .err
      checkedAdd total stats.numVectors)
    stats.numVectors
  .ok (CentroidStatsValue.encodeToBytes { numVectors := total })

/-! ### The operator -/

/-- The record type in a key. -/
def recordTypeOf (key : Bytes) : Option RecordType := do
  let p ← (KeyPrefix.fromBytesWithValidation key subsystem keyVersion).toOption
  (RecordType.fromPrefix p).toOption

def mergeBatch (dimensions : Nat) (codec : BitmapCodec) (key : Bytes) (existing : Option Bytes)
    (operands : List Bytes) : Option Bytes := do
  match ← recordTypeOf key with
  | .metadataIndex => (mergeBatchMetadataIndex codec existing operands).toOption
  | .postingList => (mergeBatchPostingList dimensions existing operands).toOption
  | .centroidStats => (mergeBatchCentroidStats existing operands).toOption
  | _ => defaultMergeBatch existing operands fun _ operand => operand

end OpenData.Vector

import OpenData.Vector.Merge

/-!
# Keys of the id dictionary and of the metadata index

The embedding of `IdDictionaryKey` and `MetadataIndexKey` (`vector/src/serde/key.rs`) and of the
sortable encoding of field values (`vector/src/serde/mod.rs`, `common/src/serde/sortable.rs`). A
metadata index key is a field with its value.
-/

namespace OpenData.Vector

open Lib Common

namespace RecordType

def id : RecordType → UInt8
  | .collectionMeta => 0x01
  | .postingList => 0x04
  | .idDictionary => 0x05
  | .vectorData => 0x06
  | .vectorIndexData => 0x0D
  | .metadataIndex => 0x07
  | .seqBlock => 0x08
  | .centroidStats => 0x09
  | .centroids => 0x0A
  | .centroidInfo => 0x0B
  | .centroidSeqBlock => 0x0C

/-- The name that `{:?}` prints. -/
def name : RecordType → String
  | .collectionMeta => "CollectionMeta"
  | .postingList => "PostingList"
  | .idDictionary => "IdDictionary"
  | .vectorData => "VectorData"
  | .vectorIndexData => "VectorIndexData"
  | .metadataIndex => "MetadataIndex"
  | .seqBlock => "SeqBlock"
  | .centroidStats => "CentroidStats"
  | .centroids => "Centroids"
  | .centroidInfo => "CentroidInfo"
  | .centroidSeqBlock => "CentroidSeqBlock"

def keyPrefix (t : RecordType) : KeyPrefix :=
  { subsystem, version := keyVersion, tag := recordTag t.id 0 }

end RecordType

def validateKeyPrefix (expected : RecordType) (buf : Bytes) : Except EncodingError Unit := do
  let p ← (KeyPrefix.fromBytesWithValidation buf subsystem keyVersion).mapError
    DeserializeError.toEncodingError
  let recordType ← RecordType.fromPrefix p
  if recordType ≠ expected then
    .error { message :=
      s!"Invalid record type: expected {expected.name}, got {recordType.name}" }
  else .ok ()

/-- A terminated string from the front of the buffer. The message for bytes that are not UTF-8 goes
on with what the standard library finds in them, which is left out. -/
def decodeTerminated (what : String) (buf : Bytes) : Except EncodingError (String × Bytes) := do
  let (bytes, rest) ← (TerminatedBytes.deserialize buf).mapError fun e =>
    { message := s!"Failed to decode {what}: {e.message}" }
  match fromUtf8 bytes with
  | none => .error { message := s!"Invalid UTF-8 in {what}" }
  | some s => .ok (s, rest)

/-! ### Field values -/

def encodeI64Sortable (value : Int64) : UInt64 := value.toUInt64 ^^^ 0x8000000000000000

def decodeI64Sortable (sortable : UInt64) : Int64 := (sortable ^^^ 0x8000000000000000).toInt64

def encodeF64Sortable (bits : UInt64) : UInt64 :=
  if bits &&& 0x8000000000000000 ≠ 0 then ~~~bits else bits ^^^ 0x8000000000000000

def decodeF64Sortable (sortable : UInt64) : UInt64 :=
  if sortable &&& 0x8000000000000000 ≠ 0 then sortable ^^^ 0x8000000000000000 else ~~~sortable

namespace FieldValue

def encodeSortable : FieldValue Floats → Except (Fault EncodingError) Bytes
  | .string s => .ok (FieldType.string.toByte :: TerminatedBytes.serialize (asBytes s))
  | .int64 v => .ok (FieldType.int64.toByte :: toBe 8 (encodeI64Sortable v).toNat)
  | .float64 bits => .ok (FieldType.float64.toByte :: toBe 8 (encodeF64Sortable bits).toNat)
  | .bool v => .ok [FieldType.bool.toByte, if v then 1 else 0]
  | .vector _ => .error .panic

def decodeSortable : Bytes → Except EncodingError (FieldValue Floats × Bytes)
  | [] => .error { message := "Buffer too short for FieldValue type" }
  | byte :: buf => do
    match ← FieldType.fromByte byte with
    | .string =>
      let (s, rest) ← decodeTerminated "string value" buf
      .ok (.string s, rest)
    | .int64 =>
      let (bytes, rest) ← takeBytes 8 "Buffer too short for Int64 value" buf
      .ok (.int64 (decodeI64Sortable (UInt64.ofNat (ofBe bytes))), rest)
    | .float64 =>
      let (bytes, rest) ← takeBytes 8 "Buffer too short for Float64 value" buf
      .ok (.float64 (decodeF64Sortable (UInt64.ofNat (ofBe bytes))), rest)
    | .bool =>
      match buf with
      | [] => .error { message := "Buffer too short for Bool value" }
      | value :: rest => .ok (.bool (value ≠ 0), rest)
    | .vector =>
      .error { message := "Vector values cannot be used in sortable key encoding" }

end FieldValue

/-! ### Keys -/

namespace MetadataIndexKey

def encode (key : Field Floats) : Except (Fault EncodingError) Bytes := do
  let value ← key.value.encodeSortable
  .ok (RecordType.metadataIndex.keyPrefix.toBytes
    ++ TerminatedBytes.serialize (asBytes key.fieldName) ++ value)

def decode (buf : Bytes) : Except EncodingError (Field Floats) := do
  if buf.length < 5 then .error { message := "Buffer too short for MetadataIndexKey" }
  validateKeyPrefix .metadataIndex buf
  let (fieldName, rest) ← decodeTerminated "field" (buf.drop 3)
  let (value, _) ← FieldValue.decodeSortable rest
  .ok { fieldName, value }

def fieldRange (field : String) : BytesRange :=
  .ofPrefix (RecordType.metadataIndex.keyPrefix.toBytes
    ++ TerminatedBytes.serialize (asBytes field))

end MetadataIndexKey

namespace IdDictionaryKey

def encode (externalId : String) : Bytes :=
  RecordType.idDictionary.keyPrefix.toBytes ++ TerminatedBytes.serialize (asBytes externalId)

def prefixRange (head : String) : BytesRange :=
  .ofPrefix (RecordType.idDictionary.keyPrefix.toBytes ++ TerminatedBytes.serialize (asBytes head))

end IdDictionaryKey

end OpenData.Vector

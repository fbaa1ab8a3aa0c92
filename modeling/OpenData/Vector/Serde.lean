import OpenData.Common.Serde
import OpenData.Vector.Types

/-!
# The bytes of stored vectors, and the writes that are accepted

The embedding of the value encodings in `vector/src/serde` and of `VectorDb::prepare_vector_write`.
Vectors are lists of `f32`, which are kept as their bits.
-/

namespace OpenData.Vector

open Lib Common

/-- A `Vec<f32>`. -/
abbrev Floats := List UInt32

/-! ### Fields -/

inductive FieldType where
  | string
  | int64
  | float64
  | bool
  | vector
deriving Repr, DecidableEq

namespace FieldType

def toByte : FieldType → UInt8
  | string => 0
  | int64 => 1
  | float64 => 2
  | bool => 3
  | vector => 255

def fromByte (byte : UInt8) : Except EncodingError FieldType :=
  if byte = 0 then .ok string
  else if byte = 1 then .ok int64
  else if byte = 2 then .ok float64
  else if byte = 3 then .ok bool
  else if byte = 255 then .ok vector
  else .error { message := s!"Invalid field type: {byte}" }

/-- The `Debug` form. -/
def debug : FieldType → String
  | string => "String"
  | int64 => "Int64"
  | float64 => "Float64"
  | bool => "Bool"
  | vector => "Vector"

end FieldType

def FieldValue.fieldType {V : Type} : FieldValue V → FieldType
  | .string _ => .string
  | .int64 _ => .int64
  | .float64 _ => .float64
  | .bool _ => .bool
  | .vector _ => .vector

def takeBytes (n : Nat) (message : String) (buf : Bytes) : Except EncodingError (Bytes × Bytes) :=
  if buf.length < n then .error { message } else .ok (buf.take n, buf.drop n)

def encodeFloat (x : UInt32) : Bytes := toLe 4 x.toNat

def decodeFloat (buf : Bytes) : Except EncodingError (UInt32 × Bytes) := do
  let (bytes, rest) ← takeBytes 4 "Buffer too short for f32" buf
  .ok (UInt32.ofNat (ofLe bytes), rest)

section

variable {α : Type}

def decodeMany (decode : Bytes → Except EncodingError (α × Bytes)) :
    Nat → Bytes → Except EncodingError (List α × Bytes)
  | 0, buf => .ok ([], buf)
  | count + 1, buf => do
      let (item, rest) ← decode buf
      let (items, rest) ← decodeMany decode count rest
      .ok (item :: items, rest)

def decodeCounted (message : String) (decode : Bytes → Except EncodingError (α × Bytes))
    (buf : Bytes) : Except EncodingError (List α × Bytes) := do
  let (count, rest) ← takeBytes 2 message buf
  decodeMany decode (ofLe count) rest

def encodeCounted (encode : α → Except (Fault EncodingError) Bytes) (items : List α) :
    Except (Fault EncodingError) Bytes :=
  if items.length > 2 ^ 16 - 1 then .error .panic
  else do
    let parts ← items.mapM encode
    .ok (toLe 2 items.length ++ parts.flatten)

def decodeFixedElementArray (decode : Bytes → Except EncodingError (α × Bytes))
    (elementSize : Nat) (buf : Bytes) : Except EncodingError (List α) :=
  if buf.length % elementSize ≠ 0 then
    .error { message :=
      s!"Buffer length {buf.length} is not divisible by element size {elementSize}" }
  else do
    let (items, _) ← decodeMany decode (buf.length / elementSize) buf
    .ok items

end

namespace FieldValue

def encode : FieldValue Floats → Except (Fault EncodingError) Bytes
  | .string s => do
      let bytes ← encodeUtf8 s
      .ok (FieldType.string.toByte :: bytes)
  | .int64 i => .ok (FieldType.int64.toByte :: toLe 8 i.toUInt64.toNat)
  | .float64 bits => .ok (FieldType.float64.toByte :: toLe 8 bits.toNat)
  | .bool b => .ok [FieldType.bool.toByte, if b then 1 else 0]
  | .vector v => .ok (FieldType.vector.toByte :: v.flatMap encodeFloat)

/-- What `decode` and `decode_with_dimensions` share: they differ in how a vector is read. -/
def decodeWith (decodeVector : Bytes → Except EncodingError (Floats × Bytes)) (buf : Bytes) :
    Except EncodingError (FieldValue Floats × Bytes) :=
  match buf with
  | [] => .error { message := "Buffer too short for FieldValue type" }
  | byte :: buf => do
      match ← FieldType.fromByte byte with
      | .string => do
          let (s, rest) ← decodeUtf8 buf
          .ok (.string s, rest)
      | .int64 => do
          let (bytes, rest) ← takeBytes 8 "Buffer too short for Int64 value" buf
          .ok (.int64 (UInt64.ofNat (ofLe bytes)).toInt64, rest)
      | .float64 => do
          let (bytes, rest) ← takeBytes 8 "Buffer too short for Float64 value" buf
          .ok (.float64 (UInt64.ofNat (ofLe bytes)), rest)
      | .bool =>
        match buf with
        | [] => .error { message := "Buffer too short for Bool value" }
        | b :: rest => .ok (.bool (b != 0), rest)
      | .vector => do
          let (v, rest) ← decodeVector buf
          .ok (.vector v, rest)

def decode : Bytes → Except EncodingError (FieldValue Floats × Bytes) :=
  decodeWith fun _ =>
    .error { message := "Vector type requires dimensions context; use decode_with_dimensions" }

def decodeVector (dimensions : Nat) (buf : Bytes) : Except EncodingError (Floats × Bytes) := do
  let (bytes, rest) ← takeBytes (dimensions * 4)
    s!"Buffer too short for Vector value: expected {dimensions * 4} bytes, got {buf.length}" buf
  let vector ← decodeFixedElementArray decodeFloat 4 bytes
  .ok (vector, rest)

def decodeWithDimensions (dimensions : Nat) :
    Bytes → Except EncodingError (FieldValue Floats × Bytes) :=
  decodeWith (decodeVector dimensions)

end FieldValue

namespace Field

def encode (field : Field Floats) : Except (Fault EncodingError) Bytes := do
  let name ← encodeUtf8 field.fieldName
  let value ← field.value.encode
  .ok (name ++ value)

/-- What `decode` and `decode_with_dimensions` share. -/
def decodeWith (decodeValue : Bytes → Except EncodingError (FieldValue Floats × Bytes))
    (buf : Bytes) : Except EncodingError (Field Floats × Bytes) := do
  let (fieldName, buf) ← decodeUtf8 buf
  let (value, rest) ← decodeValue buf
  if fieldName = vectorFieldName ∧ value.fieldType ≠ .vector then
    .error { message := "vector field must have type vector" }
  else .ok ({ fieldName, value }, rest)

def decode : Bytes → Except EncodingError (Field Floats × Bytes) := decodeWith FieldValue.decode

def decodeWithDimensions (dimensions : Nat) : Bytes → Except EncodingError (Field Floats × Bytes) :=
  decodeWith (FieldValue.decodeWithDimensions dimensions)

end Field

/-! ### Stored values -/

namespace VectorDataValue

def encodeToBytes (value : VectorDataValue Floats) : Except (Fault EncodingError) Bytes := do
  let externalId ← encodeUtf8 value.externalId
  let fields ← encodeCounted Field.encode value.fields
  .ok (externalId ++ fields)

def decodeFromBytes (buf : Bytes) (dimensions : Nat) :
    Except EncodingError (VectorDataValue Floats) := do
  let (externalId, buf) ← decodeUtf8 buf
  let (fields, _) ← decodeCounted "Buffer too short for field count"
    (Field.decodeWithDimensions dimensions) buf
  .ok { externalId, fields }

end VectorDataValue

namespace VectorId

def encode (x : VectorId) : Bytes := toBe 8 x.id

def decode (buf : Bytes) : Except EncodingError (VectorId × Bytes) := do
  let (bytes, rest) ← takeBytes 8
    s!"Buffer too short for VectorId: need 8 bytes, have {buf.length}" buf
  let raw := ofBe bytes
  .ok ({ level := raw / 2 ^ 56 % 2 ^ 8, number := raw % 2 ^ 56
         level_lt := Nat.mod_lt _ (by decide), number_lt := Nat.mod_lt _ (by decide) }, rest)

end VectorId

namespace VectorIndexDataValue

def encodeToBytes (value : VectorIndexDataValue Floats) : Except (Fault EncodingError) Bytes := do
  let postings ← encodeCounted (fun posting => .ok posting.encode) value.postings
  let fields ← encodeCounted Field.encode value.indexedFields
  .ok (postings ++ fields)

def decodePosting (buf : Bytes) : Except EncodingError (VectorId × Bytes) := do
  let (posting, rest) ← VectorId.decode buf
  if posting.isCentroid then .ok (posting, rest)
  else
    .error { message :=
      s!"invalid posting {posting.display} in VectorIndexDataValue: expected centroid id" }

def decodeIndexedField (buf : Bytes) : Except EncodingError (Field Floats × Bytes) := do
  let (field, rest) ← Field.decode buf
  if field.fieldName = vectorFieldName then
    .error { message := "VectorIndexDataValue indexed fields must not contain vector field" }
  else .ok (field, rest)

def decodeFromBytes (buf : Bytes) : Except EncodingError (VectorIndexDataValue Floats) := do
  let (postings, buf) ← decodeCounted "Buffer too short for VectorIndexDataValue count"
    decodePosting buf
  let (indexedFields, _) ← decodeCounted "Buffer too short for VectorIndexDataValue field count"
    decodeIndexedField buf
  .ok { postings, indexedFields }

end VectorIndexDataValue

/-! ### Writes -/

structure MetadataFieldSpec where
  name : String
  fieldType : FieldType
  indexed : Bool
deriving Repr, DecidableEq

structure Config where
  dimensions : UInt16
  normalizeIfNeeded : Floats → Floats
  metadataFields : List MetadataFieldSpec

/-- `indexed_fields` of `indexer_opts`. -/
def Config.indexedFields (config : Config) : List String :=
  (config.metadataFields.filter fun spec => spec.indexed).map MetadataFieldSpec.name

structure ApiVector where
  id : String
  attributes : List (Field Floats)

def attributesToMap (attributes : List (Field Floats)) :
    AList fun _ : String => FieldValue Floats :=
  attributes.foldl (fun map field => map.insert field.fieldName field.value) ∅

def mapFields (map : AList fun _ : String => FieldValue Floats) : List (Field Floats) :=
  map.entries.map fun e => { fieldName := e.1, value := e.2 }

def schemaOf (config : Config) : AList fun _ : String => FieldType :=
  config.metadataFields.foldl (fun schema spec => schema.insert spec.name spec.fieldType) ∅

def validateAttribute (config : Config) (field : Field Floats) : Except Error Unit :=
  if field.fieldName = vectorFieldName then .ok ()
  else
    match (schemaOf config).lookup field.fieldName with
    | some expected =>
      if field.value.fieldType ≠ expected then
        .error (.invalidInput (s!"Type mismatch for field '{field.fieldName}': expected " ++
          s!"{expected.debug}, got {field.value.fieldType.debug}"))
      else .ok ()
    | none =>
      .error (.invalidInput (s!"Unknown metadata field: '{field.fieldName}'. " ++
        s!"Valid fields: {(schemaOf config).keys.map String.quote}"))

def validateAttributes (config : Config) (fields : List (Field Floats)) : Except Error Unit :=
  fields.forM (validateAttribute config)

/-- `order` is the order of the hash map. -/
def prepareVectorWrite (config : Config) (order : Choices Floats) (site : List Nat)
    (vector : ApiVector) : Except Error (VectorWrite Floats) :=
  if (asBytes vector.id).length > 64 then
    .error (.invalidInput
      s!"External ID too long: {(asBytes vector.id).length} bytes (max 64)")
  else
    let attributes := attributesToMap vector.attributes
    match attributes.lookup vectorFieldName with
    | none => .error (.invalidInput s!"Missing required field '{vectorFieldName}'")
    | some (.vector values) =>
      if values.length ≠ config.dimensions.toNat then
        .error (.invalidInput (s!"Vector dimension mismatch: expected {config.dimensions}, " ++
          s!"got {values.length}"))
      else do
        let fields := order.shuffle site (mapFields attributes)
        -- Without a schema all attributes are accepted.
        let _ ← (if config.metadataFields = [] then .ok () else validateAttributes config fields)
        .ok {
          externalId := vector.id
          values := config.normalizeIfNeeded values
          attributes := fields }
    | some _ => .error (.invalidInput s!"Field '{vectorFieldName}' must have type Vector")

end OpenData.Vector

import OpenData.Common.Serde
import Mathlib.Data.Finset.Basic

/-!
# Keys and values of a time bucket

The store of a timeseries database holds one list of all buckets, and for each bucket a dictionary
from series fingerprints to series ids, a forward index, an inverted index and the samples. The
keys of a bucket start with the record type, the size and the start of the bucket.
-/

namespace OpenData.Timeseries

open Lib (Bytes Fault toLe ofLe toBe ofBe asBytes fromUtf8)
open Common

/-! ### The model of the data -/

abbrev SeriesId := UInt32

abbrev SeriesFingerprint := BitVec 128

/-- `(self.size.pow(2) * 60) as u32`: the product is one of bytes. -/
def minutesOf (size : UInt8) : UInt32 := (size * size * 60).toUInt32

/-- The start in minutes and the size of a bucket. The size shares a byte with the record type: it
takes the low four bits, where zero is a record outside of all buckets. -/
structure TimeBucket where
  start : UInt32
  size : UInt8
  size_pos : 0 < size
  size_le : size ≤ 15
deriving DecidableEq

namespace TimeBucket

def hour (start : UInt32) : TimeBucket :=
  { start, size := 1, size_pos := by decide, size_le := by decide }

def sizeInMins (bucket : TimeBucket) : UInt32 := minutesOf bucket.size

end TimeBucket

structure Label where
  name : String
  value : String
deriving Repr, DecidableEq

structure Sample where
  timestampMs : Int64
  value : UInt64
deriving Repr, DecidableEq

inductive Temporality where
  | cumulative
  | delta
  | unspecified
deriving Repr, DecidableEq

inductive MetricType where
  | gauge
  | sum (monotonic : Bool) (temporality : Temporality)
  | histogram (temporality : Temporality)
  | exponentialHistogram (temporality : Temporality)
  | summary
deriving Repr, DecidableEq

structure Series where
  labels : List Label
  metricType : Option MetricType
  unit : Option String
  samples : List Sample
deriving Repr, DecidableEq

structure SeriesSpec where
  unit : Option String
  metricType : Option MetricType
  labels : List Label
deriving Repr, DecidableEq

/-! ### The crates -/

structure Crates where
  tszEncode : List Sample → Bytes
  tszDecode : Bytes → List (Except EncodingError Sample)
  roaringSerialize : Finset SeriesId → Except EncodingError Bytes
  roaringDeserialize : Bytes → Except EncodingError (Finset SeriesId)
  blake3 : Bytes → SeriesFingerprint

/-- The codecs decode what they encoded. -/
structure Crates.RoundTrip (crates : Crates) : Prop where
  tsz_ne_nil : ∀ points, points ≠ [] → crates.tszEncode points ≠ []
  tsz : ∀ points, points ≠ [] → crates.tszDecode (crates.tszEncode points) = points.map .ok
  roaring : ∀ postings, ∃ bytes,
    crates.roaringSerialize postings = .ok bytes ∧ crates.roaringDeserialize bytes = .ok postings

/-! ### Record types -/

def keyVersion : UInt8 := 0x01

def subsystem : UInt8 := 0x01

inductive RecordType where
  | bucketList
  | seriesDictionary
  | forwardIndex
  | invertedIndex
  | timeSeries
deriving Repr, DecidableEq

namespace RecordType

def id : RecordType → UInt8
  | .bucketList => 0x01
  | .seriesDictionary => 0x02
  | .forwardIndex => 0x03
  | .invertedIndex => 0x04
  | .timeSeries => 0x05

/-- The name that `{:?}` prints. -/
def name : RecordType → String
  | .bucketList => "BucketList"
  | .seriesDictionary => "SeriesDictionary"
  | .forwardIndex => "ForwardIndex"
  | .invertedIndex => "InvertedIndex"
  | .timeSeries => "TimeSeries"

def fromId (id : UInt8) : Except EncodingError RecordType :=
  if id = 0x01 then .ok .bucketList
  else if id = 0x02 then .ok .seriesDictionary
  else if id = 0x03 then .ok .forwardIndex
  else if id = 0x04 then .ok .invertedIndex
  else if id = 0x05 then .ok .timeSeries
  else .error { message := s!"invalid record type: 0x{hexByte id}" }

def fromPrefix (p : KeyPrefix) : Except EncodingError RecordType :=
  if p.subsystem ≠ subsystem then
    .error { message :=
      s!"invalid subsystem: expected 0x{hexByte subsystem}, got 0x{hexByte p.subsystem}" }
  else fromId ((p.tag &&& 0xF0) >>> 4)

/-- `prefix`: the first bytes of a key outside of all buckets. -/
def keyPrefix (t : RecordType) : KeyPrefix :=
  { subsystem, version := keyVersion, tag := recordTag t.id 0 }

def keyPrefixWithBucketSize (t : RecordType) (size : UInt8) : KeyPrefix :=
  { subsystem, version := keyVersion, tag := recordTag t.id size }

/-- `write_bucket_scoped_prefix`: what the keys of one type and one bucket start with. -/
def bucketScopedPrefix (t : RecordType) (bucket : TimeBucket) : Bytes :=
  (t.keyPrefixWithBucketSize bucket.size).toBytes ++ toBe 4 bucket.start.toNat

def bucketRange (t : RecordType) (bucket : TimeBucket) : BytesRange :=
  BytesRange.ofPrefix (t.bucketScopedPrefix bucket)

end RecordType

def bucketSizeFromPrefix (p : KeyPrefix) : Option UInt8 :=
  let size := p.tag &&& 0x0F
  if size = 0 then none else some size

/-! ### Keys -/

def bucketListKey : Bytes := RecordType.bucketList.keyPrefix.toBytes

/-- What the decoders of the keys of a bucket do first: the checks of the length, of the record type
and of the bucket size. The result is the size and the start of the bucket. -/
def decodeBucketScope (t : RecordType) (minLength : Nat) (buf : Bytes) :
    Except EncodingError (UInt8 × UInt32) := do
  if buf.length < minLength then .error { message := s!"Buffer too short for {t.name}Key" }
  let p ← (KeyPrefix.fromBytesWithValidation buf subsystem keyVersion).mapError
    DeserializeError.toEncodingError
  let recordType ← RecordType.fromPrefix p
  if recordType ≠ t then
    .error { message := s!"invalid record type: expected {t.name}, got {recordType.name}" }
  match bucketSizeFromPrefix p with
  | none => .error { message := s!"{t.name}Key should be bucket-scoped" }
  | some size => .ok (size, UInt32.ofNat (ofBe ((buf.drop 3).take 4)))

structure SeriesDictionaryKey where
  timeBucket : UInt32
  bucketSize : UInt8
  seriesFingerprint : SeriesFingerprint
deriving DecidableEq

namespace SeriesDictionaryKey

def encode (key : SeriesDictionaryKey) : Bytes :=
  (RecordType.seriesDictionary.keyPrefixWithBucketSize key.bucketSize).toBytes
    ++ toBe 4 key.timeBucket.toNat ++ toBe 16 key.seriesFingerprint.toNat

def decode (buf : Bytes) : Except EncodingError SeriesDictionaryKey := do
  let (bucketSize, timeBucket) ← decodeBucketScope .seriesDictionary (3 + 4 + 16) buf
  .ok {
    timeBucket
    bucketSize
    seriesFingerprint := BitVec.ofNat 128 (ofBe ((buf.drop 7).take 16)) }

end SeriesDictionaryKey

def forwardIndexKey (bucket : TimeBucket) (seriesId : SeriesId) : Bytes :=
  RecordType.forwardIndex.bucketScopedPrefix bucket ++ toBe 4 seriesId.toNat

def ForwardIndexKey.decode (buf : Bytes) :
    Except EncodingError ((UInt8 × UInt32) × SeriesId) := do
  let bucket ← decodeBucketScope .forwardIndex (3 + 4 + 4) buf
  .ok (bucket, UInt32.ofNat (ofBe ((buf.drop 7).take 4)))

/-- `InvertedIndexKey::encode`: only the name is terminated, the value ends with the key. -/
def invertedIndexKey (bucket : TimeBucket) (label : Label) : Bytes :=
  RecordType.invertedIndex.bucketScopedPrefix bucket
    ++ TerminatedBytes.serialize (asBytes label.name) ++ asBytes label.value

/-- The messages for bytes that are not UTF-8 go on with what the standard library finds in them,
which is left out. -/
def InvertedIndexKey.decode (buf : Bytes) : Except EncodingError ((UInt8 × UInt32) × Label) := do
  let bucket ← decodeBucketScope .invertedIndex (3 + 4) buf
  let (attributeBytes, rest) ← (TerminatedBytes.deserialize (buf.drop 7)).mapError
    DeserializeError.toEncodingError
  match fromUtf8 attributeBytes, fromUtf8 rest with
  | some name, some value => .ok (bucket, { name, value })
  | none, _ => .error { message := "Invalid UTF-8 in attribute" }
  | _, none => .error { message := "Invalid UTF-8 in value" }

/-- The keys of one attribute of a bucket, whatever their value. -/
def InvertedIndexKey.attributeRange (bucket : TimeBucket) (name : String) : BytesRange :=
  .ofPrefix (RecordType.invertedIndex.bucketScopedPrefix bucket
    ++ TerminatedBytes.serialize (asBytes name))

def timeSeriesKey (bucket : TimeBucket) (metricName : String) (seriesId : SeriesId) : Bytes :=
  RecordType.timeSeries.bucketScopedPrefix bucket
    ++ TerminatedBytes.serialize (asBytes metricName) ++ toBe 4 seriesId.toNat

def TimeSeriesKey.decode (buf : Bytes) :
    Except EncodingError ((UInt8 × UInt32) × String × SeriesId) := do
  let bucket ← decodeBucketScope .timeSeries (3 + 4 + 1 + 4) buf
  let (metricName, rest) ← (TerminatedBytes.deserialize (buf.drop 7)).mapError
    DeserializeError.toEncodingError
  match fromUtf8 metricName with
  | none => .error { message := "Invalid UTF-8 in metric_name" }
  | some name =>
    if rest.length < 4 then
      .error { message := "Buffer too short for series_id in TimeSeriesKey" }
    else .ok (bucket, name, UInt32.ofNat (ofBe (rest.take 4)))

/-! ### Values -/

section

variable {α : Type}

/-- `encode_array`: a count in two bytes and the items. -/
def encodeArray (encode : α → Except (Fault EncodingError) Bytes) (items : List α) :
    Except (Fault EncodingError) Bytes :=
  if items.length > 2 ^ 16 - 1 then .error .panic
  else do
    let parts ← items.mapM encode
    .ok (toLe 2 items.length ++ parts.flatten)

def decodeItems (decode : Bytes → Except EncodingError (α × Bytes)) :
    Nat → Bytes → Except EncodingError (List α)
  | 0, _ => .ok []
  | count + 1, buf => do
      let (item, rest) ← decode buf
      let items ← decodeItems decode count rest
      .ok (item :: items)

/-- `decode_array`. Nothing reads on behind an array. -/
def decodeArray (decode : Bytes → Except EncodingError (α × Bytes)) :
    Bytes → Except EncodingError (List α)
  | b0 :: b1 :: buf => decodeItems decode (ofLe [b0, b1]) buf
  | _ => .error { message := "Buffer too short for array count" }

def decodeFixedElementArray (decode : Bytes → Except EncodingError (α × Bytes))
    (elementSize : Nat) (buf : Bytes) : Except EncodingError (List α) :=
  if buf.length % elementSize ≠ 0 then
    .error { message :=
      s!"Buffer length {buf.length} is not divisible by element size {elementSize}" }
  else decodeItems decode (buf.length / elementSize) buf

end

namespace BucketListValue

def encodeBucket (bucket : UInt8 × UInt32) : Bytes := bucket.1 :: toLe 4 bucket.2.toNat

def decodeBucket : Bytes → Except EncodingError ((UInt8 × UInt32) × Bytes)
  | size :: b0 :: b1 :: b2 :: b3 :: rest =>
    .ok ((size, UInt32.ofNat (ofLe [b0, b1, b2, b3])), rest)
  | _ => .error { message := "Buffer too short for (TimeBucketSize, TimeBucket)" }

def encode (buckets : List (UInt8 × UInt32)) : Bytes := buckets.flatMap encodeBucket

def decode (buf : Bytes) : Except EncodingError (List (UInt8 × UInt32)) :=
  decodeFixedElementArray decodeBucket 5 buf

end BucketListValue

namespace SeriesDictionaryValue

def encode (seriesId : SeriesId) : Bytes := toLe 4 seriesId.toNat

def decode : Bytes → Except EncodingError SeriesId
  | b0 :: b1 :: b2 :: b3 :: _ => .ok (UInt32.ofNat (ofLe [b0, b1, b2, b3]))
  | _ => .error { message := "Buffer too short for SeriesId" }

end SeriesDictionaryValue

/-- `From<MetricType> for MetricMeta`: a type, and in the flags the temporality (bits 0 and 1) and
the monotonicity (bit 2). -/
def MetricType.metricMeta (t : MetricType) : UInt8 × UInt8 :=
  let (metricType, temporality, monotonic) : UInt8 × Temporality × Bool :=
    match t with
    | .gauge => (1, .unspecified, false)
    | .sum monotonic temporality => (2, temporality, monotonic)
    | .histogram temporality => (3, temporality, false)
    | .exponentialHistogram temporality => (4, temporality, false)
    | .summary => (5, .unspecified, false)
  let temporalityBits : UInt8 :=
    match temporality with
    | .unspecified => 0
    | .cumulative => 1
    | .delta => 2
  (metricType, temporalityBits ||| if monotonic then 0x04 else 0x00)

/-- The metric type in `From<ForwardIndexValue> for SeriesSpec`. -/
def MetricType.ofMetricMeta (metricType flags : UInt8) : Option MetricType :=
  let temporality : Temporality :=
    if flags &&& 0x03 = 1 then .cumulative
    else if flags &&& 0x03 = 2 then .delta
    else .unspecified
  if metricType = 1 then some .gauge
  else if metricType = 2 then some (.sum (flags &&& 0x04 ≠ 0) temporality)
  else if metricType = 3 then some (.histogram temporality)
  else if metricType = 4 then some (.exponentialHistogram temporality)
  else if metricType = 5 then some .summary
  else none

namespace ForwardIndexValue

def encodeLabel (label : Label) : Except (Fault EncodingError) Bytes := do
  let name ← encodeUtf8 label.name
  let value ← encodeUtf8 label.value
  .ok (name ++ value)

/-- The value of a series. The number of labels is written twice: as a field, cut to 16 bits, and
as the count of the array. -/
def encode (spec : SeriesSpec) : Except (Fault EncodingError) Bytes := do
  let unit ← encodeOptionalUtf8 spec.unit
  let (metricType, flags) := (spec.metricType.map MetricType.metricMeta).getD (0, 0)
  let labels ← encodeArray encodeLabel spec.labels
  .ok (unit ++ [metricType, flags] ++ toLe 2 spec.labels.length ++ labels)

def decodeLabel (buf : Bytes) : Except EncodingError (Label × Bytes) := do
  let (name, buf) ← decodeUtf8 buf
  let (value, buf) ← decodeUtf8 buf
  .ok ({ name, value }, buf)

def decodeMetaAndLabels (unit : Option String) : Bytes → Except EncodingError SeriesSpec
  | metricType :: flags :: b0 :: b1 :: buf => do
      let labels ← decodeArray decodeLabel buf
      if labels.length ≠ ofLe [b0, b1] then
        .error { message :=
          s!"Label count mismatch: expected {ofLe [b0, b1]}, got {labels.length}" }
      else .ok { unit, metricType := MetricType.ofMetricMeta metricType flags, labels }
  | _ :: _ :: _ => .error { message := "Buffer too short for label_count" }
  | _ => .error { message := "Buffer too short for MetricMeta" }

/-- `ForwardIndexValue::decode`, as a series. -/
def decode (buf : Bytes) : Except EncodingError SeriesSpec := do
  let (unit, buf) ← decodeOptionalUtf8 buf
  decodeMetaAndLabels unit buf

end ForwardIndexValue

namespace TimeSeriesValue

def encode (crates : Crates) (points : List Sample) : Bytes :=
  if points = [] then [] else crates.tszEncode points

def decode (crates : Crates) (buf : Bytes) : Except EncodingError (List Sample) :=
  if buf = [] then .ok [] else (crates.tszDecode buf).mapM id

end TimeSeriesValue

/-! ### The bits of compressed samples -/

/-- A position in the bytes that the reader borrows. A byte boundary is bit 0 of the next byte or
bit 8 of the last. -/
structure BytesReader (bytes : Bytes) where
  bytePos : Nat
  bitPos : Fin 9

namespace BytesReader

variable {bytes : Bytes}

/-- A read fails with `TszError::EOF` only. That ends the calls, so no position is kept then. -/
abbrev Read (bytes : Bytes) := StateT (BytesReader bytes) Option

def new (bytes : Bytes) : BytesReader bytes := { bytePos := 0, bitPos := 0 }

def readBit : Read bytes Bool := fun r =>
  let r := if r.bitPos = 8 then { bytePos := r.bytePos + 1, bitPos := 0 } else r
  bytes[r.bytePos]?.map fun byte =>
    (byte &&& (1 <<< UInt8.ofNat (7 - r.bitPos)) ≠ 0, { r with bitPos := r.bitPos + 1 })

def readByte : Read bytes UInt8 := fun r =>
  if r.bitPos = 0 then
    bytes[r.bytePos]?.map fun byte => (byte, { r with bitPos := 8 })
  else if r.bitPos = 8 then
    bytes[r.bytePos + 1]?.map fun byte => (byte, { r with bytePos := r.bytePos + 1 })
  else do
    let b ← bytes[r.bytePos]?
    let b' ← bytes[r.bytePos + 1]?
    some ((b <<< UInt8.ofNat r.bitPos) ||| (b' >>> UInt8.ofNat (8 - r.bitPos)),
      { r with bytePos := r.bytePos + 1 })

/-- Both loops of `read_bits`: bytes as long as eight bits are missing, then bits. -/
def readBitsLoop (num : Nat) (bits : UInt64) : Read bytes UInt64 :=
  if 8 ≤ num then do
    let byte ← readByte
    readBitsLoop (num - 8) ((bits <<< 8) ||| byte.toUInt64)
  else if 0 < num then do
    let bit ← readBit
    readBitsLoop (num - 1) ((bits <<< 1) ||| bit.toUInt64)
  else pure bits

def readBits (num : Nat) : Read bytes UInt64 := readBitsLoop (if 64 < num then 64 else num) 0

def peakBits (num : Nat) : Read bytes UInt64 := do
  let saved ← get
  let bits ← readBits num
  set saved
  return bits

end BytesReader

end OpenData.Timeseries

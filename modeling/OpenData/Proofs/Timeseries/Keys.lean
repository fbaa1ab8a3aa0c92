import OpenData.Timeseries.Tsdb
import OpenData.Proofs.Timeseries.Serde

/-!
# The keys of a bucket

The record type and the size of the bucket share one byte of a key and both can be read back
(`recordTypeOf_append`). Keys of different record types are different for that reason, and keys of
one type and bucket are different if their fields are (`BucketKey.encode_inj`). The terminator of a
name makes the order of the keys that of their fields (`invertedIndexKey_lt`, `timeSeriesKey_lt`)
and keeps longer names out of a range (`contains_attributeRange`). All of it is in
`timeseries_keys`.
-/

namespace OpenData.Timeseries

open Lib Common List

variable (t : RecordType)

namespace RecordType

theorem recordTag_halves {size} (hle : size ≤ 15) :
    (recordTag t.id size &&& 0xF0) >>> 4 = t.id ∧ recordTag t.id size &&& 0x0F = size ∧
      recordTag t.id size ≠ 0 := by
  have hsmall : ∀ n < 16, (recordTag t.id (UInt8.ofNat n) &&& 0xF0) >>> 4 = t.id ∧
      recordTag t.id (UInt8.ofNat n) &&& 0x0F = UInt8.ofNat n ∧
      recordTag t.id (UInt8.ofNat n) ≠ 0 := by
    cases t <;> decide
  have hlt : size.toNat < 16 := by
    rw [UInt8.le_iff_toNat_le] at hle
    exact Nat.lt_succ_of_le hle
  simpa using hsmall size.toNat hlt

theorem fromId_id : fromId t.id = .ok t := by
  cases t <;> rfl

variable (t : RecordType) (bucket : TimeBucket)

theorem fromPrefix_keyPrefixWithBucketSize :
    fromPrefix (t.keyPrefixWithBucketSize bucket.size) = .ok t := by
  rw [fromPrefix, if_neg (by simp [keyPrefixWithBucketSize])]
  show fromId ((recordTag t.id bucket.size &&& 0xF0) >>> 4) = _
  rw [(recordTag_halves t bucket.size_le).1, fromId_id]

theorem bucketSizeFromPrefix_keyPrefixWithBucketSize :
    bucketSizeFromPrefix (t.keyPrefixWithBucketSize bucket.size) = some bucket.size := by
  have hne : bucket.size ≠ 0 := (UInt8.ne_of_lt bucket.size_pos).symm
  show (if recordTag t.id bucket.size &&& 0x0F = 0 then none
    else some (recordTag t.id bucket.size &&& 0x0F)) = _
  rw [(recordTag_halves t bucket.size_le).2.1, if_neg hne]

theorem fromBytes_append (rest : Bytes) :
    KeyPrefix.fromBytes (t.bucketScopedPrefix bucket ++ rest) =
      .ok (t.keyPrefixWithBucketSize bucket.size) := by
  have htag := (recordTag_halves t bucket.size_le).2.2
  simp [bucketScopedPrefix, KeyPrefix.toBytes, KeyPrefix.fromBytes, keyPrefixWithBucketSize,
    KeyPrefix.validateSubsystem, KeyPrefix.validateKeyVersion, KeyPrefix.validateRecordTag,
    KeyPrefix.validateByte, htag, subsystem, keyVersion, bind, Except.bind]

theorem fromBytesWithValidation_append (rest : Bytes) :
    KeyPrefix.fromBytesWithValidation (t.bucketScopedPrefix bucket ++ rest) subsystem keyVersion =
      .ok (t.keyPrefixWithBucketSize bucket.size) := by
  rw [KeyPrefix.fromBytesWithValidation, fromBytes_append]
  rfl

theorem take_append (rest : Bytes) :
    ((t.bucketScopedPrefix bucket ++ rest).drop 3).take 4 = toBe 4 bucket.start.toNat := by
  simp [bucketScopedPrefix, KeyPrefix.toBytes]

end RecordType

theorem length_bucketScopedPrefix (bucket : TimeBucket) :
    (t.bucketScopedPrefix bucket).length = 7 := by
  simp [RecordType.bucketScopedPrefix, KeyPrefix.toBytes]

section

variable {bucket : TimeBucket}

theorem bucket_eq_of_isPrefix {t t' : RecordType} {bucket' : TimeBucket} {k : Bytes}
    (h : t.bucketScopedPrefix bucket <+: k) (h' : t'.bucketScopedPrefix bucket' <+: k) :
    bucket = bucket' := by
  have hlen : (t.bucketScopedPrefix bucket).length = (t'.bucketScopedPrefix bucket').length := by
    rw [length_bucketScopedPrefix, length_bucketScopedPrefix]
  have heq := (prefix_of_prefix_length_le h h' hlen.le).eq_of_length hlen
  obtain ⟨hhead, hstart⟩ := append_inj heq rfl
  have htag : recordTag t.id bucket.size = recordTag t'.id bucket'.size := by
    simpa [KeyPrefix.toBytes, RecordType.keyPrefixWithBucketSize] using hhead
  have hsize : bucket.size = bucket'.size := by
    rw [← (t.recordTag_halves bucket.size_le).2.1, htag, (t'.recordTag_halves bucket'.size_le).2.1]
  have hnat := (toBe_inj bucket.start.toNat_lt bucket'.start.toNat_lt).mp hstart
  have hstart' : bucket.start = bucket'.start := UInt32.toNat_inj.mp hnat
  obtain ⟨start, size, hpos, hle⟩ := bucket
  obtain ⟨start', size', hpos', hle'⟩ := bucket'
  subst hsize hstart'
  rfl

theorem decodeBucketScope_append {t : RecordType} {bucket : TimeBucket} {minLength : Nat}
    {rest : Bytes} (h : minLength ≤ 7 + rest.length) :
    decodeBucketScope t minLength (t.bucketScopedPrefix bucket ++ rest) =
      .ok (bucket.size, bucket.start) := by
  have hlen : ¬ (t.bucketScopedPrefix bucket ++ rest).length < minLength := by
    rw [length_append, length_bucketScopedPrefix]
    omega
  simp only [decodeBucketScope, hlen, if_false, t.fromBytesWithValidation_append, t.take_append,
    Except.mapError, bind, Except.bind, t.fromPrefix_keyPrefixWithBucketSize,
    t.bucketSizeFromPrefix_keyPrefixWithBucketSize, ofBe_toBe_uint32]
  simp

theorem recordTypeOf_append (bucket : TimeBucket) (rest : Bytes) :
    recordTypeOf (t.bucketScopedPrefix bucket ++ rest) = some t := by
  rw [recordTypeOf, t.fromBytes_append]
  show (RecordType.fromPrefix _).toOption = _
  rw [t.fromPrefix_keyPrefixWithBucketSize]
  rfl

theorem recordTypeOf_of_isPrefix {t : RecordType} {key : Bytes}
    (h : t.bucketScopedPrefix bucket <+: key) : recordTypeOf key = some t := by
  obtain ⟨rest, rfl⟩ := h
  exact recordTypeOf_append t bucket rest

theorem recordTypeOf_bucketListKey : recordTypeOf bucketListKey = some .bucketList := by
  decide +kernel

/-! ### The dictionary -/

section

variable (bucket : TimeBucket) (fp : SeriesFingerprint)

theorem seriesDictionaryKey_eq : seriesDictionaryKey bucket fp =
      RecordType.seriesDictionary.bucketScopedPrefix bucket ++ toBe 16 fp.toNat := rfl

theorem toNat_fingerprint_lt : fp.toNat < 256 ^ 16 := fp.isLt

theorem seriesDictionaryKey_inj {fp fp'}
    (h : seriesDictionaryKey bucket fp = seriesDictionaryKey bucket fp') : fp = fp' := by
  rw [seriesDictionaryKey_eq, seriesDictionaryKey_eq, append_cancel_left_eq] at h
  exact BitVec.eq_of_toNat_eq ((toBe_inj (toNat_fingerprint_lt fp) (toNat_fingerprint_lt fp')).mp h)

theorem decode_seriesDictionaryKey : SeriesDictionaryKey.decode (seriesDictionaryKey bucket fp) =
      .ok { timeBucket := bucket.start, bucketSize := bucket.size, seriesFingerprint := fp } := by
  rw [SeriesDictionaryKey.decode, seriesDictionaryKey_eq, decodeBucketScope_append (by simp),
    drop_left' (length_bucketScopedPrefix _ _), take_of_length_le (by simp),
    ofBe_toBe_of_lt (toNat_fingerprint_lt fp)]
  simp [bind, Except.bind]

end

/-! ### The indexes -/

theorem forwardIndexKey_inj {id id'}
    (h : forwardIndexKey bucket id = forwardIndexKey bucket id') : id = id' := by
  rw [forwardIndexKey, forwardIndexKey, append_cancel_left_eq] at h
  exact UInt32.toNat_inj.mp ((toBe_inj id.toNat_lt id'.toNat_lt).mp h)

theorem invertedIndexKey_inj {label label'}
    (h : invertedIndexKey bucket label = invertedIndexKey bucket label') : label = label' := by
  rw [invertedIndexKey, invertedIndexKey, append_assoc, append_assoc, append_cancel_left_eq] at h
  obtain ⟨hname, hvalue⟩ := TerminatedBytes.serialize_append_inj h
  exact Label.mk.injEq .. ▸ ⟨asBytes_inj hname, asBytes_inj hvalue⟩

theorem recordTypeOf_forwardIndexKey (bucket : TimeBucket) (id : SeriesId) :
    recordTypeOf (forwardIndexKey bucket id) = some .forwardIndex :=
  recordTypeOf_append _ _ _

theorem recordTypeOf_invertedIndexKey (bucket : TimeBucket) (label : Label) :
    recordTypeOf (invertedIndexKey bucket label) = some .invertedIndex := by
  rw [invertedIndexKey, append_assoc]
  exact recordTypeOf_append _ _ _

theorem decode_forwardIndexKey (bucket : TimeBucket) (id : SeriesId) :
    ForwardIndexKey.decode (forwardIndexKey bucket id) = .ok ((bucket.size, bucket.start), id) := by
  rw [ForwardIndexKey.decode, forwardIndexKey, decodeBucketScope_append (by simp),
    drop_left' (length_bucketScopedPrefix _ _), take_of_length_le (by simp), ofBe_toBe_uint32]
  rfl

theorem decode_invertedIndexKey (bucket : TimeBucket) (label : Label) :
    InvertedIndexKey.decode (invertedIndexKey bucket label) =
      .ok ((bucket.size, bucket.start), label) := by
  rw [InvertedIndexKey.decode, invertedIndexKey, append_assoc, decodeBucketScope_append (by simp),
    drop_left' (length_bucketScopedPrefix _ _), TerminatedBytes.deserialize_serialize]
  simp [Except.mapError, bind, Except.bind, fromUtf8_asBytes]

/-! ### The samples -/

theorem timeSeriesKey_inj {name name' id id'}
    (h : timeSeriesKey bucket name id = timeSeriesKey bucket name' id') :
    name = name' ∧ id = id' := by
  rw [timeSeriesKey, timeSeriesKey, append_assoc, append_assoc, append_cancel_left_eq] at h
  obtain ⟨hname, hid⟩ := TerminatedBytes.serialize_append_inj h
  refine ⟨asBytes_inj hname, UInt32.toNat_inj.mp ((toBe_inj ?_ ?_).mp hid)⟩
  · exact id.toNat_lt
  · exact id'.toNat_lt

theorem decode_timeSeriesKey (bucket : TimeBucket) (name : String) (id : SeriesId) :
    TimeSeriesKey.decode (timeSeriesKey bucket name id) =
      .ok ((bucket.size, bucket.start), name, id) := by
  have hlen : 3 + 4 + 1 + 4 ≤
      7 + (TerminatedBytes.serialize (asBytes name) ++ toBe 4 id.toNat).length := by
    simp only [TerminatedBytes.serialize, length_append, length_singleton, length_toBe]
    omega
  rw [TimeSeriesKey.decode, timeSeriesKey, append_assoc, decodeBucketScope_append hlen,
    drop_left' (length_bucketScopedPrefix _ _), TerminatedBytes.deserialize_serialize]
  simp [Except.mapError, bind, Except.bind, fromUtf8_asBytes, take_of_length_le, ofBe_toBe_uint32]

end

/-! ### All keys of buckets -/

/-- A key of any of the four record types that belong to a bucket. -/
inductive BucketKey where
  | seriesDictionary (bucket : TimeBucket) (fingerprint : SeriesFingerprint)
  | forwardIndex (bucket : TimeBucket) (id : SeriesId)
  | invertedIndex (bucket : TimeBucket) (label : Label)
  | timeSeries (bucket : TimeBucket) (metricName : String) (id : SeriesId)

namespace BucketKey

def encode : BucketKey → Bytes
  | seriesDictionary bucket fingerprint => seriesDictionaryKey bucket fingerprint
  | forwardIndex bucket id => forwardIndexKey bucket id
  | invertedIndex bucket label => invertedIndexKey bucket label
  | timeSeries bucket metricName id => timeSeriesKey bucket metricName id

def recordType : BucketKey → RecordType
  | seriesDictionary .. => .seriesDictionary
  | forwardIndex .. => .forwardIndex
  | invertedIndex .. => .invertedIndex
  | timeSeries .. => .timeSeries

def bucket : BucketKey → TimeBucket
  | seriesDictionary bucket _ | forwardIndex bucket _ | invertedIndex bucket _
  | timeSeries bucket _ _ => bucket

theorem isPrefix_encode (k : BucketKey) :
    k.recordType.bucketScopedPrefix k.bucket <+: k.encode := by
  cases k with
  | seriesDictionary | forwardIndex => exact prefix_append _ _
  | invertedIndex | timeSeries => exact (prefix_append _ _).trans (prefix_append _ _)

theorem contains_bucketRange {t : RecordType} {bucket : TimeBucket} {k : BucketKey} :
    (t.bucketRange bucket).contains k.encode = true ↔ k.recordType = t ∧ k.bucket = bucket := by
  rw [RecordType.bucketRange, BytesRange.contains_ofPrefix]
  constructor
  · intro h
    have htype := recordTypeOf_of_isPrefix h
    rw [recordTypeOf_of_isPrefix k.isPrefix_encode] at htype
    exact ⟨Option.some.inj htype, bucket_eq_of_isPrefix k.isPrefix_encode h⟩
  · rintro ⟨rfl, rfl⟩
    exact k.isPrefix_encode

theorem encode_inj {k k' : BucketKey} (h : k.encode = k'.encode) : k = k' := by
  obtain ⟨htype, hbucket⟩ := contains_bucketRange.mp
    (h ▸ contains_bucketRange.mpr ⟨rfl, rfl⟩ :
      (k'.recordType.bucketRange k'.bucket).contains k.encode = true)
  cases k <;> cases k' <;> cases htype <;> cases hbucket
  case seriesDictionary.seriesDictionary => rw [seriesDictionaryKey_inj _ h]
  case forwardIndex.forwardIndex => rw [forwardIndexKey_inj h]
  case invertedIndex.invertedIndex => rw [invertedIndexKey_inj h]
  case timeSeries.timeSeries =>
    obtain ⟨rfl, rfl⟩ := timeSeriesKey_inj h
    rfl

end BucketKey

theorem invertedIndexKey_lt {bucket : TimeBucket} {label label' : Label} :
    invertedIndexKey bucket label < invertedIndexKey bucket label' ↔
      asBytes label.name < asBytes label'.name ∨
        label.name = label'.name ∧ asBytes label.value < asBytes label'.value := by
  rw [invertedIndexKey, invertedIndexKey, append_assoc, append_assoc, append_lt_append_left,
    TerminatedBytes.orderedCode.append_lt_append_iff]
  simp only [Function.Injective.eq_iff fun _ _ => asBytes_inj]

theorem timeSeriesKey_lt {bucket : TimeBucket} {name name' : String} {id id' : SeriesId} :
    timeSeriesKey bucket name id < timeSeriesKey bucket name' id' ↔
      asBytes name < asBytes name' ∨ name = name' ∧ id < id' := by
  rw [timeSeriesKey, timeSeriesKey, append_assoc, append_assoc, append_lt_append_left,
    TerminatedBytes.orderedCode.append_lt_append_iff, UInt32.lt_iff_toNat_lt,
    toBe_lt_toBe id.toNat_lt id'.toNat_lt]
  simp only [Function.Injective.eq_iff fun _ _ => asBytes_inj]

theorem contains_attributeRange {bucket bucket' : TimeBucket} {name : String} {label : Label} :
    (InvertedIndexKey.attributeRange bucket name).contains (invertedIndexKey bucket' label) = true ↔
      bucket' = bucket ∧ label.name = name := by
  rw [InvertedIndexKey.attributeRange, BytesRange.contains_ofPrefix]
  constructor
  · intro h
    obtain rfl : bucket' = bucket := bucket_eq_of_isPrefix
      (BucketKey.invertedIndex bucket' label).isPrefix_encode ((prefix_append _ _).trans h)
    rw [invertedIndexKey, append_assoc, prefix_append_right_inj,
      TerminatedBytes.orderedCode.prefix_append_iff] at h
    exact ⟨rfl, asBytes_inj h.symm⟩
  · rintro ⟨rfl, rfl⟩
    exact prefix_append _ _

/-- The layout of the keys of a bucket: they can be read back and told apart, the order of their
bytes is the order of their fields, and a range holds the keys it is built for. -/
theorem timeseries_keys :
    -- Every key is read back, and no two keys have the same bytes.
    (∀ bucket fp, SeriesDictionaryKey.decode (seriesDictionaryKey bucket fp) =
      .ok { timeBucket := bucket.start, bucketSize := bucket.size, seriesFingerprint := fp }) ∧
    (∀ bucket id, ForwardIndexKey.decode (forwardIndexKey bucket id) =
      .ok ((bucket.size, bucket.start), id)) ∧
    (∀ bucket label, InvertedIndexKey.decode (invertedIndexKey bucket label) =
      .ok ((bucket.size, bucket.start), label)) ∧
    (∀ bucket name id, TimeSeriesKey.decode (timeSeriesKey bucket name id) =
      .ok ((bucket.size, bucket.start), name, id)) ∧
    (∀ k k' : BucketKey, k ≠ k' → k.encode ≠ k'.encode) ∧
    -- The keys of one bucket are in the order of their fields.
    (∀ bucket label label', invertedIndexKey bucket label < invertedIndexKey bucket label' ↔
      asBytes label.name < asBytes label'.name ∨
        label.name = label'.name ∧ asBytes label.value < asBytes label'.value) ∧
    (∀ bucket name name' id id', timeSeriesKey bucket name id < timeSeriesKey bucket name' id' ↔
      asBytes name < asBytes name' ∨ name = name' ∧ id < id') ∧
    -- The ranges hold the keys they are for.
    (∀ t bucket, ∀ k : BucketKey, (t.bucketRange bucket).contains k.encode = true ↔
      k.recordType = t ∧ k.bucket.size = bucket.size ∧ k.bucket.start = bucket.start) ∧
    ∀ bucket name bucket' label, (InvertedIndexKey.attributeRange bucket name).contains
      (invertedIndexKey bucket' label) = true ↔ bucket' = bucket ∧ label.name = name := by
  refine ⟨decode_seriesDictionaryKey, decode_forwardIndexKey, decode_invertedIndexKey,
    decode_timeSeriesKey, fun k k' hne heq => hne (BucketKey.encode_inj heq),
    fun _ _ _ => invertedIndexKey_lt, fun _ _ _ _ _ => timeSeriesKey_lt, fun t bucket k => ?_,
    fun _ _ _ _ => contains_attributeRange⟩
  rw [BucketKey.contains_bucketRange, TimeBucket.mk.injEq, and_comm (a := _ = bucket.size)]

end OpenData.Timeseries

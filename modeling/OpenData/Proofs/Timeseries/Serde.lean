import OpenData.Timeseries.Serde
import OpenData.Proofs.Common.Serde
import OpenData.Lib.Monadic
import Mathlib.Data.Finset.Sort

/-!
# Round trips of the keys and values of a bucket

Values that are arrays of items of one size decode to what was encoded (`decodeItems_flatMap`). The
same lemma shows that the assumptions on the codecs of the crates can be met
(`Crates.fixedWidth_roundTrip`). A series whose counts and lengths fit into two bytes is encoded and
read back (`ForwardIndexValue.encode_of_encodable`, `ForwardIndexValue.decode_encode`).
-/

namespace OpenData.Timeseries

open Lib Common List Option

/-! ### Arrays -/

variable {bytes : Bytes}

section

variable {α : Type} {encode : α → Bytes} {decode : Bytes → Except EncodingError (α × Bytes)}
  {items : List α}

theorem decodeItems_flatMap_of_mem
    (h : ∀ a ∈ items, ∀ rest, decode (encode a ++ rest) = .ok (a, rest)) :
    decodeItems decode items.length (items.flatMap encode) = .ok items := by
  induction items with
  | nil => rfl
  | cons a items ih =>
    obtain ⟨ha, hitems⟩ := forall_mem_cons.mp h
    rw [length_cons, flatMap_cons, decodeItems, ha]
    show (decodeItems decode items.length (items.flatMap encode) >>= fun items =>
      Except.ok (a :: items)) = _
    rw [ih hitems]
    rfl

theorem decodeItems_flatMap (h : ∀ a rest, decode (encode a ++ rest) = .ok (a, rest))
    (items : List α) : decodeItems decode items.length (items.flatMap encode) = .ok items :=
  decodeItems_flatMap_of_mem fun a _ => h a

theorem length_flatMap_encode (size : Nat) (h : ∀ a, (encode a).length = size) (items : List α) :
    (items.flatMap encode).length = items.length * size := by
  simp [length_flatMap, h]

theorem decodeFixedElementArray_flatMap (size : Nat) (hpos : 0 < size)
    (hsize : ∀ a, (encode a).length = size)
    (h : ∀ a rest, decode (encode a ++ rest) = .ok (a, rest)) (items : List α) :
    decodeFixedElementArray decode size (items.flatMap encode) = .ok items := by
  rw [decodeFixedElementArray, length_flatMap_encode size hsize, if_neg (by simp),
    Nat.mul_div_cancel _ hpos, decodeItems_flatMap h]

variable {encode' : α → Except (Fault EncodingError) Bytes}

theorem encodeArray_eq_ok (hlen : items.length < 2 ^ 16)
    (h : ∀ a ∈ items, encode' a = .ok (encode a)) :
    encodeArray encode' items = .ok (toLe 2 items.length ++ items.flatMap encode) := by
  have hparts : items.mapM encode' = .ok (items.map encode) := mapM_eq_pure h
  rw [encodeArray, if_neg (Nat.not_lt.mpr (Nat.le_sub_one_of_lt hlen)), hparts]
  exact congrArg (fun bytes => Except.ok (toLe 2 items.length ++ bytes)) flatMap_def.symm

theorem of_encodeArray_eq_ok (hitem : ∀ a b, encode' a = .ok b → b = encode a)
    (h : encodeArray encode' items = .ok bytes) :
    items.length < 2 ^ 16 ∧ (∀ a ∈ items, encode' a = .ok (encode a)) ∧
      bytes = toLe 2 items.length ++ items.flatMap encode := by
  rw [encodeArray] at h
  split at h
  · cases h
  · rename_i hlen
    obtain ⟨parts, hparts, hlast⟩ := exists_of_bind_eq_ok h
    obtain ⟨rfl, hall⟩ := eq_map_of_mapM_eq_ok hitem hparts
    refine ⟨by omega, hall, ?_⟩
    rw [flatMap_def]
    exact (Except.ok.inj hlast).symm

theorem decodeArray_flatMap (hlen : items.length < 2 ^ 16)
    (h : ∀ a ∈ items, ∀ rest, decode (encode a ++ rest) = .ok (a, rest)) :
    decodeArray decode (toLe 2 items.length ++ items.flatMap encode) = .ok items := by
  obtain ⟨b0, b1, hbytes, hcount⟩ := exists_toLe_two hlen
  rw [hbytes]
  show decodeItems decode (ofLe [b0, b1]) (items.flatMap encode) = _
  rw [hcount, decodeItems_flatMap_of_mem h]

end

namespace BucketListValue

theorem decodeBucket_encodeBucket (bucket : UInt8 × UInt32) (rest : Bytes) :
    decodeBucket (encodeBucket bucket ++ rest) = .ok (bucket, rest) := by
  have hlen : (toLe 4 bucket.2.toNat).length = 4 := length_toLe _ _
  rw [encodeBucket]
  match hbytes : toLe 4 bucket.2.toNat, hlen with
  | [b0, b1, b2, b3], _ =>
    show Except.ok ((bucket.1, UInt32.ofNat (ofLe [b0, b1, b2, b3])), rest) = _
    rw [← hbytes, ofLe_toLe_uint32]

theorem decode_encode (buckets : List (UInt8 × UInt32)) : decode (encode buckets) = .ok buckets :=
  decodeFixedElementArray_flatMap 5 (by decide) (fun bucket => by simp [encodeBucket])
    decodeBucket_encodeBucket buckets

end BucketListValue

namespace SeriesDictionaryValue

theorem decode_encode (seriesId : SeriesId) : decode (encode seriesId) = .ok seriesId := by
  have hlen : (encode seriesId).length = 4 := length_toLe _ _
  match hbytes : encode seriesId, hlen with
  | [b0, b1, b2, b3], _ =>
    show Except.ok (UInt32.ofNat (ofLe [b0, b1, b2, b3])) = _
    rw [← hbytes, encode, ofLe_toLe_uint32]

end SeriesDictionaryValue

variable {spec : SeriesSpec}

namespace ForwardIndexValue

theorem ofMetricMeta_metricMeta (t : MetricType) :
    MetricType.ofMetricMeta t.metricMeta.1 t.metricMeta.2 = some t := by
  cases t with
  | sum monotonic temporality => cases monotonic <;> cases temporality <;> decide
  | histogram temporality | exponentialHistogram temporality => cases temporality <;> decide
  | gauge | summary => decide

/-- The lengths fit into two bytes. -/
structure Encodable (spec : SeriesSpec) : Prop where
  unit : ∀ unit ∈ spec.unit, FitsUtf8 unit
  count : spec.labels.length < 2 ^ 16
  labels : ∀ label ∈ spec.labels, FitsUtf8 label.name ∧ FitsUtf8 label.value

theorem encodable_iff : Encodable spec ↔ (∀ unit ∈ spec.unit, FitsUtf8 unit) ∧
    spec.labels.length < 2 ^ 16 ∧
      ∀ label ∈ spec.labels, FitsUtf8 label.name ∧ FitsUtf8 label.value :=
  ⟨fun h => ⟨h.unit, h.count, h.labels⟩, fun h => ⟨h.1, h.2.1, h.2.2⟩⟩

instance (spec : SeriesSpec) : Decidable (Encodable spec) := decidable_of_iff _ encodable_iff.symm

def labelBytes (label : Label) : Bytes :=
  toLe 2 (asBytes label.name).length ++ asBytes label.name
    ++ (toLe 2 (asBytes label.value).length ++ asBytes label.value)

variable {label : Label}

theorem encodeLabel_of_fits (hname : FitsUtf8 label.name)
    (hvalue : FitsUtf8 label.value) : encodeLabel label = .ok (labelBytes label) := by
  rw [encodeLabel, encodeUtf8_of_fits hname, encodeUtf8_of_fits hvalue]
  rfl

theorem fits_of_encodeLabel (h : encodeLabel label = .ok bytes) :
    (FitsUtf8 label.name ∧ FitsUtf8 label.value) ∧ bytes = labelBytes label := by
  obtain ⟨name, hname, hrest⟩ := exists_of_bind_eq_ok h
  obtain ⟨value, hvalue, hlast⟩ := exists_of_bind_eq_ok hrest
  obtain ⟨hfitsName, rfl⟩ := fits_of_encodeUtf8 hname
  obtain ⟨hfitsValue, rfl⟩ := fits_of_encodeUtf8 hvalue
  exact ⟨⟨hfitsName, hfitsValue⟩, (Except.ok.inj hlast).symm⟩

theorem decodeLabel_append (hname : FitsUtf8 label.name)
    (hvalue : FitsUtf8 label.value) (rest : Bytes) :
    decodeLabel (labelBytes label ++ rest) = .ok (label, rest) := by
  rw [decodeLabel, labelBytes, append_assoc, decodeUtf8_append hname]
  show (decodeUtf8 (toLe 2 (asBytes label.value).length ++ asBytes label.value ++ rest) >>= _) = _
  rw [decodeUtf8_append hvalue]
  rfl

theorem of_encode_eq_ok (h : encode spec = .ok bytes) :
    Encodable spec ∧ ∃ unit, encodeOptionalUtf8 spec.unit = .ok unit ∧
      bytes = unit ++ [((spec.metricType.map MetricType.metricMeta).getD (0, 0)).1,
          ((spec.metricType.map MetricType.metricMeta).getD (0, 0)).2] ++ toLe 2 spec.labels.length
        ++ (toLe 2 spec.labels.length ++ spec.labels.flatMap labelBytes) := by
  obtain ⟨unit, hunit, hrest⟩ := exists_of_bind_eq_ok h
  obtain ⟨labels, hlabels, hlast⟩ := exists_of_bind_eq_ok hrest
  obtain ⟨hcount, hall, rfl⟩ := of_encodeArray_eq_ok
    (fun label bytes hlabel => (fits_of_encodeLabel hlabel).2) hlabels
  refine ⟨⟨fun u hu => ?_, hcount, fun label hlabel => (fits_of_encodeLabel (hall label hlabel)).1⟩,
    unit, hunit, (Except.ok.inj hlast).symm⟩
  rw [mem_def.mp hu] at hunit
  exact (fits_of_encodeUtf8 hunit).1

theorem encode_of_encodable (h : Encodable spec) : ∃ bytes, encode spec = .ok bytes := by
  have hunit : ∃ unit, encodeOptionalUtf8 spec.unit = .ok unit := by
    cases hcase : spec.unit with
    | none => exact ⟨_, rfl⟩
    | some unit => exact ⟨_, encodeUtf8_of_fits (h.unit unit hcase)⟩
  obtain ⟨unit, hunit⟩ := hunit
  have hlabels : encodeArray encodeLabel spec.labels =
      .ok (toLe 2 spec.labels.length ++ spec.labels.flatMap labelBytes) :=
    encodeArray_eq_ok h.count fun label hlabel =>
      encodeLabel_of_fits (h.labels label hlabel).1 (h.labels label hlabel).2
  rw [encode, hunit, hlabels]
  exact ⟨_, rfl⟩

theorem decode_encode (h : encode spec = .ok bytes) :
    decode bytes = .ok { spec with unit := spec.unit.filter (· ≠ "") } := by
  obtain ⟨hencodable, unit, hunit, rfl⟩ := of_encode_eq_ok h
  obtain ⟨b0, b1, hbytes, hcount⟩ := exists_toLe_two hencodable.count
  have hlabels : decodeArray decodeLabel
      (toLe 2 spec.labels.length ++ spec.labels.flatMap labelBytes) = .ok spec.labels :=
    decodeArray_flatMap hencodable.count fun label hlabel =>
      decodeLabel_append (hencodable.labels label hlabel).1 (hencodable.labels label hlabel).2
  have hmeta : MetricType.ofMetricMeta ((spec.metricType.map MetricType.metricMeta).getD (0, 0)).1
      ((spec.metricType.map MetricType.metricMeta).getD (0, 0)).2 = spec.metricType := by
    cases spec.metricType with
    | none => decide
    | some t => exact ofMetricMeta_metricMeta t
  rw [decode, append_assoc, append_assoc, decodeOptionalUtf8_append hunit]
  rw [hbytes] at hlabels ⊢
  show decodeMetaAndLabels _
    (_ :: _ :: b0 :: b1 :: ([b0, b1] ++ spec.labels.flatMap labelBytes)) = _
  simp only [decodeMetaAndLabels, hlabels, hmeta, hcount]
  simp [bind, Except.bind]

end ForwardIndexValue

/-! ### Crates that keep the assumptions -/

def sampleBytes (s : Sample) : Bytes :=
  toLe 8 s.timestampMs.toUInt64.toNat ++ toLe 8 s.value.toNat

def sampleOfBytes (buf : Bytes) : Except EncodingError (Sample × Bytes) :=
  .ok ({ timestampMs := (UInt64.ofNat (ofLe (buf.take 8))).toInt64
         value := UInt64.ofNat (ofLe ((buf.drop 8).take 8)) }, buf.drop 16)

theorem sampleOfBytes_sampleBytes (s : Sample) (rest : Bytes) :
    sampleOfBytes (sampleBytes s ++ rest) = .ok (s, rest) := by
  have htake : (sampleBytes s ++ rest).take 8 = toLe 8 s.timestampMs.toUInt64.toNat := by
    simp [sampleBytes]
  have hdrop : (sampleBytes s ++ rest).drop 8 = toLe 8 s.value.toNat ++ rest := by
    simp [sampleBytes]
  have hrest : (sampleBytes s ++ rest).drop 16 = rest := drop_left' (by simp [sampleBytes])
  rw [sampleOfBytes, htake, hdrop, hrest, ofLe_toLe_uint64, take_left' (by simp), ofLe_toLe_uint64]
  simp

def seriesIdOfBytes (buf : Bytes) : Except EncodingError (SeriesId × Bytes) :=
  .ok (UInt32.ofNat (ofLe (buf.take 4)), buf.drop 4)

theorem seriesIdOfBytes_toLe (id : SeriesId) (rest : Bytes) :
    seriesIdOfBytes (toLe 4 id.toNat ++ rest) = .ok (id, rest) := by
  rw [seriesIdOfBytes, take_left' (by simp), ofLe_toLe_uint32, drop_left' (by simp)]

def Crates.fixedWidth (blake3 : Bytes → SeriesFingerprint) : Crates where
  tszEncode points := points.flatMap sampleBytes
  tszDecode buf :=
    match decodeFixedElementArray sampleOfBytes 16 buf with
    | .ok points => points.map .ok
    | .error e => [.error e]
  roaringSerialize postings :=
    .ok ((postings.sort (fun a b => a ≤ b)).flatMap fun id => toLe 4 id.toNat)
  roaringDeserialize buf := (decodeFixedElementArray seriesIdOfBytes 4 buf).map List.toFinset
  blake3

theorem Crates.fixedWidth_roundTrip (blake3 : Bytes → SeriesFingerprint) :
    (Crates.fixedWidth blake3).RoundTrip where
  tsz_ne_nil points hne hnil := by
    have hlen := congrArg List.length hnil
    rw [Crates.fixedWidth, length_flatMap_encode 16 fun s => by simp [sampleBytes]] at hlen
    exact hne (length_eq_zero_iff.mp (by simpa using hlen))
  tsz points _ := by
    have hdecode := decodeFixedElementArray_flatMap 16 (by decide)
      (fun s => by simp [sampleBytes]) sampleOfBytes_sampleBytes points
    simp only [Crates.fixedWidth, hdecode]
  roaring postings := by
    refine ⟨_, rfl, ?_⟩
    have hdecode := decodeFixedElementArray_flatMap 4 (by decide)
      (fun id => length_toLe 4 _) seriesIdOfBytes_toLe (postings.sort (fun a b => a ≤ b))
    simp only [Crates.fixedWidth, hdecode, Except.map, Finset.sort_toFinset]

end OpenData.Timeseries

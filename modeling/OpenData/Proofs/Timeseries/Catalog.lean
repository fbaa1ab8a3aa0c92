import OpenData.Proofs.Timeseries.Samples

/-!
# The series of a bucket, part by part

A new series gets an id, and from then on the id stands for its labels. This assignment, the
catalog, is in no place of the program as a whole: the dictionary has the fingerprints, and the
indexes of an id are in the delta that created it, at the flusher, or in the store.
-/

namespace OpenData.Timeseries

open Lib Common List Option BucketListValue AList TsdbWriteDelta

variable {crates : Crates} {bucket : TimeBucket} {storage storage' : Storage}

/-! ### What is stored -/

/-- The series in the forward index. -/
def storedSpec (storage : Storage) (bucket : TimeBucket) (id : SeriesId) : Option SeriesSpec :=
  storage[forwardIndexKey bucket id]?.bind fun v => (ForwardIndexValue.decode v).toOption

def storedPostings (crates : Crates) (storage : Storage) (bucket : TimeBucket) (label : Label) :
    Finset SeriesId :=
  (storage[invertedIndexKey bucket label]?.bind fun v =>
    (crates.roaringDeserialize v).toOption).getD ∅

/-- The records of the bucket agree: each series has its dictionary, postings and samples. -/
structure Consistent (crates : Crates) (storage : Storage) (bucket : TimeBucket) : Prop where
  decodes : ∀ id, forwardIndexKey bucket id ∈ storage → (storedSpec storage bucket id).isSome
  dictionary : ∀ id, (∃ fp, Stored storage bucket fp id) ↔ forwardIndexKey bucket id ∈ storage
  postings : ∀ label id, id ∈ storedPostings crates storage bucket label ↔
    ∃ spec, storedSpec storage bucket id = some spec ∧ label ∈ spec.labels
  samples : ∀ k ∈ storage, RecordType.timeSeries.bucketScopedPrefix bucket <+: k →
    ∃ id spec, (∃ fp, Stored storage bucket fp id) ∧ storedSpec storage bucket id = some spec ∧
      k = timeSeriesKey bucket (metricName spec.labels) id
  listed : (∃ k ∈ storage, ∃ t : RecordType, t.bucketScopedPrefix bucket <+: k) →
    bucketListContains bucket storage = .ok true

/-! ### The catalog -/

abbrev Catalog := SeriesId → Option (List Label)

def Catalog.Names (crates : Crates) (G : Catalog) (fp : SeriesFingerprint) (id : SeriesId) : Prop :=
  ∃ labels, G id = some labels ∧ fingerprint crates labels = fp

def Catalog.HasLabel (G : Catalog) (label : Label) (id : SeriesId) : Prop :=
  ∃ labels, G id = some labels ∧ label ∈ labels

/-- The frozen delta agrees with the catalog. -/
structure Holds (crates : Crates) (bucket : TimeBucket) (P : SeriesSpec → Prop) (G : Catalog)
    (f : FrozenTsdbDelta) : Prop where
  inBucket : f.bucket = bucket
  forward : ∀ id spec, f.forwardIndex.lookup id = some spec → P spec ∧ G id = some spec.labels
  dictionary : ∀ fp id, f.seriesDictDelta.lookup fp = some id ↔
    id ∈ f.forwardIndex ∧ G.Names crates fp id
  postings : ∀ label id, id ∈ (f.invertedIndex.lookup label).getD ∅ ↔
    id ∈ f.forwardIndex ∧ G.HasLabel label id
  samples : ∀ id samples, f.samples.lookup id = some samples →
    ∃ labels, G id = some labels ∧ samples.metricName = metricName labels

/-- The records of the bucket agree with the catalog. -/
structure StoredPart (crates : Crates) (bucket : TimeBucket) (P : SeriesSpec → Prop) (G : Catalog)
    (storage : Storage) : Prop where
  forward : ∀ id v, storage[forwardIndexKey bucket id]? = some v →
    ∃ spec, P spec ∧ ForwardIndexValue.encode spec = .ok v ∧ G id = some spec.labels
  dictionary : ∀ fp id, Stored storage bucket fp id ↔
    forwardIndexKey bucket id ∈ storage ∧ G.Names crates fp id
  roaring : ∀ label v, storage[invertedIndexKey bucket label]? = some v →
    ∃ postings, crates.roaringDeserialize v = .ok postings
  postings : ∀ label id, id ∈ storedPostings crates storage bucket label ↔
    forwardIndexKey bucket id ∈ storage ∧ G.HasLabel label id
  listed : (∃ k ∈ storage, ∃ t : RecordType, t.bucketScopedPrefix bucket <+: k) →
    bucketListContains bucket storage = .ok true

def SamplesStored (bucket : TimeBucket) (G : Catalog) (storage : Storage) : Prop :=
  ∀ k ∈ storage, RecordType.timeSeries.bucketScopedPrefix bucket <+: k →
    ∃ id labels, forwardIndexKey bucket id ∈ storage ∧ G id = some labels ∧
      k = timeSeriesKey bucket (metricName labels) id

variable {id : SeriesId}

section

variable {P : SeriesSpec → Prop} {G : Catalog}

theorem storedSpec_eq_some {spec v} (hv : storage[forwardIndexKey bucket id]? = some v)
    (hspec : ForwardIndexValue.encode spec = .ok v) :
    storedSpec storage bucket id = some { spec with unit := spec.unit.filter (· ≠ "") } := by
  rw [storedSpec, hv, bind_some, ForwardIndexValue.decode_encode hspec]
  rfl

theorem StoredPart.storedSpec_labels (h : StoredPart crates bucket P G storage)
    (hid : forwardIndexKey bucket id ∈ storage) :
    ∃ spec, storedSpec storage bucket id = some spec ∧ G id = some spec.labels := by
  obtain ⟨v, hv⟩ := Storage.mem_iff_exists.mp hid
  obtain ⟨spec, -, hencode, hlabels⟩ := h.forward id v hv
  exact ⟨_, storedSpec_eq_some hv hencode, hlabels⟩

theorem mem_of_storedSpec {spec} (h : storedSpec storage bucket id = some spec) :
    forwardIndexKey bucket id ∈ storage := by
  obtain ⟨v, hv, -⟩ := bind_eq_some_iff.mp h
  exact Storage.mem_of_getElem? hv

theorem StoredPart.mem_postings_iff (h : StoredPart crates bucket P G storage) (label : Label)
    (id : SeriesId) : id ∈ storedPostings crates storage bucket label ↔
      ∃ spec, storedSpec storage bucket id = some spec ∧ label ∈ spec.labels := by
  rw [h.postings]
  constructor
  · rintro ⟨hid, labels, hlabels, hmem⟩
    obtain ⟨spec, hspec, hlabels'⟩ := h.storedSpec_labels hid
    rw [hlabels, Option.some.injEq] at hlabels'
    exact ⟨spec, hspec, hlabels' ▸ hmem⟩
  · rintro ⟨spec, hspec, hmem⟩
    have hid := mem_of_storedSpec hspec
    obtain ⟨spec', hspec', hlabels⟩ := h.storedSpec_labels hid
    rw [hspec, Option.some.injEq] at hspec'
    exact ⟨hid, spec.labels, hspec' ▸ hlabels, hmem⟩

theorem StoredPart.consistent (h : StoredPart crates bucket P G storage)
    (hsamples : SamplesStored bucket G storage) : Consistent crates storage bucket where
  decodes id hid := by
    obtain ⟨spec, hspec, -⟩ := h.storedSpec_labels hid
    simp [hspec]
  dictionary id := by
    constructor
    · rintro ⟨fp, hfp⟩
      exact ((h.dictionary fp id).mp hfp).1
    · intro hid
      obtain ⟨spec, -, hlabels⟩ := h.storedSpec_labels hid
      exact ⟨_, (h.dictionary _ id).mpr ⟨hid, spec.labels, hlabels, rfl⟩⟩
  postings := h.mem_postings_iff
  samples k hk hhead := by
    obtain ⟨id, labels, hid, hlabels, rfl⟩ := hsamples k hk hhead
    obtain ⟨spec, hspec, hlabels'⟩ := h.storedSpec_labels hid
    rw [hlabels, Option.some.injEq] at hlabels'
    subst hlabels'
    exact ⟨id, spec, ⟨_, (h.dictionary _ id).mpr ⟨hid, spec.labels, hlabels, rfl⟩⟩, hspec, rfl⟩
  listed := h.listed

end

/-! ### A flush joins a delta to the store -/

section

variable {P : SeriesSpec → Prop} {G : Catalog} {frozen : FrozenTsdbDelta}

theorem Holds.not_mem_of_isEmpty (h : Holds crates bucket P G frozen)
    (hempty : frozen.isEmpty = true) (id : SeriesId) : id ∉ frozen.forwardIndex := by
  intro hid
  obtain ⟨spec, hspec⟩ := isSome_iff_exists.mp (lookup_isSome.mpr hid)
  have hnew := (h.dictionary (fingerprint crates spec.labels) id).mpr
    ⟨hid, spec.labels, (h.forward id spec hspec).2, rfl⟩
  rw [(lookup_of_isEmpty hempty).1] at hnew
  cases hnew

theorem exists_of_bucketListContains {bucket contains}
    (h : bucketListContains bucket storage = .ok contains) {value}
    (hvalue : storage[bucketListKey]? = some value) :
    ∃ buckets, decode value = .ok buckets ∧
      contains = decide ((bucket.size, bucket.start) ∈ buckets) := by
  rw [bucketListContains, hvalue] at h
  obtain ⟨buckets, hbuckets, h⟩ := exists_of_bind_eq_ok h
  exact ⟨buckets, hbuckets, (Except.ok.inj h).symm⟩

theorem bucketListContains_eq_true {bucket value buckets}
    (hvalue : storage[bucketListKey]? = some value)
    (hbuckets : decode value = .ok buckets)
    (hmem : (bucket.size, bucket.start) ∈ buckets) :
    bucketListContains bucket storage = .ok true := by
  rw [bucketListContains, hvalue]
  show (decode value >>= _) = _
  rw [hbuckets, ← decide_eq_true hmem]
  rfl

theorem bucketList_of_applyOps {ops} (hops : flushOps crates storage frozen = .ok ops)
    (happly : applyOps crates storage ops = some storage') :
    ∃ value buckets, storage'[bucketListKey]? = some value ∧ decode value = .ok buckets ∧
      (frozen.bucket.size, frozen.bucket.start) ∈ buckets ∧
      ∀ bucket, bucketListContains bucket storage = .ok true →
        (bucket.size, bucket.start) ∈ buckets := by
  obtain ⟨announced, hannounced, hvalue⟩ := flushOps_getElem? hops happly recordTypeOf_bucketListKey
  rw [flushPart] at hvalue
  have hold : ∀ value, storage[bucketListKey]? = some value →
      ∃ buckets, decode value = .ok buckets := by
    intro value hstored
    obtain ⟨buckets, hbuckets, -⟩ := exists_of_bucketListContains hannounced hstored
    exact ⟨buckets, hbuckets⟩
  cases announced with
  | true =>
    -- The list stays as it is.
    have hsame : storage'[bucketListKey]? = storage[bucketListKey]? := by simpa using hvalue.symm
    cases hstored : storage[bucketListKey]? with
    | none => simp [bucketListContains, hstored] at hannounced
    | some value =>
      obtain ⟨buckets, hbuckets, hmem⟩ := exists_of_bucketListContains hannounced hstored
      refine ⟨value, buckets, hsame.trans hstored, hbuckets, of_decide_eq_true hmem.symm, ?_⟩
      intro bucket hbucket
      obtain ⟨buckets', hbuckets', hmem'⟩ := exists_of_bucketListContains hbucket hstored
      obtain rfl := Except.ok.inj (hbuckets.symm.trans hbuckets')
      exact of_decide_eq_true hmem'.symm
  | false =>
    have hmerge : (mergeBatch crates bucketListKey storage[bucketListKey]?
        [encode [(frozen.bucket.size, frozen.bucket.start)]]).map some =
        some storage'[bucketListKey]? := by
      simpa [mergeBucketList, RecordOp.key, opValue] using hvalue
    have hsources : ∀ v ∈ storage[bucketListKey]?.toList ++
        [encode [(frozen.bucket.size, frozen.bucket.start)]],
        ∃ buckets, decode v = .ok buckets := by
      intro v hv
      rcases mem_append.mp hv with hv | hv
      · exact hold v (mem_toList.mp hv)
      · rw [mem_singleton.mp hv]
        exact ⟨_, decode_encode _⟩
    obtain ⟨value, hvalue', hdecode⟩ := mergeBatchBucketList_spec hsources
    rw [mergeBatch, recordTypeOf_bucketListKey] at hmerge
    have hstored' : storage'[bucketListKey]? = some value := by
      simpa [hvalue', Except.toOption] using hmerge.symm
    refine ⟨value, _, hstored', hdecode, ?_, ?_⟩
    · rw [mem_sortBy, mem_pushAll, map_singleton, decoded_of_eq_ok (decode_encode _)]
      simp
    · intro bucket hbucket
      rw [mem_sortBy, mem_pushAll]
      left
      cases hstored : storage[bucketListKey]? with
      | none => simp [bucketListContains, hstored] at hbucket
      | some =>
        obtain ⟨buckets, hbuckets, hmem⟩ := exists_of_bucketListContains hbucket hstored
        rw [map_some, getD_some, decoded_of_eq_ok hbuckets]
        exact of_decide_eq_true hmem.symm

theorem bucketListContains_of_applyOps {ops} (hops : flushOps crates storage frozen = .ok ops)
    (happly : applyOps crates storage ops = some storage') :
    bucketListContains frozen.bucket storage' = .ok true := by
  obtain ⟨value, buckets, hvalue, hbuckets, hmem, -⟩ := bucketList_of_applyOps hops happly
  exact bucketListContains_eq_true hvalue hbuckets hmem

theorem flushDelta_listed (h : flushDelta crates storage frozen = .ok storage')
    (hlisted : bucketListContains bucket storage = .ok true) :
    bucketListContains bucket storage' = .ok true := by
  rcases flushDelta_cases h with ⟨-, rfl⟩ | ⟨ops, hops, happly⟩
  · exact hlisted
  · obtain ⟨value, buckets, hvalue, hbuckets, -, hkept⟩ := bucketList_of_applyOps hops happly
    exact bucketListContains_eq_true hvalue hbuckets (hkept bucket hlisted)

section

variable (hfrozen : Holds crates bucket P G frozen)
  (hflush : flushDelta crates storage frozen = .ok storage')

include hfrozen hflush

theorem Holds.forward_flush (id : SeriesId) : storage'[forwardIndexKey bucket id]? =
      ((frozen.forwardIndex.lookup id).map fun spec =>
        (ForwardIndexValue.encode spec).toOption.getD []).or
          storage[forwardIndexKey bucket id]? := by
  rcases flushDelta_cases hflush with ⟨hempty, rfl⟩ | ⟨ops, hops, happly⟩
  · rw [lookup_eq_none.mpr (hfrozen.not_mem_of_isEmpty hempty id), map_none, none_or]
  · have hvalue := flushOps_forward hops happly id
    rwa [hfrozen.inBucket] at hvalue

theorem Holds.encodes_flush {spec} (hspec : frozen.forwardIndex.lookup id = some spec) :
    ∃ v, ForwardIndexValue.encode spec = .ok v ∧ storage'[forwardIndexKey bucket id]? = some v := by
  have hvalue := hfrozen.forward_flush hflush id
  rcases flushDelta_cases hflush with ⟨hempty, rfl⟩ | ⟨ops, hops, happly⟩
  · refine absurd (lookup_isSome.mp ?_) (hfrozen.not_mem_of_isEmpty hempty id)
    rw [hspec]
    rfl
  · obtain ⟨-, -, -, hencodes⟩ := flushOps_eq hops
    obtain ⟨v, hv⟩ := hencodes ⟨id, spec⟩ (mem_lookup_iff.mp hspec)
    refine ⟨v, hv, ?_⟩
    have hv' : ForwardIndexValue.encode spec = .ok v := hv
    simpa [hspec, hv', Except.toOption] using hvalue

theorem Holds.mem_flush : forwardIndexKey bucket id ∈ storage' ↔
      forwardIndexKey bucket id ∈ storage ∨ id ∈ frozen.forwardIndex := by
  have hvalue := hfrozen.forward_flush hflush id
  rw [Storage.mem_iff_exists, Storage.mem_iff_exists, hvalue]
  cases hlookup : frozen.forwardIndex.lookup id with
  | none => simp [lookup_eq_none.mp hlookup]
  | some =>
    have hmem : id ∈ frozen.forwardIndex := lookup_isSome.mp (by rw [hlookup]; rfl)
    simp [hmem]

theorem Holds.postings_flush (hcrates : crates.RoundTrip)
    (hroaring : ∀ label v, storage[invertedIndexKey bucket label]? = some v →
      ∃ postings, crates.roaringDeserialize v = .ok postings) (label : Label) :
    (∀ v, storage'[invertedIndexKey bucket label]? = some v →
      ∃ postings, crates.roaringDeserialize v = .ok postings) ∧
    storedPostings crates storage' bucket label =
      storedPostings crates storage bucket label ∪ (frozen.invertedIndex.lookup label).getD ∅ := by
  rcases flushDelta_cases hflush with ⟨hempty, rfl⟩ | ⟨ops, hops, happly⟩
  · refine ⟨hroaring label, ?_⟩
    have hnone : (frozen.invertedIndex.lookup label).getD ∅ = ∅ := by
      refine Finset.eq_empty_of_forall_notMem fun id hid => ?_
      exact hfrozen.not_mem_of_isEmpty hempty id ((hfrozen.postings label id).mp hid).1
    rw [hnone, Finset.union_empty]
  · cases hlookup : frozen.invertedIndex.lookup label with
    | none =>
      have hsame := flushOps_inverted_of_none hops happly hlookup
      rw [hfrozen.inBucket] at hsame
      rw [storedPostings, hsame, getD_none, Finset.union_empty]
      exact ⟨hroaring label, rfl⟩
    | some postings =>
      have hmerge := flushOps_inverted hops happly hlookup
      rw [hfrozen.inBucket, mergeBatch, recordTypeOf_invertedIndexKey] at hmerge
      obtain ⟨bytes, hbytes, hoperand⟩ := hcrates.roaring postings
      rw [hbytes] at hmerge
      have hsources : ∀ v ∈ storage[invertedIndexKey bucket label]?.toList ++ [bytes],
          ∃ p, crates.roaringDeserialize v = .ok p := by
        intro v hv
        rcases mem_append.mp hv with hv | hv
        · exact hroaring label v (mem_toList.mp hv)
        · exact ⟨postings, mem_singleton.mp hv ▸ hoperand⟩
      obtain ⟨value, hvalue, hdecode⟩ := mergeBatchInvertedIndex_spec hcrates hsources
      have hstored : storage'[invertedIndexKey bucket label]? = some value := by
        simpa [hvalue, Except.toOption] using hmerge.symm
      constructor
      · intro v hv
        rw [hstored, Option.some.injEq] at hv
        exact ⟨_, hv ▸ hdecode⟩
      · rw [storedPostings, hstored, bind_some, hdecode, storedPostings]
        cases hold : storage[invertedIndexKey bucket label]? with
        | none => simp [Except.toOption, decoded_of_eq_ok hoperand]
        | some v =>
          obtain ⟨p, hp⟩ := hroaring label v hold
          simp [Except.toOption, decoded_of_eq_ok hoperand, decoded_of_eq_ok hp, hp]

theorem StoredPart.flush (hcrates : crates.RoundTrip) (h : StoredPart crates bucket P G storage)
    (hunique : ∀ fp id id', G.Names crates fp id → G.Names crates fp id' → id = id') :
    StoredPart crates bucket P G storage' where
  forward id v hv := by
    cases hlookup : frozen.forwardIndex.lookup id with
    | some spec =>
      obtain ⟨v', hencode, hv'⟩ := hfrozen.encodes_flush hflush hlookup
      obtain ⟨hP, hlabels⟩ := hfrozen.forward id spec hlookup
      exact ⟨spec, hP, by rw [hencode, Option.mem_unique hv' hv], hlabels⟩
    | none =>
      have hvalue := hfrozen.forward_flush hflush id
      rw [hlookup, map_none, none_or] at hvalue
      exact h.forward id v (hvalue ▸ hv)
  dictionary fp id := by
    have hvalue := flushDelta_dictionary hflush fp
    rw [hfrozen.inBucket] at hvalue
    rw [hfrozen.mem_flush hflush, Stored, hvalue]
    cases hlookup : frozen.seriesDictDelta.lookup fp with
    | some id' =>
      obtain ⟨hmem, hnames⟩ := (hfrozen.dictionary fp id').mp hlookup
      rw [map_some, some_or, Option.some.injEq]
      constructor
      · intro heq
        obtain rfl := encode_seriesId_inj heq
        exact ⟨.inr hmem, hnames⟩
      · rintro ⟨-, hnames'⟩
        rw [hunique fp id id' hnames' hnames]
    | none =>
      rw [map_none, none_or]
      refine (h.dictionary fp id).trans ⟨fun hid => ⟨.inl hid.1, hid.2⟩, ?_⟩
      rintro ⟨hmem | hmem, hnames⟩
      · exact ⟨hmem, hnames⟩
      · rw [(hfrozen.dictionary fp id).mpr ⟨hmem, hnames⟩] at hlookup
        cases hlookup
  roaring label := (hfrozen.postings_flush hflush hcrates h.roaring label).1
  postings label id := by
    rw [(hfrozen.postings_flush hflush hcrates h.roaring label).2, Finset.mem_union, h.postings,
      hfrozen.postings, hfrozen.mem_flush hflush, or_and_right]
  listed hrecord := by
    rcases flushDelta_cases hflush with ⟨-, rfl⟩ | ⟨ops, hops, happly⟩
    · exact h.listed hrecord
    · exact hfrozen.inBucket ▸ bucketListContains_of_applyOps hops happly

theorem SamplesStored.flush (h : SamplesStored bucket G storage) (hcovered : ∀ id ∈ frozen.samples,
      forwardIndexKey bucket id ∈ storage ∨ id ∈ frozen.forwardIndex) :
    SamplesStored bucket G storage' := by
  intro k hk hhead
  by_cases hnew : ∃ id samples, frozen.samples.lookup id = some samples ∧
      timeSeriesKey frozen.bucket samples.metricName id = k
  · obtain ⟨id, samples, hlookup, rfl⟩ := hnew
    obtain ⟨labels, hlabels, hname⟩ := hfrozen.samples id samples hlookup
    have hmem : id ∈ frozen.samples := lookup_isSome.mp (by rw [hlookup]; rfl)
    refine ⟨id, labels, (hfrozen.mem_flush hflush).mpr (hcovered id hmem), hlabels, ?_⟩
    rw [hfrozen.inBucket, hname]
  · have hsame := flushDelta_samples_of_ne hflush (recordTypeOf_of_isPrefix hhead)
      fun id samples hlookup hkey => hnew ⟨id, samples, hlookup, hkey⟩
    have hk' : k ∈ storage := by
      rw [Storage.mem_iff_exists] at hk ⊢
      rwa [← hsame]
    obtain ⟨id, labels, hid, hlabels, rfl⟩ := h k hk' hhead
    exact ⟨id, labels, (hfrozen.mem_flush hflush).mpr (.inl hid), hlabels, rfl⟩

end

end

/-! ### A sample extends the catalog -/

def Catalog.Le (G G' : Catalog) : Prop := ∀ id labels, G id = some labels → G' id = some labels

variable {labels : List Label}

theorem Catalog.Le.names_iff {G G' : Catalog} (h : G.Le G') (hid : G id = some labels)
    (fp : SeriesFingerprint) : G'.Names crates fp id ↔ G.Names crates fp id := by
  simp [Catalog.Names, hid, h id labels hid]

theorem Catalog.Le.hasLabel_iff {G G' : Catalog} (h : G.Le G') (hid : G id = some labels)
    (label : Label) : G'.HasLabel label id ↔ G.HasLabel label id := by
  simp [Catalog.HasLabel, hid, h id labels hid]

variable {delta : TsdbWriteDelta}

variable {P : SeriesSpec → Prop} {L : Finset (List Label)} {G G' : Catalog}
  {frozen : FrozenTsdbDelta}

theorem Holds.exists_labels (h : Holds crates bucket P G frozen)
    (hid : id ∈ frozen.forwardIndex) : ∃ labels, G id = some labels := by
  obtain ⟨spec, hspec⟩ := isSome_iff_exists.mp (lookup_isSome.mpr hid)
  exact ⟨spec.labels, (h.forward id spec hspec).2⟩

theorem Holds.mono (h : Holds crates bucket P G frozen)
    (hle : G.Le G') : Holds crates bucket P G' frozen where
  inBucket := h.inBucket
  forward id spec hspec := ⟨(h.forward id spec hspec).1, hle id _ (h.forward id spec hspec).2⟩
  dictionary fp id := by
    rw [h.dictionary]
    refine and_congr_right fun hid => ?_
    obtain ⟨labels, hlabels⟩ := h.exists_labels hid
    exact (hle.names_iff hlabels fp).symm
  postings label id := by
    rw [h.postings]
    refine and_congr_right fun hid => ?_
    obtain ⟨labels, hlabels⟩ := h.exists_labels hid
    exact (hle.hasLabel_iff hlabels label).symm
  samples id samples hsamples := by
    obtain ⟨labels, hlabels, hname⟩ := h.samples id samples hsamples
    exact ⟨labels, hle id labels hlabels, hname⟩

theorem StoredPart.mono (h : StoredPart crates bucket P G storage) (hle : G.Le G') :
    StoredPart crates bucket P G' storage where
  forward id v hv := by
    obtain ⟨spec, hP, hencode, hlabels⟩ := h.forward id v hv
    exact ⟨spec, hP, hencode, hle id _ hlabels⟩
  dictionary fp id := by
    rw [h.dictionary]
    refine and_congr_right fun hid => ?_
    obtain ⟨spec, -, hlabels⟩ := h.storedSpec_labels hid
    exact (hle.names_iff hlabels fp).symm
  __ := h
  postings label id := by
    rw [h.postings]
    refine and_congr_right fun hid => ?_
    obtain ⟨spec, -, hlabels⟩ := h.storedSpec_labels hid
    exact (hle.hasLabel_iff hlabels label).symm

theorem SamplesStored.mono (h : SamplesStored bucket G storage) (hle : G.Le G') :
    SamplesStored bucket G' storage := by
  intro k hk hhead
  obtain ⟨id, labels, hid, hlabels, hkey⟩ := h k hk hhead
  exact ⟨id, labels, hid, hle id labels hlabels, hkey⟩

/-- The catalog of a delta: its dictionary, over label lists of `L`, with the ids below the
counter. -/
structure Described (crates : Crates) (bucket : TimeBucket) (P : SeriesSpec → Prop)
    (L : Finset (List Label)) (G : Catalog) (delta : TsdbWriteDelta) : Prop where
  lookup : ∀ fp id, delta.lookup fp = some id ↔ G.Names crates fp id
  below : ∀ id, (G id).isSome ↔ id.toNat < delta.nextSeriesId.toNat
  labels : ∀ id labels, G id = some labels → labels ∈ L
  holds : Holds crates bucket P G delta.freeze.1

/-- The catalog has grown by series of the delta. -/
structure Extended (G G' : Catalog) (delta delta' : TsdbWriteDelta) : Prop where
  le : G.Le G'
  forward : ∀ id ∈ delta.forwardIndex, id ∈ delta'.forwardIndex
  fresh : ∀ id labels, G' id = some labels → G id = some labels ∨ id ∈ delta'.forwardIndex

theorem Extended.refl (G : Catalog) (delta : TsdbWriteDelta) : Extended G G delta delta :=
  ⟨fun _ _ h => h, fun _ h => h, fun _ _ h => .inl h⟩

theorem Extended.trans {G'' delta' delta''}
    (h : Extended G G' delta delta') (h' : Extended G' G'' delta' delta'') :
    Extended G G'' delta delta'' where
  le id labels hid := h'.le id labels (h.le id labels hid)
  forward id hid := h'.forward id (h.forward id hid)
  fresh id labels hid := by
    rcases h'.fresh id labels hid with hid | hid
    · exact (h.fresh id labels hid).imp_right (h'.forward id)
    · exact .inr hid

variable {id' : SeriesId}

namespace Described

variable {delta delta' : TsdbWriteDelta} (h : Described crates bucket P L G delta)

include h

theorem names_unique {fp} (hid : G.Names crates fp id) (hid' : G.Names crates fp id') : id = id' :=
  Option.some.inj (((h.lookup fp id).mpr hid).symm.trans ((h.lookup fp id').mpr hid'))

theorem eq_none_of_next : G delta.nextSeriesId = none := by
  rw [← not_isSome_iff_eq_none, h.below]
  exact Nat.lt_irrefl _

/-- Before a new series comes in, the counter is below the number of label lists: the ids below it
have different label lists. -/
theorem next_lt (hlabels : labels ∈ L) (hnone : delta.lookup (fingerprint crates labels) = none) :
    delta.nextSeriesId.toNat < L.card := by
  have hsome : ∀ n < delta.nextSeriesId.toNat, ∃ l, G (UInt32.ofNat n) = some l := by
    intro n hn
    refine isSome_iff_exists.mp ((h.below _).mpr ?_)
    rwa [UInt32.toNat_ofNat_of_lt' (hn.trans delta.nextSeriesId.toNat_lt)]
  have hmaps : ∀ n ∈ Finset.range delta.nextSeriesId.toNat,
      (G (UInt32.ofNat n)).getD [] ∈ L.erase labels := by
    intro n hn
    obtain ⟨l, hl⟩ := hsome n (Finset.mem_range.mp hn)
    rw [hl, getD_some, Finset.mem_erase]
    refine ⟨?_, h.labels _ l hl⟩
    rintro rfl
    rw [(h.lookup _ _).mpr ⟨l, hl, rfl⟩] at hnone
    cases hnone
  have hinj : Set.InjOn (fun n => (G (UInt32.ofNat n)).getD [])
      (Finset.range delta.nextSeriesId.toNat) := by
    intro n hn m hm heq
    rw [Finset.coe_range, Set.mem_Iio] at hn hm
    obtain ⟨l, hl⟩ := hsome n hn
    obtain ⟨l', hl'⟩ := hsome m hm
    simp only [hl, hl', getD_some] at heq
    have hid := h.names_unique ⟨l, hl, rfl⟩ ⟨l', hl', by rw [heq]⟩
    have hnat := congrArg UInt32.toNat hid
    rwa [UInt32.toNat_ofNat_of_lt' (hn.trans delta.nextSeriesId.toNat_lt),
      UInt32.toNat_ofNat_of_lt' (hm.trans delta.nextSeriesId.toNat_lt)] at hnat
  have hcard := Finset.card_le_card_of_injOn _ hmaps hinj
  rw [Finset.card_range, Finset.card_erase_of_mem hlabels] at hcard
  have hpos : 0 < L.card := Finset.card_pos.mpr ⟨labels, hlabels⟩
  omega

theorem push (hid : G id = some labels) (sample : Sample) :
    Described crates bucket P L G (delta.push id (metricName labels) sample) where
  __ := h
  holds := by
    refine ⟨h.holds.inBucket, h.holds.forward, h.holds.dictionary, h.holds.postings, ?_⟩
    intro id' samples hsamples
    have hpush : (delta.samples.insert id { (delta.samples.lookup id).getD
        { metricName := metricName labels, points := [] } with
          points := ((delta.samples.lookup id).getD
            { metricName := metricName labels, points := [] }).points ++ [sample] }).lookup id' =
        some samples := hsamples
    by_cases hne : id' = id
    · subst hne
      rw [lookup_insert, Option.some.injEq] at hpush
      subst hpush
      refine ⟨labels, hid, ?_⟩
      cases hold : delta.samples.lookup id' with
      | none => rfl
      | some old =>
        obtain ⟨labels', hlabels', hname⟩ := h.holds.samples id' old hold
        rw [hid, Option.some.injEq] at hlabels'
        rw [hlabels']
        exact hname
    · rw [lookup_insert_ne hne] at hpush
      exact h.holds.samples id' samples hpush

end Described

theorem mem_foldl_insert (id : SeriesId) (labels : List Label) (index : InvertedIndex)
    (label : Label) (id' : SeriesId) : id' ∈ ((labels.foldl
        (fun index label => index.insert label (insert id ((index.lookup label).getD ∅)))
        index).lookup label).getD ∅ ↔
      id' ∈ (index.lookup label).getD ∅ ∨ id' = id ∧ label ∈ labels := by
  induction labels generalizing index with
  | nil => simp
  | cons first labels ih =>
    rw [foldl_cons, ih, mem_cons]
    by_cases hfirst : label = first
    · subst hfirst
      rw [lookup_insert, getD_some, Finset.mem_insert]
      tauto
    · rw [lookup_insert_ne hfirst]
      simp [hfirst]

def Catalog.add (G : Catalog) (id : SeriesId) (labels : List Label) : Catalog :=
  Function.update G id (some labels)

section

variable {id : SeriesId} (hnone : G id = none) (labels : List Label)

@[simp] theorem Catalog.add_self (id : SeriesId) : G.add id labels id = some labels :=
  Function.update_self _ _ _

theorem Catalog.add_of_ne (hne : id' ≠ id) : G.add id labels id' = G id' :=
  Function.update_of_ne hne _ _

theorem Catalog.names_add (fp : SeriesFingerprint) (id' : SeriesId) :
    (G.add id labels).Names crates fp id' ↔
      id' = id ∧ fingerprint crates labels = fp ∨ id' ≠ id ∧ G.Names crates fp id' := by
  by_cases hid : id' = id
  · subst hid
    simp [Catalog.Names]
  · simp [Catalog.Names, Catalog.add_of_ne labels hid, hid]

theorem Catalog.hasLabel_add (label : Label) (id' : SeriesId) :
    (G.add id labels).HasLabel label id' ↔
      id' = id ∧ label ∈ labels ∨ id' ≠ id ∧ G.HasLabel label id' := by
  by_cases hid : id' = id
  · subst hid
    simp [Catalog.HasLabel]
  · simp [Catalog.HasLabel, Catalog.add_of_ne labels hid, hid]

include hnone

theorem Catalog.ne_of_eq_some {labels'} (h : G id' = some labels') : id' ≠ id := by
  rintro rfl
  rw [hnone] at h
  cases h

theorem Catalog.le_add : G.Le (G.add id labels) := by
  intro id' labels' h
  rw [Catalog.add_of_ne labels (Catalog.ne_of_eq_some hnone h), h]

end

theorem Holds.addSeries (h : Holds crates bucket P G delta.freeze.1)
    (hnext : G delta.nextSeriesId = none) {spec} (hP : P spec)
    (hnew : ∀ id, ¬ G.Names crates (fingerprint crates spec.labels) id) :
    Holds crates bucket P (G.add delta.nextSeriesId spec.labels)
      (delta.addSeries (fingerprint crates spec.labels) spec).freeze.1 := by
  have hle := Catalog.le_add hnext spec.labels
  have hforward : ∀ id, id ∈ delta.forwardIndex.insert delta.nextSeriesId spec ↔
      id = delta.nextSeriesId ∨ id ∈ delta.forwardIndex := fun id => mem_insert _
  have hne : ∀ id, id ∈ delta.forwardIndex → id ≠ delta.nextSeriesId := by
    intro id hid
    obtain ⟨labels, hlabels⟩ := h.exists_labels hid
    exact Catalog.ne_of_eq_some hnext hlabels
  refine ⟨h.inBucket, ?_, ?_, ?_, ?_⟩
  · intro id spec' hspec
    have hlookup : (delta.forwardIndex.insert delta.nextSeriesId spec).lookup id = some spec' :=
      hspec
    by_cases heq : id = delta.nextSeriesId
    · subst heq
      rw [lookup_insert, Option.some.injEq] at hlookup
      subst hlookup
      exact ⟨hP, Catalog.add_self _ _⟩
    · rw [lookup_insert_ne heq] at hlookup
      obtain ⟨hP', hid⟩ := h.forward id spec' hlookup
      exact ⟨hP', hle id _ hid⟩
  · intro fp id
    show (delta.seriesDictDelta.insert (fingerprint crates spec.labels)
      delta.nextSeriesId).lookup fp =
      some id ↔ id ∈ delta.forwardIndex.insert delta.nextSeriesId spec ∧ _
    have hdict : delta.seriesDictDelta.lookup fp = some id ↔
        id ∈ delta.forwardIndex ∧ G.Names crates fp id := h.dictionary fp id
    rw [hforward, Catalog.names_add]
    by_cases hfp : fp = fingerprint crates spec.labels
    · subst hfp
      rw [lookup_insert, Option.some.injEq]
      have hold := hnew id
      grind
    · rw [lookup_insert_ne hfp, hdict]
      have hold := hne id
      grind
  · intro label id
    refine (mem_foldl_insert delta.nextSeriesId spec.labels delta.invertedIndex label id).trans ?_
    show _ ↔ id ∈ delta.forwardIndex.insert delta.nextSeriesId spec ∧ _
    have hpostings : id ∈ (delta.invertedIndex.lookup label).getD ∅ ↔
        id ∈ delta.forwardIndex ∧ G.HasLabel label id := h.postings label id
    have hold := hne id
    rw [hforward, Catalog.hasLabel_add, hpostings]
    tauto
  · intro id samples hsamples
    obtain ⟨labels, hid, hname⟩ := h.samples id samples hsamples
    exact ⟨labels, hle id labels hid, hname⟩

theorem Described.addSeries (h : Described crates bucket P L G delta) (hL : L.card < 2 ^ 32)
    {spec} (hP : P spec) (hlabels : spec.labels ∈ L)
    (hnone : delta.lookup (fingerprint crates spec.labels) = none) :
    Described crates bucket P L (G.add delta.nextSeriesId spec.labels)
        (delta.addSeries (fingerprint crates spec.labels) spec) ∧
      Extended G (G.add delta.nextSeriesId spec.labels) delta
        (delta.addSeries (fingerprint crates spec.labels) spec) := by
  have hnext := h.eq_none_of_next
  have hnew : ∀ id, ¬ G.Names crates (fingerprint crates spec.labels) id := by
    intro id hid
    rw [(h.lookup _ _).mpr hid] at hnone
    cases hnone
  refine ⟨⟨?_, ?_, ?_, h.holds.addSeries hnext hP hnew⟩, Catalog.le_add hnext _, ?_, ?_⟩
  · intro fp id
    have hold : G.Names crates fp id → id ≠ delta.nextSeriesId := by
      rintro ⟨labels, hid, -⟩
      exact Catalog.ne_of_eq_some hnext hid
    have hnewId := hnew id
    rw [lookup_addSeries, Catalog.names_add]
    split
    · rename_i hfp
      subst hfp
      rw [Option.some.injEq]
      grind
    · rename_i hfp
      rw [h.lookup]
      grind
  · intro id
    -- There are fewer ids in use than label lists, so the counter does not wrap.
    have hwrap : (delta.nextSeriesId + 1).toNat = delta.nextSeriesId.toNat + 1 := by
      have hlt := h.next_lt hlabels hnone
      rw [UInt32.toNat_add]
      exact Nat.mod_eq_of_lt (by show delta.nextSeriesId.toNat + 1 < 2 ^ 32; omega)
    show _ ↔ id.toNat < (delta.nextSeriesId + 1).toNat
    rw [hwrap]
    by_cases hid : id = delta.nextSeriesId
    · subst hid
      simp
    · have hnat : id.toNat ≠ delta.nextSeriesId.toNat := fun heq => hid (UInt32.toNat_inj.mp heq)
      rw [Catalog.add_of_ne _ hid, h.below]
      omega
  · intro id labels hid
    by_cases heq : id = delta.nextSeriesId
    · subst heq
      rw [Catalog.add_self, Option.some.injEq] at hid
      exact hid ▸ hlabels
    · rw [Catalog.add_of_ne _ heq] at hid
      exact h.labels id labels hid
  · exact fun id hid => (mem_insert _).mpr (.inr hid)
  · intro id labels hid
    by_cases heq : id = delta.nextSeriesId
    · exact .inr ((mem_insert _).mpr (.inl heq))
    · rw [Catalog.add_of_ne _ heq] at hid
      exact .inl hid

def Follows (crates : Crates) (bucket : TimeBucket) (P : SeriesSpec → Prop)
    (L : Finset (List Label)) (G : Catalog) (delta delta' : TsdbWriteDelta) : Prop :=
  ∃ G', Described crates bucket P L G' delta' ∧ Extended G G' delta delta'

section

variable (hL : L.card < 2 ^ 32) (hinj : Set.InjOn (fingerprint crates) L)

include hL hinj

theorem Described.ingestSample {delta'} (h : Described crates bucket P L G delta)
    {spec} (hP : P spec) (hlabels : spec.labels ∈ L) {sample}
    (hingest : delta.ingestSample crates spec.labels spec.unit spec.metricType sample =
      .ok delta') :
    Follows crates bucket P L G delta delta' := by
  rcases ingestSample_cases hingest with ⟨id, hid, rfl⟩ | ⟨hnone, rfl⟩
  · obtain ⟨labels, hid, hfp⟩ := (h.lookup _ id).mp hid
    obtain rfl := hinj (h.labels id labels hid) hlabels hfp
    exact ⟨G, h.push hid sample, fun _ _ hid => hid, fun _ hid => hid, fun _ _ hid => .inl hid⟩
  · obtain ⟨hadded, hextended⟩ := h.addSeries hL hP hlabels hnone
    exact ⟨_, hadded.push (Catalog.add_self _ _) sample, hextended.le, hextended.forward,
      hextended.fresh⟩

theorem Described.ingestSamples (h : Described crates bucket P L G delta) {spec}
    (hP : P spec) (hlabels : spec.labels ∈ L) (samples : List Sample) :
    Follows crates bucket P L G delta
      (ingestSamples crates spec.labels spec.unit spec.metricType delta samples).2 := by
  induction samples generalizing delta G with
  | nil => exact ⟨G, h, Extended.refl G delta⟩
  | cons sample samples ih =>
    rw [ingestSamples]
    split
    · exact ⟨G, h, Extended.refl G delta⟩
    · rename_i mid hmid
      obtain ⟨G', hmid', hfirst⟩ := h.ingestSample hL hinj hP hlabels hmid
      obtain ⟨G'', hlast, hrest⟩ := ih hmid'
      exact ⟨G'', hlast, hfirst.trans hrest⟩

/-- The series as it enters the forward index. -/
def Series.spec (series : Series) : SeriesSpec :=
  { unit := series.unit, metricType := series.metricType, labels := sortLabels series.labels }

theorem Described.apply (h : Described crates bucket P L G delta) {write}
    (hwrite : ∀ series ∈ write, P series.spec ∧ series.spec.labels ∈ L) :
    Follows crates bucket P L G delta (delta.apply crates write).2 := by
  induction write generalizing delta G with
  | nil => exact ⟨G, h, Extended.refl G delta⟩
  | cons series write ih =>
    obtain ⟨hP, hlabels⟩ := hwrite series mem_cons_self
    obtain ⟨G', hmid, hfirst⟩ := h.ingestSamples hL hinj hP hlabels series.samples
    rw [apply]
    have hingest : delta.ingest crates series = TsdbWriteDelta.ingestSamples crates
        series.spec.labels series.spec.unit series.spec.metricType delta series.samples := rfl
    rw [← hingest] at hmid hfirst
    split
    · rename_i heq
      rw [heq] at hmid hfirst
      exact ⟨G', hmid, hfirst⟩
    · rename_i mid heq
      rw [heq] at hmid hfirst
      obtain ⟨G'', hlast, hrest⟩ := ih hmid fun other hother =>
        hwrite other (mem_cons_of_mem _ hother)
      exact ⟨G'', hlast, hfirst.trans hrest⟩

end

end OpenData.Timeseries

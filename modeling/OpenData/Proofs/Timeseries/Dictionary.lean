import OpenData.Proofs.Timeseries.Flush

/-!
# The series dictionary in memory and in the store

Ingesting a series changes the dictionary of a delta in one way: a series that is not in it yet
takes the next id (`dictStep_ingest`). Freezing a delta keeps the dictionary
(`lookup_init_freeze`), and loading a bucket gives the dictionary that is stored (`load_spec`).
-/

namespace OpenData.Timeseries

open Lib Common List Option SeriesDictionaryValue

variable {crates : Crates} {bucket : TimeBucket}

/-! ### The dictionary of a delta -/

namespace TsdbWriteDelta

variable {delta delta' : TsdbWriteDelta} {fp : SeriesFingerprint}

section

variable (id : SeriesId) (name : String) (sample : Sample)

@[simp] theorem lookup_push : (delta.push id name sample).lookup = delta.lookup := rfl

@[simp] theorem nextSeriesId_push :
    (delta.push id name sample).nextSeriesId = delta.nextSeriesId := rfl

@[simp] theorem bucket_push : (delta.push id name sample).bucket = delta.bucket := rfl

end

theorem lookup_addSeries (spec : SeriesSpec) (f : SeriesFingerprint) :
    (delta.addSeries fp spec).lookup f =
      if f = fp then some delta.nextSeriesId else delta.lookup f := by
  by_cases hf : f = fp
  · subst hf
    simp [lookup, addSeries]
  · simp [lookup, addSeries, hf]

theorem lookup_init (context : TsdbContext) (f : SeriesFingerprint) :
    (init context).lookup f = context.seriesDict.lookup f := by
  simp [lookup, init]

theorem lookup_init_freeze (delta : TsdbWriteDelta) :
    (init delta.freeze.2).lookup = delta.lookup := by
  funext f
  rw [lookup_init]
  show AList.lookup f (delta.seriesDictDelta ∪ delta.seriesDictBase) = _
  by_cases hf : f ∈ delta.seriesDictDelta
  · obtain ⟨id, hid⟩ := isSome_iff_exists.mp (AList.lookup_isSome.mpr hf)
    simp [AList.lookup_union_left hf, lookup, hid]
  · simp [AList.lookup_union_right hf, lookup, AList.lookup_eq_none.mpr hf]

/-- The dictionary of the delta is the same, or the fingerprint has the next id. -/
inductive DictStep (fp : SeriesFingerprint) (delta delta' : TsdbWriteDelta) : Prop where
  | same (hlookup : delta'.lookup = delta.lookup)
      (hnext : delta'.nextSeriesId = delta.nextSeriesId)
  | new (hnone : delta.lookup fp = none)
      (hlookup : ∀ f, delta'.lookup f = if f = fp then some delta.nextSeriesId else delta.lookup f)
      (hnext : delta'.nextSeriesId = delta.nextSeriesId + 1)

variable {unit : Option String} {metricType : Option MetricType} {sample : Sample}
  {labels : List Label}

section

variable (h : delta.ingestSample crates labels unit metricType sample = .ok delta')
include h

theorem ingestSample_cases : (∃ id, delta.lookup (fingerprint crates labels) = some id ∧
        delta' = delta.push id (metricName labels) sample) ∨
      delta.lookup (fingerprint crates labels) = none ∧
        delta' = (delta.addSeries (fingerprint crates labels) { unit, metricType, labels }).push
          delta.nextSeriesId (metricName labels) sample := by
  simp only [ingestSample] at h
  split at h
  · exact absurd h (by simp)
  · split at h
    · rename_i id hid
      exact .inl ⟨id, hid, by simpa using h.symm⟩
    · rename_i hnone
      exact .inr ⟨hnone, by simpa using h.symm⟩

theorem dictStep_ingestSample :
    DictStep (fingerprint crates labels) delta delta' ∧ delta'.bucket = delta.bucket ∧
      (delta'.lookup (fingerprint crates labels)).isSome := by
  rcases ingestSample_cases h with ⟨id, hid, rfl⟩ | ⟨hnone, rfl⟩
  · exact ⟨.same rfl rfl, rfl, by simp [hid]⟩
  · refine ⟨.new hnone (fun f => ?_) rfl, rfl, by simp [lookup_addSeries]⟩
    rw [lookup_push, lookup_addSeries]

end

theorem dictStep_ingestSamples (labels : List Label) (unit : Option String)
    (metricType : Option MetricType) (samples : List Sample) (delta : TsdbWriteDelta) :
    DictStep (fingerprint crates labels) delta
        (ingestSamples crates labels unit metricType delta samples).2 ∧
      (ingestSamples crates labels unit metricType delta samples).2.bucket = delta.bucket := by
  induction samples generalizing delta with
  | nil => exact ⟨.same rfl rfl, rfl⟩
  | cons sample samples ih =>
    rw [ingestSamples]
    split
    · exact ⟨.same rfl rfl, rfl⟩
    · rename_i mid hmid
      obtain ⟨hfirst, hbucket, hknown⟩ := dictStep_ingestSample hmid
      obtain ⟨hrest, hbucket'⟩ := ih mid
      refine ⟨?_, hbucket'.trans hbucket⟩
      cases hrest with
      | same hlookup hnext =>
        cases hfirst with
        | same hlookup' hnext' => exact .same (hlookup.trans hlookup') (hnext.trans hnext')
        | new hnone hlookup' hnext' =>
          exact .new hnone (fun f => by rw [hlookup, hlookup']) (hnext.trans hnext')
      | new hnone =>
        rw [hnone] at hknown
        exact absurd hknown (by simp)

theorem dictStep_ingest (crates : Crates) (delta : TsdbWriteDelta) (series : Series) :
    DictStep (fingerprint crates (sortLabels series.labels)) delta (delta.ingest crates series).2 ∧
      (delta.ingest crates series).2.bucket = delta.bucket :=
  dictStep_ingestSamples _ _ _ _ _

end TsdbWriteDelta

/-! ### The stored dictionary -/

def Stored (storage : Storage) (bucket : TimeBucket) (fp : SeriesFingerprint) (id : SeriesId) :
    Prop :=
  storage[seriesDictionaryKey bucket fp]? = some (encode id)

def DictionaryRecords (storage : Storage) (bucket : TimeBucket) : Prop :=
  ∀ k v, storage[k]? = some v → RecordType.seriesDictionary.bucketScopedPrefix bucket <+: k →
    ∃ fp id, k = seriesDictionaryKey bucket fp ∧ v = encode id

theorem encode_seriesId_inj {id id'} (h : encode id = encode id') : id = id' := by
  have hdecode := congrArg decode h
  simpa [decode_encode] using hdecode

variable {fp : SeriesFingerprint}

theorem Stored.unique {storage id id'}
    (h : Stored storage bucket fp id) (h' : Stored storage bucket fp id') : id = id' :=
  encode_seriesId_inj (Option.some.inj (h.symm.trans h'))

def insertAll (entries : List (SeriesFingerprint × SeriesId)) : SeriesDict × SeriesId :=
  entries.foldl (fun acc e => (acc.1.insert e.1 e.2, max acc.2 e.2)) (∅, 0)

theorem lookup_insertAll {entries}
    (h : ∀ e ∈ entries, ∀ e' ∈ entries, e.1 = e'.1 → e.2 = e'.2) (fp : SeriesFingerprint)
    (id : SeriesId) : (insertAll entries).1.lookup fp = some id ↔ (fp, id) ∈ entries := by
  induction entries using List.reverseRecOn with
  | nil => simp [insertAll]
  | append_singleton entries e ih =>
    have hsub := ih fun a ha b hb => h a (mem_append_left _ ha) b (mem_append_left _ hb)
    rw [insertAll, foldl_append, ← insertAll, mem_append, mem_singleton]
    show ((insertAll entries).1.insert e.1 e.2).lookup fp = some id ↔ _
    by_cases hfp : fp = e.1
    · subst hfp
      rw [AList.lookup_insert, Option.some.injEq]
      constructor
      · rintro rfl
        exact .inr rfl
      · rintro (hmem | heq)
        · exact h e (by simp) (e.1, id) (mem_append_left _ hmem) rfl
        · exact (congrArg Prod.snd heq).symm
    · rw [AList.lookup_insert_ne hfp, hsub]
      constructor
      · exact .inl
      · rintro (hmem | rfl)
        · exact hmem
        · exact absurd rfl hfp

def dictEntry (record : Record) : SeriesFingerprint × SeriesId :=
  (((SeriesDictionaryKey.decode record.key).toOption.map
      SeriesDictionaryKey.seriesFingerprint).getD 0,
    (decode record.value).toOption.getD 0)

theorem dictEntry_eq (fp : SeriesFingerprint) (id : SeriesId) :
    dictEntry { key := seriesDictionaryKey bucket fp, value := encode id } = (fp, id) := by
  simp [dictEntry, decode_seriesDictionaryKey, decode_encode, Except.toOption]

def storedEntries (storage : Storage) (bucket : TimeBucket) : List (SeriesFingerprint × SeriesId) :=
  (storage.scanRange (RecordType.seriesDictionary.bucketRange bucket)).map dictEntry

variable {storage : Storage} (hrecords : DictionaryRecords storage bucket)

include hrecords

theorem exists_of_mem_scanRange {record}
    (h : record ∈ storage.scanRange (RecordType.seriesDictionary.bucketRange bucket)) :
    ∃ fp id, Stored storage bucket fp id ∧ record =
      { key := seriesDictionaryKey bucket fp, value := encode id } := by
  obtain ⟨key, value⟩ := record
  obtain ⟨hget, hhead⟩ := Storage.mem_scanRange_ofPrefix.mp h
  obtain ⟨fp, id, hkey, hvalue⟩ := hrecords _ _ hget hhead
  subst hkey
  subst hvalue
  exact ⟨fp, id, hget, rfl⟩

theorem mem_storedEntries {id} :
    (fp, id) ∈ storedEntries storage bucket ↔ Stored storage bucket fp id := by
  rw [storedEntries, List.mem_map]
  constructor
  · rintro ⟨record, hmem, heq⟩
    obtain ⟨fp', id', hstored, rfl⟩ := exists_of_mem_scanRange hrecords hmem
    rw [dictEntry_eq, Prod.mk.injEq] at heq
    rwa [heq.1, heq.2] at hstored
  · intro hstored
    refine ⟨{ key := seriesDictionaryKey bucket fp, value := encode id },
      Storage.mem_scanRange_ofPrefix.mpr ⟨hstored, List.prefix_append _ _⟩, dictEntry_eq fp id⟩

theorem loadSeriesDictionary_eq :
    loadSeriesDictionary storage bucket = .ok (insertAll (storedEntries storage bucket)) := by
  rw [insertAll, storedEntries, foldl_map]
  refine foldlM_eq_pure (fun acc record hmem => ?_) _
  obtain ⟨fp, id, -, rfl⟩ := exists_of_mem_scanRange hrecords hmem
  rw [dictEntry_eq, decode_seriesDictionaryKey, decode_encode]
  rfl

theorem load_spec : ∃ context, load storage bucket = .ok context ∧ context.bucket = bucket ∧
    (∀ fp id, context.seriesDict.lookup fp = some id ↔ Stored storage bucket fp id) ∧
    (context.seriesDict.entries = [] → context.nextSeriesId = 0) := by
  have hlookup : ∀ fp id, (insertAll (storedEntries storage bucket)).1.lookup fp = some id ↔
      Stored storage bucket fp id := by
    intro fp id
    rw [lookup_insertAll, mem_storedEntries hrecords]
    rintro ⟨f, i⟩ he ⟨f', i'⟩ he' rfl
    exact ((mem_storedEntries hrecords).mp he).unique ((mem_storedEntries hrecords).mp he')
  let loaded := insertAll (storedEntries storage bucket)
  refine ⟨{ bucket, seriesDict := loaded.1, nextSeriesId := loaded.2 }, ?_, rfl, hlookup,
    fun hempty => ?_⟩
  · rw [load, loadSeriesDictionary_eq hrecords]
    rfl
  · -- A stored entry would be in the table.
    have hnil : storedEntries storage bucket = [] := by
      refine eq_nil_iff_forall_not_mem.mpr fun e he => ?_
      have hmem := AList.mem_lookup_iff.mp
        ((hlookup e.1 e.2).mpr ((mem_storedEntries hrecords).mp he))
      exact absurd (hempty ▸ hmem) not_mem_nil
    show (insertAll (storedEntries storage bucket)).2 = 0
    rw [hnil]
    rfl

end OpenData.Timeseries

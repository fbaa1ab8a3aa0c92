import OpenData.Proofs.Timeseries.Keys

/-!
# What a flush writes

The operations of a flush are applied in order, and each key sees only its own
(`applyOps_getElem?`). A flush writes records of five types, so the dictionary of the bucket changes
by the new series of the delta alone (`flushDelta_dictionary`), and the samples of a series by one
merge (`flushDelta_samples`).
-/

namespace OpenData.Timeseries

open Lib Common List Option

variable {crates : Crates} {storage storage' : Storage}

/-! ### Operations -/

def RecordOp.key : RecordOp → Bytes
  | .put record => record.key
  | .merge record => record.key

def opValue (crates : Crates) (value : Option Bytes) : RecordOp → Option (Option Bytes)
  | .put record => some (some record.value)
  | .merge record => (mergeBatch crates record.key value [record.value]).map some

variable {op : RecordOp}

theorem applyOp_getElem? (h : applyOp crates storage op = some storage') (k : Bytes) :
    if op.key = k then opValue crates storage[k]? op = some storage'[k]?
    else storage'[k]? = storage[k]? := by
  cases op with
  | put record =>
    obtain rfl : storage.insert record.key record.value = storage' := by simpa [applyOp] using h
    split
    · rename_i hk
      obtain rfl : record.key = k := hk
      simp [opValue]
    · rename_i hk
      exact storage.getElem?_insert_of_ne record.value hk
  | merge record =>
    rw [applyOp] at h
    cases hvalue : mergeBatch crates record.key storage[record.key]? [record.value] with
    | none => simp [hvalue] at h
    | some value =>
      obtain rfl : storage.insert record.key value = storage' := by simpa [hvalue] using h
      split
      · rename_i hk
        obtain rfl : record.key = k := hk
        simp [opValue, hvalue]
      · rename_i hk
        exact storage.getElem?_insert_of_ne value hk

variable {ops : List RecordOp}

theorem applyOps_getElem? (h : applyOps crates storage ops = some storage') (k : Bytes) :
    (ops.filter fun op => op.key = k).foldlM (opValue crates) storage[k]? = some storage'[k]? := by
  induction ops generalizing storage with
  | nil =>
    obtain rfl : storage = storage' := by simpa [applyOps] using h
    rfl
  | cons op ops ih =>
    rw [applyOps, foldlM_cons] at h
    cases hop : applyOp crates storage op with
    | none => simp [hop] at h
    | some mid =>
      have happly : applyOps crates mid ops = some storage' := by simpa [hop, applyOps] using h
      have hrest := ih happly
      have hvalue := applyOp_getElem? hop k
      by_cases hk : op.key = k
      · rw [if_pos hk] at hvalue
        rw [filter_cons_of_pos (by simpa using hk), foldlM_cons, hvalue]
        exact hrest
      · rw [if_neg hk] at hvalue
        rwa [filter_cons_of_neg (by simpa using hk), ← hvalue]

theorem filter_eq_singleton {α : Type} {l : List α} {p : α → Bool} {a} (hnodup : l.Nodup)
    (h : ∀ b, b ∈ l ∧ p b = true ↔ b = a) : l.filter p = [a] := by
  refine perm_singleton.mp ((perm_ext_iff_of_nodup (hnodup.filter p) (by simp)).mpr ?_)
  intro b
  rw [mem_filter, h, mem_singleton]

/-! ### The operations of a flush -/

variable {k : Bytes}

variable {frozen : FrozenTsdbDelta}

def forwardOp (bucket : TimeBucket) (id : SeriesId) (spec : SeriesSpec) : RecordOp :=
  .put { key := forwardIndexKey bucket id,
         value := (ForwardIndexValue.encode spec).toOption.getD [] }

def invertedOp (crates : Crates) (bucket : TimeBucket) (label : Label)
    (postings : Finset SeriesId) : RecordOp :=
  .merge {
    key := invertedIndexKey bucket label
    value := (crates.roaringSerialize postings).toOption.getD [] }

def flushPart (crates : Crates) (announced : Bool) (frozen : FrozenTsdbDelta) :
    RecordType → List RecordOp
  | .bucketList => if announced then [] else [mergeBucketList frozen.bucket]
  | .seriesDictionary =>
    frozen.seriesDictDelta.entries.map fun e => insertSeriesId frozen.bucket e.1 e.2
  | .forwardIndex => frozen.forwardIndex.entries.map fun e => forwardOp frozen.bucket e.1 e.2
  | .invertedIndex =>
    frozen.invertedIndex.entries.map fun e => invertedOp crates frozen.bucket e.1 e.2
  | .timeSeries => frozen.samples.entries.map fun e => mergeSamples crates frozen.bucket e.1 e.2

variable {id : SeriesId} {bucket : TimeBucket}

theorem insertForwardIndex_eq_ok {spec} (h : insertForwardIndex bucket id spec = .ok op) :
    op = forwardOp bucket id spec ∧ ∃ bytes, ForwardIndexValue.encode spec = .ok bytes := by
  obtain ⟨bytes, hbytes, hop⟩ := exists_of_bind_eq_ok h
  refine ⟨?_, bytes, hbytes⟩
  rw [forwardOp, hbytes]
  exact (Except.ok.inj hop).symm

variable {label : Label} {postings : Finset SeriesId}

theorem mergeInvertedIndex_eq_ok (h : mergeInvertedIndex crates bucket label postings = .ok op) :
    op = invertedOp crates bucket label postings := by
  obtain ⟨bytes, hbytes, hop⟩ := exists_of_bind_eq_ok h
  cases hserialize : crates.roaringSerialize postings with
  | error => simp [hserialize, Except.mapError] at hbytes
  | ok value =>
    obtain rfl : value = bytes := by simpa [hserialize, Except.mapError] using hbytes
    rw [invertedOp, hserialize]
    exact (Except.ok.inj hop).symm

theorem flushOps_eq (h : flushOps crates storage frozen = .ok ops) :
    ∃ announced, bucketListContains frozen.bucket storage = .ok announced ∧
      ops = flushPart crates announced frozen .bucketList
        ++ flushPart crates announced frozen .seriesDictionary
        ++ flushPart crates announced frozen .forwardIndex
        ++ flushPart crates announced frozen .invertedIndex
        ++ flushPart crates announced frozen .timeSeries ∧
      ∀ e ∈ frozen.forwardIndex.entries, ∃ bytes, ForwardIndexValue.encode e.2 = .ok bytes := by
  obtain ⟨announced, hannounced, h⟩ := exists_of_bind_eq_ok h
  obtain ⟨forward, hforward, h⟩ := exists_of_bind_eq_ok h
  obtain ⟨inverted, hinverted, h⟩ := exists_of_bind_eq_ok h
  obtain ⟨rfl, hencoded⟩ := eq_map_of_mapM_eq_ok
    (fun e op hop => (insertForwardIndex_eq_ok hop).1) hforward
  obtain ⟨rfl, -⟩ := eq_map_of_mapM_eq_ok (fun e op hop => mergeInvertedIndex_eq_ok hop) hinverted
  refine ⟨announced, ?_, (Except.ok.inj h).symm, fun e he =>
    (insertForwardIndex_eq_ok (hencoded e he)).2⟩
  cases hcontains : bucketListContains frozen.bucket storage with
  | error => simp [hcontains, Except.mapError] at hannounced
  | ok => simpa [hcontains, Except.mapError] using hannounced

theorem flushDelta_cases (h : flushDelta crates storage frozen = .ok storage') :
    frozen.isEmpty = true ∧ storage' = storage ∨ ∃ ops, flushOps crates storage frozen = .ok ops ∧
        applyOps crates storage ops = some storage' := by
  rw [flushDelta] at h
  split at h
  · rename_i hempty
    exact .inl ⟨hempty, by simpa using h.symm⟩
  · obtain ⟨ops, hops, h⟩ := exists_of_bind_eq_ok h
    refine .inr ⟨ops, hops, ?_⟩
    split at h
    · rename_i hsome
      simpa [hsome] using h
    · simp at h

theorem recordTypeOf_insertSeriesId (bucket : TimeBucket) (fp : SeriesFingerprint) (id : SeriesId) :
    recordTypeOf (insertSeriesId bucket fp id).key = some .seriesDictionary :=
  recordTypeOf_append _ _ _

theorem recordTypeOf_timeSeriesKey (bucket : TimeBucket) (name : String) (id : SeriesId) :
    recordTypeOf (timeSeriesKey bucket name id) = some .timeSeries := by
  rw [timeSeriesKey, append_assoc]
  exact recordTypeOf_append _ _ _

theorem filter_entries {κ ν : Type} [DecidableEq κ] {table : AList fun _ : κ => ν}
    (op : κ → ν → RecordOp) {a b} (h : table.lookup a = some b)
    (hk : ∀ a' b', table.lookup a' = some b' → ((op a' b').key = k ↔ a' = a)) :
    ((table.entries.map fun e => op e.1 e.2).filter fun op => op.key = k) = [op a b] := by
  rw [List.filter_map]
  refine congrArg (List.map _) (filter_eq_singleton (a := ⟨a, b⟩) table.nodupKeys.nodup ?_)
  rintro ⟨a', b'⟩
  simp only [Function.comp_apply, decide_eq_true_eq, Sigma.mk.injEq, heq_eq_eq]
  constructor
  · rintro ⟨hmem, hkey⟩
    have hlookup := AList.mem_lookup_iff.mpr hmem
    obtain rfl : a' = a := (hk a' b' hlookup).mp hkey
    exact ⟨rfl, Option.mem_unique hlookup h⟩
  · rintro ⟨rfl, rfl⟩
    exact ⟨AList.mem_lookup_iff.mp h, (hk a' b' h).mpr rfl⟩

theorem filter_entries_nil {κ ν : Type} [DecidableEq κ] {table : AList fun _ : κ => ν}
    (op : κ → ν → RecordOp) (hk : ∀ a b, table.lookup a = some b → (op a b).key ≠ k) :
    ((table.entries.map fun e => op e.1 e.2).filter fun op => op.key = k) = [] := by
  refine filter_eq_nil_iff.mpr fun o ho => ?_
  obtain ⟨⟨a, b⟩, he, rfl⟩ := mem_map.mp ho
  simpa using hk a b (AList.mem_lookup_iff.mpr he)

variable {t : RecordType} {announced : Bool}

theorem key_of_mem_flushPart (h : op ∈ flushPart crates announced frozen t) :
    t = .bucketList ∧ op.key = bucketListKey ∨ t.bucketScopedPrefix frozen.bucket <+: op.key := by
  cases t with
  | bucketList =>
    cases announced with
    | true => simp [flushPart] at h
    | false =>
      obtain rfl : op = mergeBucketList frozen.bucket := by simpa [flushPart] using h
      exact .inl ⟨rfl, rfl⟩
  | seriesDictionary | forwardIndex =>
    obtain ⟨e, -, rfl⟩ := mem_map.mp h
    exact .inr (prefix_append _ _)
  | invertedIndex | timeSeries =>
    obtain ⟨e, -, rfl⟩ := mem_map.mp h
    exact .inr ((prefix_append _ _).trans (prefix_append _ _))

theorem recordTypeOf_of_mem_flushPart
    (h : op ∈ flushPart crates announced frozen t) : recordTypeOf op.key = some t := by
  rcases key_of_mem_flushPart h with ⟨rfl, hkey⟩ | hhead
  · rw [hkey, recordTypeOf_bucketListKey]
  · exact recordTypeOf_of_isPrefix hhead

theorem filter_flushPart {t'} (hk : recordTypeOf k = some t)
    (hne : t' ≠ t) : ((flushPart crates announced frozen t').filter fun op => op.key = k) = [] := by
  refine filter_eq_nil_iff.mpr fun op hop hkey => hne ?_
  have htype := recordTypeOf_of_mem_flushPart hop
  rw [show op.key = k by simpa using hkey, hk] at htype
  exact (Option.some.inj htype).symm

theorem flushOps_getElem? (h : flushOps crates storage frozen = .ok ops)
    (happly : applyOps crates storage ops = some storage')
    (hk : recordTypeOf k = some t) :
    ∃ announced, bucketListContains frozen.bucket storage = .ok announced ∧
      ((flushPart crates announced frozen t).filter fun op => op.key = k).foldlM (opValue crates)
        storage[k]? = some storage'[k]? := by
  obtain ⟨announced, hannounced, rfl, -⟩ := flushOps_eq h
  refine ⟨announced, hannounced, ?_⟩
  have hvalue := applyOps_getElem? happly k
  simp only [filter_append] at hvalue
  cases t <;> simpa [filter_flushPart hk] using hvalue

section

variable {ops : List RecordOp} (hops : flushOps crates storage frozen = .ok ops)
  (happly : applyOps crates storage ops = some storage')

include hops happly

theorem flushOps_forward (id : SeriesId) : storage'[forwardIndexKey frozen.bucket id]? =
      ((frozen.forwardIndex.lookup id).map fun spec =>
        (ForwardIndexValue.encode spec).toOption.getD []).or
        storage[forwardIndexKey frozen.bucket id]? := by
  obtain ⟨announced, -, hvalue⟩ := flushOps_getElem? hops happly
    (recordTypeOf_forwardIndexKey frozen.bucket id)
  rw [flushPart] at hvalue
  cases hlookup : frozen.forwardIndex.lookup id with
  | some =>
    rw [filter_entries (forwardOp frozen.bucket) hlookup fun id' spec' _ =>
      ⟨forwardIndexKey_inj, fun heq => by rw [heq]; rfl⟩] at hvalue
    simpa [opValue, forwardOp] using hvalue.symm
  | none =>
    rw [filter_entries_nil (forwardOp frozen.bucket) fun id' spec' hlookup' hkey => ?_] at hvalue
    · simpa using hvalue.symm
    · rw [forwardIndexKey_inj hkey, hlookup] at hlookup'
      cases hlookup'

theorem flushOps_inverted (hlookup : frozen.invertedIndex.lookup label = some postings) :
    (mergeBatch crates (invertedIndexKey frozen.bucket label)
        storage[invertedIndexKey frozen.bucket label]?
        [(crates.roaringSerialize postings).toOption.getD []]).map some =
      some storage'[invertedIndexKey frozen.bucket label]? := by
  obtain ⟨announced, -, hvalue⟩ := flushOps_getElem? hops happly
    (recordTypeOf_invertedIndexKey frozen.bucket label)
  rw [flushPart, filter_entries (invertedOp crates frozen.bucket) hlookup fun label' postings'
    hlookup' => ⟨invertedIndexKey_inj, fun heq => by rw [heq]; rfl⟩] at hvalue
  simp only [foldlM_cons, foldlM_nil, bind_pure] at hvalue
  exact hvalue

theorem flushOps_inverted_of_none (hlookup : frozen.invertedIndex.lookup label = none) :
    storage'[invertedIndexKey frozen.bucket label]? =
      storage[invertedIndexKey frozen.bucket label]? := by
  obtain ⟨announced, -, hvalue⟩ := flushOps_getElem? hops happly
    (recordTypeOf_invertedIndexKey frozen.bucket label)
  rw [flushPart, filter_entries_nil (invertedOp crates frozen.bucket)
    fun label' postings hlookup' hkey => ?_] at hvalue
  · simpa using hvalue.symm
  · rw [invertedIndexKey_inj hkey, hlookup] at hlookup'
    cases hlookup'

end

theorem lookup_of_isEmpty (h : frozen.isEmpty = true) :
    (∀ fp, frozen.seriesDictDelta.lookup fp = none) ∧ ∀ id, frozen.samples.lookup id = none := by
  have hentries : frozen.samples.entries = [] ∧ frozen.seriesDictDelta.entries = [] := by
    simpa [FrozenTsdbDelta.isEmpty] using h
  refine ⟨fun fp => ?_, fun id => ?_⟩
  · rw [AList.lookup_eq_none, AList.mem_keys, AList.keys, hentries.2]
    exact not_mem_nil
  · rw [AList.lookup_eq_none, AList.mem_keys, AList.keys, hentries.1]
    exact not_mem_nil

section

variable (h : flushDelta crates storage frozen = .ok storage')
include h

theorem flushDelta_dictionary
    (fp : SeriesFingerprint) : storage'[seriesDictionaryKey frozen.bucket fp]? =
      ((frozen.seriesDictDelta.lookup fp).map SeriesDictionaryValue.encode).or
        storage[seriesDictionaryKey frozen.bucket fp]? := by
  rcases flushDelta_cases h with ⟨hempty, rfl⟩ | ⟨ops, hops, happly⟩
  · rw [(lookup_of_isEmpty hempty).1, map_none, none_or]
  · obtain ⟨announced, -, hvalue⟩ := flushOps_getElem? hops happly
      (recordTypeOf_insertSeriesId frozen.bucket fp 0)
    rw [show (insertSeriesId frozen.bucket fp 0).key =
      seriesDictionaryKey frozen.bucket fp from rfl,
      flushPart] at hvalue
    cases hlookup : frozen.seriesDictDelta.lookup fp with
    | some =>
      rw [filter_entries (insertSeriesId frozen.bucket) hlookup fun fp' id' _ =>
        ⟨seriesDictionaryKey_inj frozen.bucket, fun heq => by rw [heq]; rfl⟩] at hvalue
      simpa [opValue, insertSeriesId] using hvalue.symm
    | none =>
      rw [filter_entries_nil (insertSeriesId frozen.bucket)
        fun fp' id' hlookup' hkey => ?_] at hvalue
      · simpa using hvalue.symm
      · rw [seriesDictionaryKey_inj frozen.bucket hkey, hlookup] at hlookup'
        exact absurd hlookup' (by simp)

/-- A key that no operation of its record type has keeps its value. -/
theorem flushDelta_untouched (htype : recordTypeOf k = some t) (hnone : ∀ announced,
      ((flushPart crates announced frozen t).filter fun op => op.key = k) = []) :
    storage'[k]? = storage[k]? := by
  rcases flushDelta_cases h with ⟨-, rfl⟩ | ⟨ops, hops, happly⟩
  · rfl
  · obtain ⟨announced, -, hvalue⟩ := flushOps_getElem? hops happly htype
    rw [hnone] at hvalue
    simpa using hvalue.symm

theorem flushDelta_dictionary_of_ne (htype : recordTypeOf k = some .seriesDictionary)
    (hk : ∀ fp, k ≠ seriesDictionaryKey frozen.bucket fp) : storage'[k]? = storage[k]? := by
  exact flushDelta_untouched h htype fun _ =>
    filter_entries_nil (insertSeriesId frozen.bucket) fun fp _ _ hkey => hk fp hkey.symm

theorem flushDelta_samples
    {samples : SeriesSamples} (hlookup : frozen.samples.lookup id = some samples) :
    ∃ value, mergeBatchTimeSeries crates storage[timeSeriesKey frozen.bucket samples.metricName id]?
        [TimeSeriesValue.encode crates samples.points] = .ok value ∧
      storage'[timeSeriesKey frozen.bucket samples.metricName id]? = some value := by
  rcases flushDelta_cases h with ⟨hempty, rfl⟩ | ⟨ops, hops, happly⟩
  · rw [(lookup_of_isEmpty hempty).2] at hlookup
    cases hlookup
  · obtain ⟨announced, -, hvalue⟩ := flushOps_getElem? hops happly
      (recordTypeOf_timeSeriesKey frozen.bucket samples.metricName id)
    rw [flushPart, filter_entries (mergeSamples crates frozen.bucket) hlookup
      fun id' samples' hlookup' => ⟨fun hkey => (timeSeriesKey_inj hkey).2, fun heq => ?_⟩]
        at hvalue
    · simp only [foldlM_cons, foldlM_nil, bind_pure] at hvalue
      obtain ⟨value, hmerge, hstored⟩ := map_eq_some_iff.mp hvalue
      rw [mergeBatch, recordTypeOf_timeSeriesKey] at hmerge
      exact ⟨value, toOption_eq_some.mp hmerge, hstored.symm⟩
    · subst heq
      rw [hlookup, Option.some.injEq] at hlookup'
      subst hlookup'
      rfl

theorem flushDelta_samples_of_ne (htype : recordTypeOf k = some .timeSeries)
    (hk : ∀ id samples, frozen.samples.lookup id = some samples →
      timeSeriesKey frozen.bucket samples.metricName id ≠ k) : storage'[k]? = storage[k]? := by
  exact flushDelta_untouched h htype fun _ =>
    filter_entries_nil (mergeSamples crates frozen.bucket) hk

theorem flushDelta_samples_of_none (hlookup : frozen.samples.lookup id = none) (name : String) :
    storage'[timeSeriesKey frozen.bucket name id]? =
      storage[timeSeriesKey frozen.bucket name id]? := by
  refine flushDelta_samples_of_ne h (recordTypeOf_timeSeriesKey frozen.bucket name id)
    fun id' samples hlookup' hkey => ?_
  rw [(timeSeriesKey_inj hkey).2, hlookup] at hlookup'
  cases hlookup'

end

end OpenData.Timeseries

import OpenData.Proofs.Timeseries.Bucket

/-!
# Samples on their way to the store

A sample that a delta takes is in the delta, then in a frozen delta, and then in the store, where a
later sample of the same series and time may replace it.

* `Reached`: a time of a series is in the store or in a frozen delta.
* `Genuine`: every sample in these places was ingested for its series.
* `Sound`: all that is known of a bucket. A write, a freeze and a flush keep it (`Sound.ingest`,
  `Sound.freeze`, `Sound.flush`).
-/

namespace OpenData.Timeseries

open Lib Common List TimeSeriesValue

variable {crates : Crates} {bucket : TimeBucket} {storage storage' : Storage}
  {frozen : FrozenTsdbDelta}

/-! ### Records of other buckets -/

theorem not_isPrefix_bucketListKey (t : RecordType) (bucket : TimeBucket) :
    ¬ t.bucketScopedPrefix bucket <+: bucketListKey := by
  intro h
  have hlen := h.length_le
  rw [length_bucketScopedPrefix] at hlen
  exact absurd hlen (by decide)

theorem flushDelta_frame (h : flushDelta crates storage frozen = .ok storage')
    (hne : bucket ≠ frozen.bucket) {t : RecordType} {k : Bytes}
    (hk : t.bucketScopedPrefix bucket <+: k) : storage'[k]? = storage[k]? := by
  refine flushDelta_untouched h (recordTypeOf_of_isPrefix hk) fun announced => ?_
  refine filter_eq_nil_iff.mpr fun op hop hkey => ?_
  obtain rfl : op.key = k := by simpa using hkey
  rcases key_of_mem_flushPart hop with ⟨-, hlist⟩ | hhead
  · exact not_isPrefix_bucketListKey t bucket (hlist ▸ hk)
  · exact hne (bucket_eq_of_isPrefix hk hhead)

section

variable {P : SeriesSpec → Prop} {G : Catalog}

theorem StoredPart.congr (h : StoredPart crates bucket P G storage)
    (hsame : ∀ (t : RecordType) k, t.bucketScopedPrefix bucket <+: k → storage'[k]? = storage[k]?)
    (hlisted : bucketListContains bucket storage = .ok true →
      bucketListContains bucket storage' = .ok true) : StoredPart crates bucket P G storage' := by
  have hforward : ∀ id,
      storage'[forwardIndexKey bucket id]? = storage[forwardIndexKey bucket id]? :=
    fun id => hsame .forwardIndex _ (prefix_append _ _)
  have hinverted : ∀ label, storage'[invertedIndexKey bucket label]? =
      storage[invertedIndexKey bucket label]? := by
    intro label
    refine hsame .invertedIndex _ ?_
    rw [invertedIndexKey, append_assoc]
    exact prefix_append _ _
  have hmem : ∀ id, forwardIndexKey bucket id ∈ storage' ↔ forwardIndexKey bucket id ∈ storage := by
    intro id
    rw [Storage.mem_iff_exists, Storage.mem_iff_exists, hforward]
  refine ⟨fun id v hv => h.forward id v (hforward id ▸ hv), fun fp id => ?_,
    fun label v hv => h.roaring label v (hinverted label ▸ hv), fun label id => ?_, ?_⟩
  · rw [hmem, ← h.dictionary, Stored, Stored]
    exact Iff.of_eq (congrArg (· = _) (hsame .seriesDictionary _ (prefix_append _ _)))
  · rw [hmem, ← h.postings, storedPostings, hinverted, ← storedPostings]
  · rintro ⟨k, hk, t, hhead⟩
    refine hlisted (h.listed ⟨k, ?_, t, hhead⟩)
    rw [Storage.mem_iff_exists] at hk ⊢
    rwa [← hsame t k hhead]

theorem Tsdb.NoRecords.congr (h : Tsdb.NoRecords storage bucket)
    (hsame : ∀ (t : RecordType) k, t.bucketScopedPrefix bucket <+: k → storage'[k]? = storage[k]?) :
    Tsdb.NoRecords storage' bucket := by
  intro k hk t hhead
  refine h k ?_ t hhead
  rw [Storage.mem_iff_exists] at hk ⊢
  rwa [← hsame t k hhead]

end

/-! ### Stored samples -/

def pointsOf (samples : SamplesBySeries) (id : SeriesId) : List Sample :=
  ((samples.lookup id).map SeriesSamples.points).getD []

def storedPoints (crates : Crates) (storage : Storage) (bucket : TimeBucket) (name : String)
    (id : SeriesId) : Except EncodingError (List Sample) :=
  decode crates (storage[timeSeriesKey bucket name id]?.getD [])

def HasTime (points : List Sample) (time : Int64) : Prop := ∃ p ∈ points, p.timestampMs = time

variable {id : SeriesId} {samples : SamplesBySeries}

theorem pointsOf_eq_of_lookup {entry}
    (h : samples.lookup id = some entry) : pointsOf samples id = entry.points := by
  rw [pointsOf, h]
  rfl

theorem exists_of_mem_pointsOf {p}
    (h : p ∈ pointsOf samples id) : ∃ entry, samples.lookup id = some entry ∧ p ∈ entry.points := by
  cases hlookup : samples.lookup id with
  | none => simp [pointsOf, hlookup] at h
  | some entry => exact ⟨entry, rfl, pointsOf_eq_of_lookup hlookup ▸ h⟩

/-- A merge keeps the times of both sides, and its samples are samples of the two sides. The sides
need not be sorted. -/
theorem mergeBatchTimeSeries_points (hcrates : crates.RoundTrip) {existing group old value}
    (hmerge : mergeBatchTimeSeries crates existing [encode crates group] = .ok value)
    (hold : decode crates (existing.getD []) = .ok old) :
    ∃ merged, decode crates value = .ok merged ∧ (∀ p ∈ merged, p ∈ old ∨ p ∈ group) ∧
      ∀ p, p ∈ old ∨ p ∈ group → HasTime merged p.timestampMs := by
  have hself : ∀ points : List Sample, ∀ p ∈ points, HasTime points p.timestampMs :=
    fun points p hp => ⟨p, hp, rfl⟩
  have hsources : mergeBatchTimeSeries crates existing [encode crates group] =
      mergeSources crates ([existing.getD [], encode crates group].filter
        fun source => !source.isEmpty) := by
    cases existing <;> rfl
  rw [hsources] at hmerge
  generalize existing.getD [] = v at hmerge hold
  by_cases hv : v = [] <;> by_cases hgroup : group = []
  · subst hv hgroup
    obtain rfl : [] = old := Except.ok.inj hold
    obtain rfl : [] = value := Except.ok.inj hmerge
    exact ⟨[], rfl, by simp, by simp⟩
  · subst hv
    obtain rfl : [] = old := Except.ok.inj hold
    have hne := hcrates.tsz_ne_nil group hgroup
    obtain rfl : crates.tszEncode group = value := by
      simpa [encode, hgroup, hne, mergeSources] using hmerge
    exact ⟨group, decode_tszEncode hcrates hgroup, fun p hp => .inr hp,
      fun p hp => hself group p (by simpa using hp)⟩
  · subst hgroup
    obtain rfl : v = value := by
      simpa [encode, hv, mergeSources] using hmerge
    exact ⟨old, hold, fun p hp => .inl hp, fun p hp => hself old p (by simpa using hp)⟩
  · -- Both sides are decoded and merged.
    have hne := hcrates.tsz_ne_nil group hgroup
    have hsamples : [v, crates.tszEncode group].mapM (fun source =>
        (crates.tszDecode source).mapM id) = .ok [old, group] := by
      have hfirst : (crates.tszDecode v).mapM id = .ok old := by
        rwa [decode, if_neg hv] at hold
      have hsecond : (crates.tszDecode (crates.tszEncode group)).mapM id = .ok group := by
        have hdecode := decode_tszEncode hcrates hgroup
        rwa [decode, if_neg hne] at hdecode
      simp [mapM_cons, hfirst, hsecond, bind, Except.bind, pure, Except.pure]
    have hfilter : [v, encode crates group].filter (fun source => !source.isEmpty) =
        [v, crates.tszEncode group] := by
      simp [encode, hgroup, hv, hne]
    rw [hfilter] at hmerge
    have hmerged : crates.tszEncode
        (lastWinsMerge (fun s => s.timestampMs.toInt) [old, group]) = value := by
      have hloop : ([v, crates.tszEncode group].mapM (fun source =>
          (crates.tszDecode source).mapM id) >>= fun samples =>
            if samples.all List.isEmpty then Except.ok []
            else .ok (crates.tszEncode (lastWinsMerge (fun s => s.timestampMs.toInt) samples))) =
          .ok value := hmerge
      rw [hsamples] at hloop
      have hall : ([old, group].all List.isEmpty) = false := by simp [hgroup]
      simpa [bind, Except.bind, hall] using hloop
    have hkeeps : ∀ p, p ∈ old ∨ p ∈ group →
        HasTime (lastWinsMerge (fun s => s.timestampMs.toInt) [old, group]) p.timestampMs := by
      intro p hp
      have hkey : ∃ q ∈ lastWinsMerge (fun s : Sample => s.timestampMs.toInt) [old, group],
          q.timestampMs.toInt = p.timestampMs.toInt :=
        exists_key_mem_lastWinsMerge (by simpa using hp)
      obtain ⟨q, hq, hkey⟩ := hkey
      exact ⟨q, hq, Int64.toInt_inj.mp hkey⟩
    have hnonempty : lastWinsMerge (fun s : Sample => s.timestampMs.toInt) [old, group] ≠ [] := by
      intro hnil
      obtain ⟨p, hp⟩ := exists_mem_of_ne_nil group hgroup
      obtain ⟨q, hq, -⟩ := hkeeps p (.inr hp)
      rw [hnil] at hq
      exact absurd hq not_mem_nil
    refine ⟨_, hmerged ▸ decode_tszEncode hcrates hnonempty, fun p hp => ?_, hkeeps⟩
    simpa using mem_flatten_of_mem_lastWinsMerge hp

theorem flushDelta_points (hcrates : crates.RoundTrip)
    (h : flushDelta crates storage frozen = .ok storage') {name old}
    (hold : storedPoints crates storage frozen.bucket name id = .ok old) :
    ∃ new, storedPoints crates storage' frozen.bucket name id = .ok new ∧
      (∀ p ∈ new, p ∈ old ∨ p ∈ pointsOf frozen.samples id) ∧
      (∀ p ∈ old, HasTime new p.timestampMs) ∧
      ∀ entry, frozen.samples.lookup id = some entry → entry.metricName = name →
        ∀ p ∈ entry.points, HasTime new p.timestampMs := by
  by_cases hother : ∀ entry, frozen.samples.lookup id = some entry → entry.metricName ≠ name
  · refine ⟨old, ?_, fun p hp => .inl hp, fun p hp => ⟨p, hp, rfl⟩, fun entry hentry hname =>
      absurd hname (hother entry hentry)⟩
    rw [storedPoints, flushDelta_samples_of_ne h (recordTypeOf_timeSeriesKey _ _ _)]
    · exact hold
    · intro id' entry hentry hkey
      obtain ⟨hname, rfl⟩ := timeSeriesKey_inj hkey
      exact hother entry hentry hname
  · push Not at hother
    obtain ⟨entry, hlookup, rfl⟩ := hother
    obtain ⟨value, hbatch, hstored⟩ := flushDelta_samples h hlookup
    obtain ⟨new, hnew, hfrom, htimes⟩ := mergeBatchTimeSeries_points hcrates hbatch hold
    refine ⟨new, by rw [storedPoints, hstored]; exact hnew, fun p hp => ?_,
      fun p hp => htimes p (.inl hp), fun entry' hentry' _ p hp => ?_⟩
    · rw [pointsOf_eq_of_lookup hlookup]
      exact hfrom p hp
    · obtain rfl := Option.mem_unique hlookup hentry'
      exact htimes p (.inr hp)

theorem storedPoints_congr
    (hsame : ∀ (t : RecordType) k, t.bucketScopedPrefix bucket <+: k → storage'[k]? = storage[k]?)
    (name : String) (id : SeriesId) :
    storedPoints crates storage' bucket name id = storedPoints crates storage bucket name id := by
  rw [storedPoints, storedPoints, hsame .timeSeries]
  rw [timeSeriesKey, append_assoc]
  exact prefix_append _ _

/-! ### The samples of a write -/

variable {fp : SeriesFingerprint} {write : List Series}

namespace TsdbWriteDelta

variable {delta delta' delta'' : TsdbWriteDelta}

def Pushed (delta : TsdbWriteDelta) (fp : SeriesFingerprint) (sample : Sample) : Prop :=
  ∃ id, delta.lookup fp = some id ∧ sample ∈ pointsOf delta.samples id

/-- What a write does to the samples of a delta: they stay, and those that come in are samples of
`R`, under the id of their series. -/
structure Grown (R : SeriesFingerprint → Sample → Prop) (delta delta' : TsdbWriteDelta) : Prop where
  extend : Extends delta delta'
  keeps : ∀ id, ∀ p ∈ pointsOf delta.samples id, p ∈ pointsOf delta'.samples id
  comes : ∀ id, ∀ p ∈ pointsOf delta'.samples id,
    p ∈ pointsOf delta.samples id ∨ ∃ fp, R fp p ∧ delta'.lookup fp = some id

variable {R : SeriesFingerprint → Sample → Prop}

theorem Grown.refl (delta : TsdbWriteDelta) : Grown R delta delta :=
  ⟨fun _ _ h => h, fun _ _ h => h, fun _ _ h => .inl h⟩

theorem Grown.trans (h : Grown R delta delta') (h' : Grown R delta' delta'') :
    Grown R delta delta'' where
  extend fp id hid := h'.extend fp id (h.extend fp id hid)
  keeps id p hp := h'.keeps id p (h.keeps id p hp)
  comes id p hp := by
    rcases h'.comes id p hp with hp | hp
    · exact (h.comes id p hp).imp_right fun ⟨fp, hR, hid⟩ => ⟨fp, hR, h'.extend fp id hid⟩
    · exact .inr hp

variable {sample : Sample}

theorem Grown.pushed (h : Grown R delta delta') (hpushed : delta.Pushed fp sample) :
    delta'.Pushed fp sample := by
  obtain ⟨id, hid, hp⟩ := hpushed
  exact ⟨id, h.extend fp id hid, h.keeps id sample hp⟩

theorem pointsOf_push (delta : TsdbWriteDelta) (id id' : SeriesId) (name : String)
    (sample : Sample) : pointsOf (delta.push id name sample).samples id' =
      if id' = id then pointsOf delta.samples id' ++ [sample] else pointsOf delta.samples id' := by
  have hpush : (delta.push id name sample).samples = delta.samples.insert id
      { (delta.samples.lookup id).getD { metricName := name, points := [] } with
        points := ((delta.samples.lookup id).getD { metricName := name, points := [] }).points ++
          [sample] } := rfl
  rw [hpush, pointsOf]
  split
  · rename_i heq
    subst heq
    rw [AList.lookup_insert, pointsOf]
    cases delta.samples.lookup id' <;> rfl
  · rename_i hne
    rw [AList.lookup_insert_ne hne]
    rfl

theorem grown_push (hid : delta.lookup fp = some id) (hR : R fp sample) (name : String) :
    Grown R delta (delta.push id name sample) ∧ (delta.push id name sample).Pushed fp sample := by
  refine ⟨⟨fun _ _ h => h, fun id' p hp => ?_, fun id' p hp => ?_⟩, id, hid, ?_⟩
  · rw [pointsOf_push]
    split
    · exact mem_append_left _ hp
    · exact hp
  · rw [pointsOf_push] at hp
    split at hp
    · rename_i heq
      rcases mem_append.mp hp with hp | hp
      · exact .inl hp
      · exact .inr ⟨fp, mem_singleton.mp hp ▸ hR, heq ▸ hid⟩
    · exact .inl hp
  · rw [pointsOf_push, if_pos rfl]
    exact mem_append_right _ (mem_singleton.mpr rfl)

theorem grown_addSeries {spec} (hnone : delta.lookup fp = none) :
    Grown R delta (delta.addSeries fp spec) := by
  refine ⟨fun f id hid => ?_, fun _ _ hp => hp, fun _ _ hp => .inl hp⟩
  rw [lookup_addSeries, if_neg]
  · exact hid
  · rintro rfl
    rw [hnone] at hid
    cases hid

variable {labels : List Label} {unit : Option String} {metricType : Option MetricType}

theorem grown_ingestSample (hR : R (fingerprint crates labels) sample)
    (h : delta.ingestSample crates labels unit metricType sample = .ok delta') :
    Grown R delta delta' ∧ delta'.Pushed (fingerprint crates labels) sample := by
  rcases ingestSample_cases h with ⟨id, hid, rfl⟩ | ⟨hnone, rfl⟩
  · exact grown_push hid hR _
  · have hadded : Grown R delta
        (delta.addSeries (fingerprint crates labels) { unit, metricType, labels }) :=
      grown_addSeries hnone
    have hid : (delta.addSeries (fingerprint crates labels) { unit, metricType, labels }).lookup
        (fingerprint crates labels) = some delta.nextSeriesId := by
      rw [lookup_addSeries, if_pos rfl]
    obtain ⟨hgrown, hpushed⟩ := grown_push hid hR (metricName labels)
    exact ⟨hadded.trans hgrown, hpushed⟩

theorem grown_ingestSamples {samples}
    (hR : ∀ sample ∈ samples, R (fingerprint crates labels) sample) :
    Grown R delta (ingestSamples crates labels unit metricType delta samples).2 ∧
      ((ingestSamples crates labels unit metricType delta samples).1 = .ok () →
        ∀ sample ∈ samples, (ingestSamples crates labels unit metricType delta samples).2.Pushed
          (fingerprint crates labels) sample) := by
  induction samples generalizing delta with
  | nil => exact ⟨Grown.refl delta, by simp⟩
  | cons sample samples ih =>
    rw [ingestSamples]
    split
    · exact ⟨Grown.refl delta, by simp⟩
    · rename_i mid hmid
      obtain ⟨hfirst, hpushed⟩ := grown_ingestSample (hR sample mem_cons_self) hmid
      obtain ⟨hrest, hall⟩ := ih fun other hother => hR other (mem_cons_of_mem _ hother)
      refine ⟨hfirst.trans hrest, fun hok other hother => ?_⟩
      rcases mem_cons.mp hother with rfl | hother
      · exact hrest.pushed hpushed
      · exact hall hok other hother

theorem grown_apply (hR : ∀ series ∈ write, ∀ sample ∈ series.samples,
      R (fingerprint crates (sortLabels series.labels)) sample) :
    Grown R delta (delta.apply crates write).2 ∧
      ((delta.apply crates write).1 = .ok () → ∀ series ∈ write, ∀ sample ∈ series.samples,
        (delta.apply crates write).2.Pushed (fingerprint crates (sortLabels series.labels))
          sample) := by
  induction write generalizing delta with
  | nil => exact ⟨Grown.refl delta, by simp⟩
  | cons series write ih =>
    have hfirst : Grown R delta (delta.ingest crates series).2 ∧
        ((delta.ingest crates series).1 = .ok () → ∀ sample ∈ series.samples,
          (delta.ingest crates series).2.Pushed
            (fingerprint crates (sortLabels series.labels)) sample) :=
      grown_ingestSamples (hR series mem_cons_self)
    rw [apply]
    split
    · rename_i heq
      rw [heq] at hfirst
      exact ⟨hfirst.1, by simp⟩
    · rename_i mid heq
      rw [heq] at hfirst
      obtain ⟨hrest, hall⟩ := ih fun other hother => hR other (mem_cons_of_mem _ hother)
      refine ⟨hfirst.1.trans hrest, fun hok other hother sample hsample => ?_⟩
      rcases mem_cons.mp hother with rfl | hother
      · exact hrest.pushed (hfirst.2 rfl sample hsample)
      · exact hall hok other hother sample hsample

end TsdbWriteDelta

/-! ### The samples of a bucket -/

namespace Tsdb

variable {Q : List Label → Sample → Prop} {L : Finset (List Label)} {G G' : Catalog}
  {received : List (List Label × SeriesId)} {tsdb : MiniTsdb}

def FromSeries (Q : List Label → Sample → Prop) (G : Catalog) (id : SeriesId) (p : Sample) : Prop :=
  ∃ labels, G id = some labels ∧ Q labels p

theorem FromSeries.mono {p} (h : FromSeries Q G id p) (hle : G.Le G') :
    FromSeries Q G' id p := by
  obtain ⟨labels, hlabels, hQ⟩ := h
  exact ⟨labels, hle id labels hlabels, hQ⟩

/-- Every sample of the bucket was ingested for its series. -/
structure Genuine (crates : Crates) (bucket : TimeBucket) (Q : List Label → Sample → Prop)
    (G : Catalog) (storage : Storage) (tsdb : MiniTsdb) : Prop where
  delta : ∀ id, ∀ p ∈ pointsOf tsdb.delta.samples id, FromSeries Q G id p
  frozen : ∀ part ∈ tsdb.frozen, ∀ id, ∀ p ∈ pointsOf part.samples id, FromSeries Q G id p
  stored : ∀ name id, ∃ points, storedPoints crates storage bucket name id = .ok points ∧
    ∀ p ∈ points, FromSeries Q G id p

/-- All that is known of a bucket: its catalog, where its series are, and its samples. -/
structure Sound (crates : Crates) (bucket : TimeBucket) (L : Finset (List Label))
    (Q : List Label → Sample → Prop) (G : Catalog) (storage : Storage)
    (received : List (List Label × SeriesId)) (tsdb : MiniTsdb) : Prop where
  cataloged : Cataloged crates bucket (fun _ => True) L G storage received tsdb
  traced : Traced bucket G storage tsdb
  genuine : Genuine crates bucket Q G storage tsdb

theorem sound_load {context} (hstorage : NoRecords storage bucket)
    (hload : Timeseries.load storage bucket = .ok context) :
    Sound crates bucket L Q (fun _ => none) storage []
      { delta := .init context, frozen := [] } := by
  obtain ⟨hcataloged, htraced⟩ := cataloged_load hstorage hload
  refine ⟨hcataloged, htraced, ?_, by simp, fun name id => ⟨[], ?_, by simp⟩⟩
  · intro id p hp
    exact absurd hp not_mem_nil
  · have hnone : storage[timeSeriesKey bucket name id]? = none := by
      refine Option.eq_none_iff_forall_ne_some.mpr fun v hv => ?_
      refine hstorage _ (Storage.mem_of_getElem? hv) .timeSeries ?_
      rw [timeSeriesKey, append_assoc]
      exact prefix_append _ _
    rw [storedPoints, hnone]
    rfl

theorem Sound.ingest (hL : L.card < 2 ^ 32) (hinj : Set.InjOn (fingerprint crates) L)
    (h : Sound crates bucket L Q G storage received tsdb)
    (hwrite : ∀ series ∈ write, sortLabels series.labels ∈ L)
    (hQ : ∀ series ∈ write, ∀ sample ∈ series.samples, Q (sortLabels series.labels) sample) :
    ∃ G', Sound crates bucket L Q G' storage (received ++ write.filterMap fun series =>
          ((tsdb.delta.apply crates write).2.lookup
            (fingerprint crates (sortLabels series.labels))).map fun id =>
            (sortLabels series.labels, id))
        { tsdb with delta := (tsdb.delta.apply crates write).2 } := by
  obtain ⟨G', hcataloged, hle, htraced⟩ := h.cataloged.ingest hL hinj fun series hseries =>
    ⟨trivial, hwrite series hseries⟩
  refine ⟨G', hcataloged, htraced h.traced, ?_, ?_, ?_⟩
  · intro id p hp
    -- A sample was in the delta, or it comes from a series of the write.
    let R : SeriesFingerprint → Sample → Prop := fun fp p =>
      ∃ labels ∈ L, fingerprint crates labels = fp ∧ Q labels p
    obtain ⟨hgrown, -⟩ := TsdbWriteDelta.grown_apply (R := R) fun series hseries sample hsample =>
      ⟨_, hwrite series hseries, rfl, hQ series hseries sample hsample⟩
    rcases hgrown.comes id p hp with hp | ⟨fp, ⟨labels, hlabels, rfl, hQp⟩, hid⟩
    · exact (h.genuine.delta id p hp).mono hle
    · obtain ⟨labels', hlabels', hfp⟩ := (hcataloged.delta.lookup _ id).mp hid
      obtain rfl := hinj (hcataloged.delta.labels id labels' hlabels') hlabels hfp
      exact ⟨labels', hlabels', hQp⟩
  · exact fun part hpart id p hp => (h.genuine.frozen part hpart id p hp).mono hle
  · intro name id
    obtain ⟨points, hpoints, hfrom⟩ := h.genuine.stored name id
    exact ⟨points, hpoints, fun p hp => (hfrom p hp).mono hle⟩

theorem Sound.freeze (h : Sound crates bucket L Q G storage received tsdb) :
    Sound crates bucket L Q G storage received
      { delta := .init tsdb.delta.freeze.2, frozen := tsdb.frozen ++ [tsdb.delta.freeze.1] } := by
  obtain ⟨hcataloged, htraced⟩ := h.cataloged.freeze
  refine ⟨hcataloged, htraced h.traced, ?_, ?_, h.genuine.stored⟩
  · intro id p hp
    exact absurd hp not_mem_nil
  · intro part hpart
    rcases mem_append.mp hpart with hpart | hpart
    · exact h.genuine.frozen part hpart
    · rw [mem_singleton.mp hpart]
      exact h.genuine.delta

section

variable (hcrates : crates.RoundTrip) (h : Sound crates bucket L Q G storage received tsdb)
  {rest : List FrozenTsdbDelta} (hfrozen : tsdb.frozen = frozen :: rest)
  (hflush : flushDelta crates storage frozen = .ok storage')

include hcrates h hfrozen hflush

theorem Sound.flush : Sound crates bucket L Q G storage' received { tsdb with frozen := rest } := by
  obtain ⟨hcataloged, htraced⟩ := h.cataloged.flush hcrates hfrozen hflush
  refine ⟨hcataloged, htraced h.traced, h.genuine.delta,
    fun part hpart => h.genuine.frozen part (by simp [hfrozen, hpart]), fun name id => ?_⟩
  have hbucket := (h.cataloged.frozen frozen (by simp [hfrozen])).inBucket
  obtain ⟨old, hold, hfrom⟩ := h.genuine.stored name id
  obtain ⟨new, hnew, hmem, -⟩ := flushDelta_points hcrates hflush (hbucket ▸ hold)
  refine ⟨new, hbucket ▸ hnew, fun p hp => ?_⟩
  rcases hmem p hp with hp | hp
  · exact hfrom p hp
  · exact h.genuine.frozen frozen (by simp [hfrozen]) id p hp

end

theorem Sound.congr (h : Sound crates bucket L Q G storage received tsdb)
    (hsame : ∀ (t : RecordType) k, t.bucketScopedPrefix bucket <+: k → storage'[k]? = storage[k]?)
    (hlisted : bucketListContains bucket storage = .ok true →
      bucketListContains bucket storage' = .ok true) :
    Sound crates bucket L Q G storage' received tsdb := by
  have hmem : ∀ (t : RecordType) k, t.bucketScopedPrefix bucket <+: k →
      (k ∈ storage' ↔ k ∈ storage) := by
    intro t k hk
    rw [Storage.mem_iff_exists, Storage.mem_iff_exists, hsame t k hk]
  have hforward : ∀ id,
      forwardIndexKey bucket id ∈ storage' ↔ forwardIndexKey bucket id ∈ storage :=
    fun id => hmem .forwardIndex _ (prefix_append _ _)
  refine ⟨⟨h.cataloged.delta, h.cataloged.frozen, h.cataloged.stored.congr hsame hlisted,
    h.cataloged.received⟩, ⟨?_, ?_, ?_⟩, h.genuine.delta, h.genuine.frozen, ?_⟩
  · intro k hk hhead
    obtain ⟨id, labels, hid, hrest⟩ := h.traced.samples k ((hmem _ k hhead).mp hk) hhead
    exact ⟨id, labels, (hforward id).mpr hid, hrest⟩
  · exact h.traced.covered.mono fun id hid => (hforward id).mpr hid
  · exact fun id labels hid => (h.traced.complete id labels hid).imp_left (hforward id).mpr
  · intro name id
    rw [storedPoints_congr hsame]
    exact h.genuine.stored name id

/-! ### A sample reaches the store -/

def Reached (crates : Crates) (bucket : TimeBucket) (storage : Storage)
    (parts : List FrozenTsdbDelta) (labels : List Label) (id : SeriesId) (time : Int64) : Prop :=
  (∃ points, storedPoints crates storage bucket (metricName labels) id = .ok points ∧
      HasTime points time) ∨
    ∃ part ∈ parts, HasTime (pointsOf part.samples id) time

variable {parts parts' : List FrozenTsdbDelta} {labels : List Label} {id : SeriesId} {time : Int64}

theorem Reached.mono (h : Reached crates bucket storage parts labels id time)
    (hparts : ∀ part ∈ parts, part ∈ parts') :
    Reached crates bucket storage parts' labels id time :=
  h.imp_right fun ⟨part, hpart, htime⟩ => ⟨part, hparts part hpart, htime⟩

theorem Reached.congr (h : Reached crates bucket storage parts labels id time)
    (hsame : ∀ (t : RecordType) k, t.bucketScopedPrefix bucket <+: k → storage'[k]? = storage[k]?) :
    Reached crates bucket storage' parts labels id time := by
  rw [Reached, storedPoints_congr hsame]
  exact h

theorem Reached.flush (hcrates : crates.RoundTrip)
    (h : Sound crates bucket L Q G storage received tsdb) {rest}
    (hfrozen : tsdb.frozen = frozen :: rest)
    (hflush : flushDelta crates storage frozen = .ok storage') (hid : G id = some labels)
    (hreached : Reached crates bucket storage (frozen :: parts) labels id time) :
    Reached crates bucket storage' parts labels id time := by
  have hholds := h.cataloged.frozen frozen (by simp [hfrozen])
  obtain ⟨old, hold, -⟩ := h.genuine.stored (metricName labels) id
  obtain ⟨new, hnew, -, hkeeps, hcomes⟩ := flushDelta_points hcrates hflush
    (hholds.inBucket.symm ▸ hold)
  rw [hholds.inBucket] at hnew
  rcases hreached with ⟨points, hpoints, p, hp, rfl⟩ | ⟨part, hpart, p, hp, rfl⟩
  · obtain rfl := Except.ok.inj (hold.symm.trans hpoints)
    exact .inl ⟨new, hnew, hkeeps p hp⟩
  · rcases mem_cons.mp hpart with rfl | hpart
    · obtain ⟨entry, hentry, hp⟩ := exists_of_mem_pointsOf hp
      obtain ⟨labels', hlabels', hname⟩ := hholds.samples id entry hentry
      rw [hid, Option.some.injEq] at hlabels'
      exact .inl ⟨new, hnew, hcomes entry hentry (hlabels' ▸ hname) p hp⟩
    · exact .inr ⟨part, hpart, p, hp, rfl⟩

/-- The store has a sample of the time for the series, under its id in the dictionary, and this
sample belongs to the series. -/
def SampleStored (crates : Crates) (Q : List Label → Sample → Prop) (storage : Storage)
    (bucket : TimeBucket) (labels : List Label) (time : Int64) : Prop :=
  ∃ id points p, Stored storage bucket (fingerprint crates labels) id ∧
    storedPoints crates storage bucket (metricName labels) id = .ok points ∧ p ∈ points ∧
    p.timestampMs = time ∧ Q labels p

theorem Reached.sampleStored (h : Sound crates bucket L Q G storage received tsdb)
    (hid : G id = some labels) (hreached : Reached crates bucket storage [] labels id time) :
    SampleStored crates Q storage bucket labels time := by
  obtain ⟨points, hpoints, p, hp, htime⟩ := hreached.resolve_right (by simp)
  obtain ⟨points', hpoints', hfrom⟩ := h.genuine.stored (metricName labels) id
  obtain rfl := Except.ok.inj (hpoints.symm.trans hpoints')
  obtain ⟨labels', hlabels', hQ⟩ := hfrom p hp
  obtain rfl := Option.mem_unique hid hlabels'
  -- The record of the samples is stored, so that of the series is.
  have hkey : timeSeriesKey bucket (metricName labels) id ∈ storage := by
    rw [Storage.mem_iff_exists]
    cases hstored : storage[timeSeriesKey bucket (metricName labels) id]? with
    | some v => exact ⟨v, rfl⟩
    | none =>
      rw [storedPoints, hstored] at hpoints
      obtain rfl : [] = points := Except.ok.inj hpoints
      exact absurd hp not_mem_nil
  have hhead : RecordType.timeSeries.bucketScopedPrefix bucket <+:
      timeSeriesKey bucket (metricName labels) id := by
    rw [timeSeriesKey, append_assoc]
    exact prefix_append _ _
  obtain ⟨id', labels', hforward, -, heq⟩ := h.traced.samples _ hkey hhead
  obtain ⟨-, rfl⟩ := timeSeriesKey_inj heq
  exact ⟨id, points, p, (h.cataloged.stored.dictionary _ id).mpr ⟨hforward, labels, hid, rfl⟩,
    hpoints, hp, htime, hQ⟩

end Tsdb

end OpenData.Timeseries

import OpenData.Proofs.Timeseries.Merge
import OpenData.Proofs.Timeseries.SeriesIds

/-!
# The samples of a series through its flushes

The samples of one series arrive in some order and are flushed in groups. A reader should see each
time once, in order, with the value that came last, however the samples are grouped.

The store comes to hold `mergeGroups` (`caught_run`): the samples of a single group as they arrived,
and the merge of several. `mergeGroups_iff` states for which groups that is what a reader should
see, and `samples_read_back` what it does see.
-/

namespace OpenData.Timeseries

open Lib Common List Option

variable {crates : Crates} {bucket : TimeBucket}

/-- The bucket takes the sample. -/
def TimeBucket.Covers (bucket : TimeBucket) (sample : Sample) : Prop :=
  bucket.startMs ≤ sample.timestampMs ∧ sample.timestampMs < bucket.endMs

/-! ### The samples of a delta -/

namespace TsdbWriteDelta

variable {delta : TsdbWriteDelta} {id : SeriesId} {name : String}

/-- The samples of a series in the delta. -/
def pending (delta : TsdbWriteDelta) (id : SeriesId) (name : String) : SeriesSamples :=
  (delta.samples.lookup id).getD { metricName := name, points := [] }

def pushes (delta : TsdbWriteDelta) (id : SeriesId) (name : String) (samples : List Sample) :
    TsdbWriteDelta :=
  samples.foldl (fun delta sample => delta.push id name sample) delta

@[simp] theorem lookup_pushes (samples : List Sample) :
    (delta.pushes id name samples).lookup = delta.lookup := by
  induction samples generalizing delta with
  | nil => rfl
  | cons sample samples ih => exact ih

theorem pending_push (sample : Sample) : (delta.push id name sample).pending id name =
      { delta.pending id name with points := (delta.pending id name).points ++ [sample] } := by
  simp [pending, push]

theorem pending_pushes (samples : List Sample) : (delta.pushes id name samples).pending id name =
      { delta.pending id name with points := (delta.pending id name).points ++ samples } := by
  induction samples generalizing delta with
  | nil => simp [pushes]
  | cons sample samples ih =>
    show ((delta.push id name sample).pushes id name samples).pending id name = _
    rw [ih, pending_push, append_assoc]
    rfl

variable {samples : List Sample}

theorem samples_pushes (hdelta : delta.samples = ∅) (hne : samples ≠ []) :
    (delta.pushes id name samples).samples.lookup id =
      some { metricName := name, points := samples } := by
  have hpending : (delta.pushes id name samples).pending id name =
      { metricName := name, points := samples } := by
    rw [pending_pushes]
    simp [pending, hdelta]
  rw [pending] at hpending
  cases hlookup : (delta.pushes id name samples).samples.lookup id with
  | none =>
    rw [hlookup, getD_none, SeriesSamples.mk.injEq] at hpending
    exact absurd hpending.2.symm hne
  | some => rwa [hlookup, getD_some, ← Option.some.injEq] at hpending

section

variable {labels : List Label} {unit : Option String} {metricType : Option MetricType}

theorem ingestSample_of_covers {sample} (h : delta.bucket.Covers sample) :
    delta.ingestSample crates labels unit metricType sample =
      match delta.lookup (fingerprint crates labels) with
      | some id => .ok (delta.push id (metricName labels) sample)
      | none =>
        .ok ((delta.addSeries (fingerprint crates labels) { unit, metricType, labels }).push
          delta.nextSeriesId (metricName labels) sample) :=
  if_neg fun hout => hout.elim (Int64.not_lt.mpr h.1) (Int64.not_le.mpr h.2)

theorem ingestSamples_of_lookup (hcovers : ∀ sample ∈ samples, delta.bucket.Covers sample)
    (hid : delta.lookup (fingerprint crates labels) = some id) :
    ingestSamples crates labels unit metricType delta samples =
      (.ok (), delta.pushes id (metricName labels) samples) := by
  induction samples generalizing delta with
  | nil => rfl
  | cons sample samples ih =>
    rw [ingestSamples, ingestSample_of_covers (hcovers sample mem_cons_self), hid]
    exact ih (fun other hother => hcovers other (mem_cons_of_mem _ hother)) hid

/-- Samples that the bucket covers all arrive. The series of the samples is in the dictionary
behind them, and a series that was in it keeps its id. -/
theorem ingestSamples_of_covers (hne : samples ≠ [])
    (hcovers : ∀ sample ∈ samples, delta.bucket.Covers sample) (hdelta : delta.samples = ∅) :
    ∃ id, (ingestSamples crates labels unit metricType delta samples).2.lookup
          (fingerprint crates labels) = some id ∧
      (ingestSamples crates labels unit metricType delta samples).2.samples.lookup id =
        some { metricName := metricName labels, points := samples } := by
  cases hlookup : delta.lookup (fingerprint crates labels) with
  | some id =>
    rw [ingestSamples_of_lookup hcovers hlookup]
    exact ⟨id, by rw [lookup_pushes, hlookup], samples_pushes hdelta hne⟩
  | none =>
    cases samples with
    | nil => exact absurd rfl hne
    | cons sample samples =>
      -- The first sample adds the series, and the rest finds it.
      let added := delta.addSeries (fingerprint crates labels) { unit, metricType, labels }
      have hid : added.lookup (fingerprint crates labels) = some delta.nextSeriesId := by
        rw [lookup_addSeries, if_pos rfl]
      have hall : ingestSamples crates labels unit metricType delta (sample :: samples) =
          (.ok (), added.pushes delta.nextSeriesId (metricName labels) (sample :: samples)) := by
        rw [ingestSamples, ingestSample_of_covers (hcovers sample mem_cons_self), hlookup]
        exact ingestSamples_of_lookup
          (fun other hother => hcovers other (mem_cons_of_mem _ hother)) hid
      rw [hall]
      exact ⟨_, by rw [lookup_pushes, hid], samples_pushes hdelta hne⟩

end

theorem ingest_of_covers (crates : Crates) (series : Series) (hne : series.samples ≠ [])
    (hcovers : ∀ sample ∈ series.samples, delta.bucket.Covers sample) (hdelta : delta.samples = ∅) :
    ∃ id, (delta.ingest crates series).2.lookup (fingerprint crates (sortLabels series.labels)) =
        some id ∧ (delta.ingest crates series).2.samples.lookup id =
        some { metricName := metricName (sortLabels series.labels), points := series.samples } :=
  ingestSamples_of_covers hne hcovers hdelta

end TsdbWriteDelta

/-! ### The stored samples -/

def time (sample : Sample) : Int := sample.timestampMs.toInt

/-- The groups that have samples. -/
def present (groups : List (List Sample)) : List (List Sample) := groups.filter fun g => !g.isEmpty

/-- What the store comes to hold: the only group as it arrived, and the merge of several. -/
def mergeGroups (groups : List (List Sample)) : List Sample :=
  match present groups with
  | [group] => group
  | sources => lastWinsMerge time sources

section

variable {groups : List (List Sample)} {group : List Sample}

theorem present_snoc (hne : group ≠ []) :
    present (groups ++ [group]) = present groups ++ [group] := by
  simp [present, filter_append, hne]

theorem present_snoc_nil : present (groups ++ [[]]) = present groups := by
  simp [present, filter_append]

theorem mergeGroups_snoc (hgroups : present groups ≠ []) (hne : group ≠ []) :
    mergeGroups (groups ++ [group]) = lastWinsMerge time [mergeGroups groups, group] := by
  rw [mergeGroups, mergeGroups, present_snoc hne]
  match present groups, hgroups with
  | [first], _ => rfl
  | first :: second :: rest, _ =>
    show lastWinsMerge time ((first :: second :: rest) ++ [group]) =
      lastWinsMerge time [lastWinsMerge time (first :: second :: rest), group]
    refine eq_of_find?_eq (pairwise_lastWinsMerge _) (pairwise_lastWinsMerge _) fun k => ?_
    rw [find?_lastWinsMerge, find?_lastWinsMerge, lastWins_append]
    simp only [lastWins, find?_lastWinsMerge, Option.none_or]

end

/-- The store holds the merge of the groups under the key, if one of them has samples. Samples that
were stored are never an empty value, which the reader rejects. -/
inductive HoldsMerge (crates : Crates) (storage : Storage) (key : Bytes)
    (groups : List (List Sample)) : Prop
  | absent (hgroups : present groups = []) (hnone : storage[key]? = none)
  | stored (value : Bytes) (hgroups : present groups ≠ []) (hvalue : storage[key]? = some value)
      (hne : value ≠ []) (hdecode : TimeSeriesValue.decode crates value = .ok (mergeGroups groups))

section

variable {storage storage' : Storage} {groups : List (List Sample)} {group : List Sample}

theorem HoldsMerge.snoc {key} (hcrates : crates.RoundTrip)
    (h : HoldsMerge crates storage key groups) (hne : group ≠ []) {value}
    (hmerge : mergeBatchTimeSeries crates storage[key]? [TimeSeriesValue.encode crates group] =
      .ok value)
    (hvalue : storage'[key]? = some value) :
    HoldsMerge crates storage' key (groups ++ [group]) := by
  have hpresent : present (groups ++ [group]) ≠ [] := by
    rw [present_snoc hne]
    simp
  rw [TimeSeriesValue.encode, if_neg hne] at hmerge
  have hencoded := hcrates.tsz_ne_nil group hne
  cases h with
  | absent hgroups hnone =>
    -- The only source is taken as it is.
    have hsources : mergeBatchTimeSeries crates storage[key]? [crates.tszEncode group] =
        .ok (crates.tszEncode group) := by
      simp [mergeBatchTimeSeries, hnone, hencoded, mergeSources]
    obtain rfl := Except.ok.inj (hmerge.symm.trans hsources)
    refine .stored _ hpresent hvalue hencoded ?_
    rw [decode_tszEncode hcrates hne, mergeGroups, present_snoc hne, hgroups]
    rfl
  | stored old hgroups hold holdne hdecode =>
    have hmerged : lastWinsMerge time [mergeGroups groups, group] ≠ [] := fun hnil =>
      hne (lastWinsMerge_eq_nil_iff.mp hnil group (by simp))
    have hsources : mergeBatchTimeSeries crates storage[key]? [crates.tszEncode group] =
        .ok (crates.tszEncode (lastWinsMerge time [mergeGroups groups, group])) := by
      have hgroup := decode_tszEncode hcrates hne
      rw [TimeSeriesValue.decode, if_neg hencoded] at hgroup
      rw [TimeSeriesValue.decode, if_neg holdne] at hdecode
      have hfilter : (storage[key]?.toList ++ [crates.tszEncode group]).filter
          (fun source => !source.isEmpty) = [old, crates.tszEncode group] := by
        simp [hold, holdne, hencoded]
      rw [mergeBatchTimeSeries, hfilter]
      simp only [mergeSources, mapM_cons, mapM_nil, hdecode, hgroup]
      exact if_neg (by simp [hne])
    obtain rfl := Except.ok.inj (hmerge.symm.trans hsources)
    refine .stored _ hpresent hvalue (hcrates.tsz_ne_nil _ hmerged) ?_
    rw [decode_tszEncode hcrates hmerged, mergeGroups_snoc hgroups hne]

theorem HoldsMerge.snoc_nil {key} (h : HoldsMerge crates storage key groups)
    (hsame : storage'[key]? = storage[key]?) : HoldsMerge crates storage' key (groups ++ [[]]) := by
  cases h with
  | absent hgroups hnone => exact .absent (present_snoc_nil.trans hgroups) (hsame.trans hnone)
  | stored value hgroups hvalue hne hdecode =>
    refine .stored value (by rwa [present_snoc_nil]) (hsame.trans hvalue) hne ?_
    rw [hdecode, mergeGroups, mergeGroups, present_snoc_nil]

theorem HoldsMerge.flush {frozen id name} (hcrates : crates.RoundTrip)
    (h : HoldsMerge crates storage (timeSeriesKey frozen.bucket name id) groups)
    (hsamples : frozen.samples.lookup id =
      if group = [] then none else some { metricName := name, points := group })
    (hflush : flushDelta crates storage frozen = .ok storage') :
    HoldsMerge crates storage' (timeSeriesKey frozen.bucket name id) (groups ++ [group]) := by
  by_cases hne : group = []
  · rw [if_pos hne] at hsamples
    rw [hne]
    exact h.snoc_nil (flushDelta_samples_of_none hflush hsamples name)
  · rw [if_neg hne] at hsamples
    obtain ⟨value, hmerge, hstored⟩ := flushDelta_samples hflush hsamples
    exact h.snoc hcrates hne hmerge hstored

theorem HoldsMerge.query {id name}
    (h : HoldsMerge crates storage (timeSeriesKey bucket name id) groups) (startMs endMs : Int64) :
    querySamples crates storage bucket id name startMs endMs =
      .ok ((mergeGroups groups).filter fun s =>
        startMs < s.timestampMs ∧ s.timestampMs ≤ endMs) := by
  rw [querySamples]
  cases h with
  | absent hgroups hnone =>
    rw [hnone, mergeGroups, hgroups]
    rfl
  | stored value hgroups hvalue hne hdecode =>
    rw [TimeSeriesValue.decode, if_neg hne] at hdecode
    simp only [hvalue, if_neg hne, filterMap_toOption_of_mapM hdecode]

end

/-! ### Rounds -/

namespace Tsdb

/-- A flush takes the write of its delta. -/
def successful (crates : Crates) (s : State) : Op → Prop
  | .flush ok => ok = true ∧ ∀ tsdb ∈ s.tsdb, ∀ frozen ∈ tsdb.frozen.head?,
      (flushDelta crates s.storage frozen).isOk = true
  | _ => True

instance (crates : Crates) (s : State) : DecidablePred (successful crates s)
  | .flush ok =>
    inferInstanceAs (Decidable (ok = true ∧ ∀ tsdb ∈ s.tsdb, ∀ frozen ∈ tsdb.frozen.head?,
      (flushDelta crates s.storage frozen).isOk = true))
  | .load | .ingest _ | .freeze | .drop => .isTrue trivial

def roundOps (series : Series) (group : List Sample) : List Op :=
  [.ingest [{ series with samples := group }], .freeze, .flush true]

/-- The bucket is loaded, and the groups follow. -/
def groupOps (series : Series) (groups : List (List Sample)) : List Op :=
  .load :: groups.flatMap (roundOps series)

theorem apply_singleton (delta : TsdbWriteDelta) (series : Series) :
    (delta.apply crates [series]).2 = (delta.ingest crates series).2 := by
  rw [TsdbWriteDelta.apply]
  cases delta.ingest crates series with
  | mk result => cases result <;> rfl

variable {series : Series} {s : State}

theorem exists_of_round {s1 s2 s3 tsdb} (htsdb : s.tsdb = some tsdb) (hfrozen : tsdb.frozen = [])
    (hingest : s.step crates bucket (.ingest [series]) = some s1)
    (hfreeze : s1.step crates bucket .freeze = some s2) (hok : successful crates s2 (.flush true))
    (hflush : s2.step crates bucket (.flush true) = some s3) :
    ∃ storage, flushDelta crates s.storage (tsdb.delta.ingest crates series).2.freeze.1 =
        .ok storage ∧
      s3 = { s with
        storage
        tsdb := some { delta := .init (tsdb.delta.ingest crates series).2.freeze.2, frozen := [] }
        received := s.received ++ (((tsdb.delta.ingest crates series).2.lookup
          (fingerprint crates (sortLabels series.labels))).map fun id =>
            (sortLabels series.labels, id)).toList } := by
  rw [← apply_singleton]
  obtain rfl : _ = s1 := by simpa [State.step, htsdb] using hingest
  obtain rfl : _ = s2 := by simpa [State.step] using hfreeze
  cases hresult : flushDelta crates s.storage (tsdb.delta.apply crates [series]).2.freeze.1 with
  | error =>
    have hisOk := hok.2 _ rfl _ (by rw [hfrozen]; rfl)
    rw [hresult] at hisOk
    exact absurd hisOk Bool.false_ne_true
  | ok storage =>
    refine ⟨storage, rfl, ?_⟩
    have hstep := hflush
    simp only [State.step, hfrozen, nil_append, bind_eq_bind, bind_some,
      hresult, if_true, Option.some.injEq] at hstep
    rw [← hstep, filterMap_cons, filterMap_nil]
    cases (tsdb.delta.apply crates [series]).2.lookup
      (fingerprint crates (sortLabels series.labels)) <;> rfl

/-- Every sample so far is in the store. The series may not have an id yet, and the store is then
empty for every id. -/
structure Caught (crates : Crates) (bucket : TimeBucket) (series : Series)
    (groups : List (List Sample)) (s : State) (tsdb : MiniTsdb) : Prop where
  opened : s.tsdb = some tsdb
  frozen : tsdb.frozen = []
  inBucket : tsdb.delta.bucket = bucket
  samples : tsdb.delta.samples = ∅
  received : ∀ id, (sortLabels series.labels, id) ∈ s.received ↔
    tsdb.delta.lookup (fingerprint crates (sortLabels series.labels)) = some id
  known : groups.flatten ≠ [] →
    (tsdb.delta.lookup (fingerprint crates (sortLabels series.labels))).isSome
  holds : ∀ id, (∀ id' ∈ tsdb.delta.lookup (fingerprint crates (sortLabels series.labels)),
      id' = id) →
    HoldsMerge crates s.storage
      (timeSeriesKey bucket (metricName (sortLabels series.labels)) id) groups

theorem caught_load {storage} (hstorage : NoRecords storage bucket)
    (hstep : (State.init storage).step crates bucket .load = some s) :
    ∃ tsdb, Caught crates bucket series [] s tsdb := by
  cases move_of_step hstep with
  | @load context _ hload =>
    have hinit : IdInvariant crates bucket (State.init storage) := idInvariant_init hstorage
    obtain ⟨context', hload', hbucket, hlookup, -⟩ := load_spec hinit.records
    obtain rfl := Except.ok.inj (hload.symm.trans hload')
    have hnone : (TsdbWriteDelta.init context).lookup
        (fingerprint crates (sortLabels series.labels)) = none := by
      rw [TsdbWriteDelta.lookup_init]
      refine eq_none_iff_forall_ne_some.mpr fun id hid => ?_
      exact not_stored_of_noRecords hstorage _ id ((hlookup _ id).mp hid)
    refine ⟨_, rfl, rfl, hbucket, rfl, by simp [hnone], by simp, fun id _ => ?_⟩
    refine .absent rfl (eq_none_iff_forall_ne_some.mpr fun value hvalue => ?_)
    refine hstorage _ (Storage.mem_of_getElem? hvalue) .timeSeries ?_
    rw [timeSeriesKey, append_assoc]
    exact prefix_append _ _

section

variable {series : Series} {groups : List (List Sample)} {group : List Sample} {s s1 s2 s3 : State}
  {tsdb : MiniTsdb}

theorem Caught.round (h : Caught crates bucket series groups s tsdb) (hcrates : crates.RoundTrip)
    (hcovers : ∀ sample ∈ group, bucket.Covers sample)
    (hingest : s.step crates bucket (.ingest [{ series with samples := group }]) = some s1)
    (hfreeze : s1.step crates bucket .freeze = some s2) (hok : successful crates s2 (.flush true))
    (hflush : s2.step crates bucket (.flush true) = some s3) :
    ∃ tsdb', Caught crates bucket series (groups ++ [group]) s3 tsdb' := by
  obtain ⟨storage, hstorage, rfl⟩ := exists_of_round h.opened h.frozen hingest hfreeze hok hflush
  obtain ⟨hdict, hbucket⟩ := TsdbWriteDelta.dictStep_ingest crates tsdb.delta
    { series with samples := group }
  have hextends := hdict.extends (fingerprint crates (sortLabels series.labels))
  have hlookup := TsdbWriteDelta.lookup_init_freeze
    (tsdb.delta.ingest crates { series with samples := group }).2
  -- Samples that arrive give the series an id and are all at the flusher.
  have harrived := fun hne : group ≠ [] => TsdbWriteDelta.ingest_of_covers crates
    { series with samples := group } hne (h.inBucket ▸ hcovers) h.samples
  refine ⟨_, rfl, rfl, hbucket.trans h.inBucket, rfl, fun id => ?_, fun hne => ?_, fun id hid => ?_⟩
  · rw [hlookup, mem_append, h.received, mem_toList, map_eq_some_iff]
    constructor
    · rintro (hid | ⟨id', hid, heq⟩)
      · exact hextends id hid
      · rwa [← (Prod.mk.inj heq).2]
    · exact fun hid => .inr ⟨id, hid, rfl⟩
  · rw [hlookup]
    by_cases hnil : group = []
    · obtain ⟨id, hid⟩ := isSome_iff_exists.mp (h.known (by simpa [hnil] using hne))
      rw [hextends id hid]
      rfl
    · obtain ⟨id, hid, -⟩ := harrived hnil
      exact isSome_iff_exists.mpr ⟨id, hid⟩
  · rw [hlookup] at hid
    have hholds := h.holds id fun id' hid' => hid id' (hextends id' hid')
    have hfrozen : (tsdb.delta.ingest crates { series with samples := group }).2.freeze.1.bucket =
        bucket := hbucket.trans h.inBucket
    rw [← hfrozen] at hholds ⊢
    refine hholds.flush hcrates ?_ hstorage
    split
    · rename_i hnil
      subst hnil
      show AList.lookup id tsdb.delta.samples = none
      rw [h.samples]
      rfl
    · rename_i hne
      obtain ⟨id', hid', hsamples⟩ := harrived hne
      obtain rfl := hid id' hid'
      exact hsamples

theorem roundOps_append (ops : List Op) : ops ++ roundOps series group =
      ops ++ [.ingest [{ series with samples := group }]] ++ [.freeze] ++ [.flush true] := by
  simp [roundOps]

end

theorem caught_run (hcrates : crates.RoundTrip) {storage}
    (hstorage : NoRecords storage bucket) {groups}
    (hcovers : ∀ g ∈ groups, ∀ sample ∈ g, bucket.Covers sample)
    (hrun : Run (State.step crates bucket) (successful crates) (State.init storage)
      (groupOps series groups) s) : ∃ tsdb, Caught crates bucket series groups s tsdb := by
  induction groups using List.reverseRecOn generalizing s with
  | nil =>
    have hload : Run (State.step crates bucket) (successful crates) (State.init storage)
        ([] ++ [.load]) s := hrun
    obtain ⟨s0, hinit, -, hstep⟩ := hload.exists_of_snoc
    exact caught_load hstorage (hinit.eq_of_nil ▸ hstep)
  | append_singleton groups group ih =>
    have hops : groupOps series (groups ++ [group]) =
        groupOps series groups ++ roundOps series group := by
      simp [groupOps]
    rw [hops, roundOps_append] at hrun
    obtain ⟨s2, hrun, hok, hflush⟩ := hrun.exists_of_snoc
    obtain ⟨s1, hrun, -, hfreeze⟩ := hrun.exists_of_snoc
    obtain ⟨s0, hrun, -, hingest⟩ := hrun.exists_of_snoc
    obtain ⟨tsdb, hcaught⟩ := ih (fun g hg => hcovers g (mem_append_left _ hg)) hrun
    exact hcaught.round hcrates (hcovers group (by simp)) hingest hfreeze hok hflush

/-! ### What is read back -/

/-- In the last group with a sample of some time, the first and the last sample of that time are the
same. -/
def FirstIsLast : List (List Sample) → Prop
  | [] => True
  | group :: later => FirstIsLast later ∧ ∀ t, (∀ sample ∈ later.flatten, sample.timestampMs ≠ t) →
      group.find? (·.timestampMs = t) = group.reverse.find? (·.timestampMs = t)

/-- The groups that the store merges as it should. The order within a group matters only where no
other group has samples. -/
structure Orderly (groups : List (List Sample)) : Prop where
  only : ∀ group, present groups = [group] → Increasing group
  firstIsLast : FirstIsLast groups

/-- The samples of a range in the order of their times, for each time the one that came last. -/
def ReadsBack (groups : List (List Sample))
    (read : Int64 → Int64 → Except String (List Sample)) : Prop :=
  ∀ startMs endMs, ∃ out, read startMs endMs = .ok out ∧ Increasing out ∧ ∀ sample, sample ∈ out ↔
    (startMs < sample.timestampMs ∧ sample.timestampMs ≤ endMs) ∧
      groups.flatten.reverse.find? (·.timestampMs = sample.timestampMs) = some sample

variable {groups : List (List Sample)}

theorem find?_time (l : List Sample) (t : Int64) :
    l.find? (time · = t.toInt) = l.find? (·.timestampMs = t) := by
  simp only [time, Int64.toInt_inj]

theorem firstIsLast_iff : FirstIsLast groups ↔
    ∀ t : Int64, lastWins time t.toInt groups =
      groups.flatten.reverse.find? (·.timestampMs = t) := by
  induction groups with
  | nil => simp [FirstIsLast, lastWins]
  | cons group later ih =>
    rw [FirstIsLast, ih, ← forall_and]
    refine forall_congr' fun t => ?_
    rw [lastWins, flatten_cons, reverse_append, find?_append, find?_time]
    have hnone : (∀ sample ∈ later.flatten, sample.timestampMs ≠ t) ↔
        later.flatten.reverse.find? (·.timestampMs = t) = none := by
      simp [find?_eq_none]
    rw [hnone]
    -- What a later group has of the time hides the group.
    have hlater : lastWins time t.toInt later = none ↔
        later.flatten.reverse.find? (·.timestampMs = t) = none := by
      rw [lastWins_eq_none_iff, ← hnone]
      simp only [find?_time, find?_eq_none, decide_eq_true_eq, mem_flatten]
      constructor
      · rintro h sample ⟨g, hg, hs⟩
        exact h g hg sample hs
      · intro h g hg s hs
        exact h s ⟨g, hg, hs⟩
    cases hmerged : lastWins time t.toInt later with
    | none =>
      rw [hlater.mp hmerged]
      simp
    | some a =>
      cases hread : later.flatten.reverse.find? (·.timestampMs = t) with
      | none => exact absurd (hlater.mpr hread) (by simp [hmerged])
      | some b => simp

theorem mem_lastWinsMerge_present_iff : (∀ sample, sample ∈ lastWinsMerge time (present groups) ↔
      groups.flatten.reverse.find? (·.timestampMs = sample.timestampMs) = some sample) ↔
    FirstIsLast groups := by
  have hfind (t : Int64) : (lastWinsMerge time (present groups)).find? (·.timestampMs = t) =
      lastWins time t.toInt groups := by
    rw [← find?_time, find?_lastWinsMerge]
    simpa [present] using lastWins_map_filter t.toInt (fun g => !g.isEmpty) id (by simp) groups
  have hmem (sample : Sample) : sample ∈ lastWinsMerge time (present groups) ↔
      lastWins time sample.timestampMs.toInt groups = some sample := by
    rw [← hfind, ← find?_time]
    exact ⟨find?_of_mem (pairwise_lastWinsMerge _), mem_of_find?_eq_some⟩
  rw [firstIsLast_iff]
  simp only [hmem]
  constructor
  · intro h t
    ext sample
    constructor
    · intro hsome
      obtain rfl : sample.timestampMs = t := by
        simpa using find?_some ((hfind t).trans hsome)
      exact (h sample).mp hsome
    · intro hsome
      obtain rfl : sample.timestampMs = t := by simpa using find?_some hsome
      exact (h sample).mpr hsome
  · intro h sample
    rw [h]

theorem mergeGroups_of_only (h : ∀ group, present groups = [group] → Increasing group) :
    mergeGroups groups = lastWinsMerge time (present groups) := by
  rw [mergeGroups]
  split
  next group hgroup =>
    rw [hgroup]
    exact (lastWinsMerge_singleton (show group.Pairwise (time · < time ·) from h group hgroup)).symm
  next => rfl

/-- The merge has the times in order and the last sample of each exactly when the groups are
orderly. -/
theorem mergeGroups_iff : (Increasing (mergeGroups groups) ∧ ∀ sample, sample ∈ mergeGroups groups ↔
      groups.flatten.reverse.find? (·.timestampMs = sample.timestampMs) = some sample) ↔
    Orderly groups := by
  constructor
  · rintro ⟨hincreasing, hmem⟩
    have honly : ∀ group, present groups = [group] → Increasing group := by
      intro group hgroup
      rwa [mergeGroups, hgroup] at hincreasing
    rw [mergeGroups_of_only honly] at hmem
    exact ⟨honly, mem_lastWinsMerge_present_iff.mp hmem⟩
  · rintro ⟨honly, hfirst⟩
    rw [mergeGroups_of_only honly]
    exact ⟨pairwise_lastWinsMerge _, mem_lastWinsMerge_present_iff.mpr hfirst⟩

theorem mem_flatten_of_mem_mergeGroups {sample : Sample} (h : sample ∈ mergeGroups groups) :
    sample ∈ groups.flatten := by
  rw [← flatten_filter_not_isEmpty]
  show sample ∈ (present groups).flatten
  rw [mergeGroups] at h
  split at h
  next group hgroup => simpa [hgroup] using h
  next => exact mem_flatten_of_mem_lastWinsMerge h

theorem minValue_lt_startMs (bucket : TimeBucket) : Int64.minValue < bucket.startMs := by
  have hstart : bucket.startMs = Int64.ofNat (bucket.start.toNat * 60 * 1000) := by
    rw [TimeBucket.startMs, Int64.ofNat_mul, Int64.ofNat_mul]
    rfl
  have hlt := bucket.start.toNat_lt
  rw [hstart, Int64.lt_iff_toInt_lt, Int64.toInt_ofNat_of_lt (by omega)]
  show (-2 ^ 63 : Int) < _
  omega

/-- In every run that ingests groups of samples of one series, each flushed before the next and
every flush successful, the reader returns what was ingested last exactly when the groups are
orderly. -/
theorem samples_read_back (hcrates : crates.RoundTrip) {storage : Storage}
    (hstorage : NoRecords storage bucket) {series : Series} {groups : List (List Sample)}
    (hcovers : ∀ g ∈ groups, ∀ sample ∈ g, bucket.Covers sample) {s : State}
    (hrun : Run (State.step crates bucket) (successful crates) (State.init storage)
      (groupOps series groups) s) :
    (groups.flatten ≠ [] → ∃ id, (sortLabels series.labels, id) ∈ s.received) ∧
      ∀ id, (sortLabels series.labels, id) ∈ s.received →
        (ReadsBack groups (querySamples crates s.storage bucket id
          (metricName (sortLabels series.labels))) ↔ Orderly groups) := by
  obtain ⟨tsdb, hcaught⟩ := caught_run hcrates hstorage hcovers hrun
  constructor
  · intro hne
    obtain ⟨id, hid⟩ := isSome_iff_exists.mp (hcaught.known hne)
    exact ⟨id, (hcaught.received id).mpr hid⟩
  · intro id hid
    have hholds := hcaught.holds id fun id' hid' =>
      Option.some.inj (hid'.symm.trans ((hcaught.received id).mp hid))
    rw [← mergeGroups_iff]
    constructor
    · intro h
      obtain ⟨out, hout, hincreasing, hmem⟩ := h Int64.minValue Int64.maxValue
      obtain rfl := Except.ok.inj ((hholds.query _ _).symm.trans hout)
      -- The range holds every sample of the bucket.
      have hrange : ∀ sample ∈ groups.flatten, Int64.minValue < sample.timestampMs ∧
          sample.timestampMs ≤ Int64.maxValue := by
        intro sample hsample
        obtain ⟨g, hg, hsample⟩ := mem_flatten.mp hsample
        exact ⟨Int64.lt_of_lt_of_le (minValue_lt_startMs bucket) (hcovers g hg sample hsample).1,
          Int64.le_maxValue _⟩
      rw [filter_eq_self.mpr fun sample hsample =>
        decide_eq_true (hrange sample (mem_flatten_of_mem_mergeGroups hsample))] at hincreasing hmem
      refine ⟨hincreasing, fun sample => (hmem sample).trans (and_iff_right_of_imp fun hread => ?_)⟩
      exact hrange sample (mem_reverse.mp (mem_of_find?_eq_some hread))
    · rintro ⟨hincreasing, hmem⟩ startMs endMs
      refine ⟨_, hholds.query startMs endMs, hincreasing.filter _, fun sample => ?_⟩
      rw [mem_filter, hmem, and_comm, decide_eq_true_eq]

def overwrittenGroups : List (List Sample) :=
  [[⟨3, 7⟩], [⟨2, 8⟩, ⟨1, 8⟩, ⟨3, 8⟩]]

/-- With samples in two groups the times of a group may come in any order. -/
theorem samples_read_back_overwritten :
    ∃ s, Run (State.step plainCrates (.hour 0)) (successful plainCrates) (State.init ∅)
        (groupOps (gauge [⟨"a", "x"⟩] []) overwrittenGroups) s ∧
      ∃ id, ([⟨"a", "x"⟩], id) ∈ s.received ∧
        ReadsBack overwrittenGroups (querySamples plainCrates s.storage (.hour 0) id "") := by
  obtain ⟨s, hrun, -⟩ : ∃ s, Run (State.step plainCrates (.hour 0)) (successful plainCrates)
      (State.init ∅) (groupOps (gauge [⟨"a", "x"⟩] []) overwrittenGroups) s ∧ True :=
    Run.exists_of_check (by decide +kernel)
  have horderly : Orderly overwrittenGroups := by
    refine ⟨by simp [overwrittenGroups, present], ⟨trivial, fun t _ => ?_⟩, fun t _ => rfl⟩
    simp only [reverse_cons, reverse_nil, nil_append, cons_append, find?_cons, find?_nil]
    by_cases h1 : (1 : Int64) = t
    · subst h1
      rfl
    · by_cases h2 : (2 : Int64) = t <;> by_cases h3 : (3 : Int64) = t <;> simp [h1, h2, h3]
  obtain ⟨hreceived, hread⟩ := samples_read_back (Crates.fixedWidth_roundTrip _) (noRecords_empty _)
    (by simp only [TimeBucket.Covers]; decide) hrun
  obtain ⟨id, hid⟩ := hreceived (by decide)
  exact ⟨s, hrun, id, hid, (hread id hid).mpr horderly⟩

/-- One flush of two samples, the later one first: they are read back as they arrived. In two
flushes they are read back in order. -/
theorem flush_keeps_order : ∃ s s', Run (State.step plainCrates (.hour 0)) anyStep (State.init ∅)
        (groupOps (gauge [⟨"a", "x"⟩] []) [[⟨2, 7⟩, ⟨1, 7⟩]]) s ∧
      Run (State.step plainCrates (.hour 0)) anyStep (State.init ∅)
        (groupOps (gauge [⟨"a", "x"⟩] []) [[⟨2, 7⟩], [⟨1, 7⟩]]) s' ∧
      ([⟨"a", "x"⟩], 0) ∈ s.received ∧ ([⟨"a", "x"⟩], 0) ∈ s'.received ∧
      querySamples plainCrates s.storage (.hour 0) 0 "" 0 5 = .ok [⟨2, 7⟩, ⟨1, 7⟩] ∧
      querySamples plainCrates s'.storage (.hour 0) 0 "" 0 5 = .ok [⟨1, 7⟩, ⟨2, 7⟩] := by
  obtain ⟨s, hrun, hreceived, hquery⟩ : ∃ s, Run (State.step plainCrates (.hour 0)) anyStep
      (State.init ∅) (groupOps (gauge [⟨"a", "x"⟩] []) [[⟨2, 7⟩, ⟨1, 7⟩]]) s ∧
      ([⟨"a", "x"⟩], 0) ∈ s.received ∧
      querySamples plainCrates s.storage (.hour 0) 0 "" 0 5 = .ok [⟨2, 7⟩, ⟨1, 7⟩] :=
    Run.exists_of_check (by decide +kernel)
  obtain ⟨s', hrun', hreceived', hquery'⟩ : ∃ s, Run (State.step plainCrates (.hour 0)) anyStep
      (State.init ∅) (groupOps (gauge [⟨"a", "x"⟩] []) [[⟨2, 7⟩], [⟨1, 7⟩]]) s ∧
      ([⟨"a", "x"⟩], 0) ∈ s.received ∧
      querySamples plainCrates s.storage (.hour 0) 0 "" 0 5 = .ok [⟨1, 7⟩, ⟨2, 7⟩] :=
    Run.exists_of_check (by decide +kernel)
  exact ⟨s, s', hrun, hrun', hreceived, hreceived', hquery, hquery'⟩

end Tsdb

end OpenData.Timeseries

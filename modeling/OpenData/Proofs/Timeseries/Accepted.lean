import OpenData.Proofs.Timeseries.Bucket

/-!
# From an accepted write to its records

`Tsdb::ingest_samples` takes labels of any length, and the flusher writes their lengths in two
bytes. A label that is too long is accepted and makes every later flush of its delta panic
(`accepted_writes_flush`, `flush_panics_on_long_label`).
-/

namespace OpenData.Timeseries

open Lib Common List Option ForwardIndexValue

/-! ### The buckets of a write -/

variable {groups : AList fun _ : TimeBucket => List Series} {seriesList : List Series}

section

theorem mem_splitSamples {samples split} (h : splitSamples samples = .ok split) :
    (∀ sample ∈ samples, ∃ bucket, TimeBucket.roundToHour sample.timestampMs = .ok bucket) ∧
      ∀ bucket sample, sample ∈ (split.lookup bucket).getD [] ↔
        sample ∈ samples ∧ TimeBucket.roundToHour sample.timestampMs = .ok bucket := by
  refine foldlM_history (I := fun samples (split : AList fun _ : TimeBucket => List Sample) =>
    (∀ sample ∈ samples, ∃ bucket, TimeBucket.roundToHour sample.timestampMs = .ok bucket) ∧
      ∀ bucket sample, sample ∈ (split.lookup bucket).getD [] ↔
        sample ∈ samples ∧ TimeBucket.roundToHour sample.timestampMs = .ok bucket) h
    ⟨by simp, by simp⟩ ?_
  rintro samples split sample split' ⟨hall, hmem⟩ hround
  obtain ⟨bucket, hbucket, hround⟩ := exists_of_bind_eq_ok hround
  cases hround
  constructor
  · intro other hother
    rcases mem_append.mp hother with hother | hother
    · exact hall other hother
    · exact ⟨bucket, mem_singleton.mp hother ▸ hbucket⟩
  · intro bucket' other
    rw [mem_append, mem_singleton]
    by_cases heq : bucket' = bucket
    · subst heq
      rw [AList.lookup_insert, getD_some, mem_append, mem_singleton, hmem]
      constructor
      · rintro (hother | rfl)
        · exact ⟨.inl hother.1, hother.2⟩
        · exact ⟨.inr rfl, hbucket⟩
      · rintro ⟨hother | rfl, hhour⟩
        · exact .inl ⟨hother, hhour⟩
        · exact .inr rfl
    · rw [AList.lookup_insert_ne heq, hmem]
      constructor
      · exact fun hother => ⟨.inl hother.1, hother.2⟩
      · rintro ⟨hother | rfl, hhour⟩
        · exact ⟨hother, hhour⟩
        · exact absurd (Except.ok.inj (hhour.symm.trans hbucket)) heq

theorem mem_foldl_group (series : Series) (entries : List (Sigma fun _ : TimeBucket => List Sample))
    (groups : AList fun _ : TimeBucket => List Series) (bucket : TimeBucket) (part : Series) :
    part ∈ ((entries.foldl (fun groups e =>
          groups.insert e.1 ((groups.lookup e.1).getD [] ++ [{ series with samples := e.2 }]))
        groups).lookup bucket).getD [] ↔
      part ∈ (groups.lookup bucket).getD [] ∨
        ∃ samples, ⟨bucket, samples⟩ ∈ entries ∧ part = { series with samples := samples } := by
  induction entries generalizing groups with
  | nil => simp
  | cons e entries ih =>
    rw [foldl_cons, ih]
    obtain ⟨bucket', samples'⟩ := e
    by_cases heq : bucket = bucket'
    · subst heq
      rw [AList.lookup_insert, getD_some, mem_append, mem_singleton]
      simp only [mem_cons, Sigma.mk.injEq, heq_eq_eq, true_and]
      grind
    · rw [AList.lookup_insert_ne heq]
      simp only [mem_cons, Sigma.mk.injEq, heq, false_and, false_or]

theorem mem_groupByBucket (h : groupByBucket seriesList = .ok groups) (bucket : TimeBucket)
    (part : Series) : part ∈ (groups.lookup bucket).getD [] ↔
      ∃ series ∈ seriesList, ∃ split samples, splitSamples series.samples = .ok split ∧
        split.lookup bucket = some samples ∧ part = { series with samples := samples } := by
  refine foldlM_history (I := fun seriesList (groups : AList fun _ : TimeBucket => List Series) =>
    part ∈ (groups.lookup bucket).getD [] ↔
      ∃ series ∈ seriesList, ∃ split samples, splitSamples series.samples = .ok split ∧
        split.lookup bucket = some samples ∧ part = { series with samples := samples }) h
    (by simp) ?_
  intro seriesList groups series groups' hgroups hround
  obtain ⟨split, hsplit, hround⟩ := exists_of_bind_eq_ok hround
  cases hround
  rw [mem_foldl_group, hgroups]
  constructor
  · rintro (⟨other, hother, hrest⟩ | ⟨samples, hsamples, rfl⟩)
    · exact ⟨other, mem_append_left _ hother, hrest⟩
    · exact ⟨series, mem_append_right _ (mem_singleton.mpr rfl), split, samples, hsplit,
        AList.mem_lookup_iff.mpr hsamples, rfl⟩
  · rintro ⟨other, hother, split', samples, hsplit', hlookup, rfl⟩
    rcases mem_append.mp hother with hother | hother
    · exact .inl ⟨other, hother, split', samples, hsplit', hlookup, rfl⟩
    · obtain rfl := mem_singleton.mp hother
      obtain rfl := Except.ok.inj (hsplit.symm.trans hsplit')
      exact .inr ⟨samples, AList.mem_lookup_iff.mp hlookup, rfl⟩

theorem exists_series_of_mem_group (h : groupByBucket seriesList = .ok groups) {bucket group}
    (hgroup : groups.lookup bucket = some group) {part}
    (hpart : part ∈ group) : ∃ series ∈ seriesList, part.spec = series.spec ∧
      ∀ sample ∈ part.samples, sample ∈ series.samples := by
  have hmem : part ∈ (groups.lookup bucket).getD [] := by rwa [hgroup, getD_some]
  obtain ⟨series, hseries, split, samples, hsplit, hlookup, rfl⟩ :=
    (mem_groupByBucket h bucket part).mp hmem
  refine ⟨series, hseries, rfl, fun sample hsample => ?_⟩
  refine (((mem_splitSamples hsplit).2 bucket sample).mp ?_).1
  rwa [hlookup, getD_some]

theorem exists_group_of_mem (h : groupByBucket seriesList = .ok groups) {series}
    (hseries : series ∈ seriesList) {sample} (hsample : sample ∈ series.samples) :
    ∃ bucket group, TimeBucket.roundToHour sample.timestampMs = .ok bucket ∧
      groups.lookup bucket = some group ∧
      ∃ part ∈ group, part.labels = series.labels ∧ sample ∈ part.samples := by
  have hsplits : ∀ series ∈ seriesList, ∃ split, splitSamples series.samples = .ok split := by
    refine foldlM_history (I := fun seriesList (_ : AList fun _ : TimeBucket => List Series) =>
      ∀ series ∈ seriesList, ∃ split, splitSamples series.samples = .ok split) h (by simp) ?_
    intro seriesList groups series groups' hall hround other hother
    obtain ⟨split, hsplit, -⟩ := exists_of_bind_eq_ok hround
    rcases mem_append.mp hother with hother | hother
    · exact hall other hother
    · exact ⟨split, mem_singleton.mp hother ▸ hsplit⟩
  obtain ⟨split, hsplit⟩ := hsplits series hseries
  obtain ⟨bucket, hbucket⟩ := (mem_splitSamples hsplit).1 sample hsample
  have hmem := ((mem_splitSamples hsplit).2 bucket sample).mpr ⟨hsample, hbucket⟩
  cases hlookup : split.lookup bucket with
  | none => simp [hlookup] at hmem
  | some samples =>
    rw [hlookup, getD_some] at hmem
    have hpart := (mem_groupByBucket h bucket { series with samples := samples }).mpr
      ⟨series, hseries, split, samples, hsplit, hlookup, rfl⟩
    cases hgroup : groups.lookup bucket with
    | none => simp [hgroup] at hpart
    | some group =>
      rw [hgroup, getD_some] at hpart
      exact ⟨bucket, group, hbucket, hgroup, _, hpart, rfl, hmem⟩

end

namespace Tsdb

variable {crates : Crates} {bucket : TimeBucket} {storage storage' : Storage}

/-! ### The records of a delta -/

theorem exists_flushOps (hcrates : crates.RoundTrip) {frozen}
    (hlist : ∃ announced, bucketListContains frozen.bucket storage = .ok announced)
    (hfits : ∀ id spec, frozen.forwardIndex.lookup id = some spec →
      ForwardIndexValue.Encodable spec) :
    ∃ records, flushOps crates storage frozen = .ok records := by
  obtain ⟨announced, hannounced⟩ := hlist
  have hforward : frozen.forwardIndex.entries.mapM
      (fun e => insertForwardIndex frozen.bucket e.1 e.2) =
      .ok (flushPart crates announced frozen .forwardIndex) := by
    refine mapM_eq_pure fun e he => ?_
    obtain ⟨bytes, hbytes⟩ := encode_of_encodable (hfits e.1 e.2 (AList.mem_lookup_iff.mpr he))
    rw [insertForwardIndex, forwardOp, hbytes]
    rfl
  have hinverted : frozen.invertedIndex.entries.mapM
      (fun e => mergeInvertedIndex crates frozen.bucket e.1 e.2) =
      .ok (flushPart crates announced frozen .invertedIndex) := by
    refine mapM_eq_pure fun e _ => ?_
    obtain ⟨bytes, hbytes, -⟩ := hcrates.roaring e.2
    rw [mergeInvertedIndex, invertedOp, hbytes]
    rfl
  rw [flushOps, hannounced]
  show ∃ records, (frozen.forwardIndex.entries.mapM _ >>= _) = Except.ok records
  rw [hforward]
  show ∃ records, (frozen.invertedIndex.entries.mapM _ >>= _) = Except.ok records
  rw [hinverted]
  exact ⟨_, rfl⟩

/-! ### Accepted writes -/

def FromCall (bucket : TimeBucket) (calls : List (List Series)) : Op → Prop
  | .ingest write => ∃ seriesList ∈ calls, ∃ groups, groupByBucket seriesList = .ok groups ∧
      groups.lookup bucket = some write
  | _ => True

def OfCalls (calls : List (List Series)) (spec : SeriesSpec) : Prop :=
  ∃ series ∈ calls.flatten, spec = series.spec

/-- The label lists of the calls. -/
def callLabels (calls : List (List Series)) : Finset (List Label) :=
  (calls.flatten.map fun series => sortLabels series.labels).toFinset

variable {calls : List (List Series)} {spec : SeriesSpec}

theorem OfCalls.labels_mem (h : OfCalls calls spec) : spec.labels ∈ callLabels calls := by
  obtain ⟨series, hseries, rfl⟩ := h
  exact mem_toFinset.mpr (mem_map.mpr ⟨series, hseries, rfl⟩)

theorem FromCall.ofKind {op} (h : FromCall bucket calls op)
    (hop : op ≠ .drop) : ofKind (OfCalls calls) (callLabels calls) op := by
  cases op with
  | ingest =>
    obtain ⟨seriesList, hcall, groups, hgroups, hwrite⟩ := h
    intro series hseries
    obtain ⟨original, horiginal, hspec, -⟩ := exists_series_of_mem_group hgroups hwrite hseries
    have hof : OfCalls calls series.spec :=
      ⟨original, mem_flatten.mpr ⟨seriesList, hcall, horiginal⟩, hspec⟩
    exact ⟨hof, hof.labels_mem⟩
  | drop => exact absurd rfl hop
  | load | freeze | flush => trivial

theorem readable_step {P : SeriesSpec → Prop} {L} {strict : Prop} {s s' op}
    (h : BucketInvariant crates bucket P L strict s)
    (hlist : ∃ announced, bucketListContains bucket s.storage = .ok announced)
    (hstep : s.step crates bucket op = some s') :
    ∃ announced, bucketListContains bucket s'.storage = .ok announced := by
  cases move_of_step hstep with
  | load | ingest | freeze | lost | drop => exact hlist
  | flushed htsdb hfrozen hflush =>
    obtain ⟨G, hcataloged, -⟩ := h.opened _ htsdb
    have hbucket := (hcataloged.frozen _ (hfrozen ▸ mem_cons_self)).inBucket
    rcases flushDelta_cases hflush with ⟨-, rfl⟩ | ⟨ops, hops, happly⟩
    · exact hlist
    · exact ⟨true, hbucket ▸ bucketListContains_of_applyOps hops happly⟩

theorem storedSpec_of_unit {id v} (hv : storage[forwardIndexKey bucket id]? = some v)
    (hspec : encode spec = .ok v) (hunit : spec.unit ≠ some "") :
    storedSpec storage bucket id = some spec := by
  have hkeep : spec.unit.filter (· ≠ "") = spec.unit := by
    cases hcase : spec.unit with
    | none => rfl
    | some unit =>
      have hne : unit ≠ "" := fun heq => hunit (by rw [hcase, heq])
      simp [Option.filter, hne]
  rw [storedSpec_eq_some hv hspec, hkeep]

/-- In every run over a bucket without records, in which the database stays open and the writes come
from accepted calls whose series fit, have no empty unit and have one unit and type for each label
list: every delta is built into records, and the records of the series that are stored, now or
behind a flush, decode to what was ingested. The fingerprints of fewer than `2 ^ 32` label lists
differ. -/
theorem accepted_writes_flush (hcrates : crates.RoundTrip) (hstorage : NoRecords storage bucket)
    (hlist : ∃ announced, bucketListContains bucket storage = .ok announced)
    {calls : List (List Series)} {ops : List Op} {s : State} {tsdb : MiniTsdb}
    (hrun : Run (State.step crates bucket) anyStep (State.init storage) ops s)
    (hopen : .drop ∉ ops) (hcalls : ∀ op ∈ ops, FromCall bucket calls op)
    (hfits : ∀ series ∈ calls.flatten,
      ForwardIndexValue.Encodable series.spec ∧ series.unit ≠ some "")
    (hsame : ∀ series ∈ calls.flatten, ∀ series' ∈ calls.flatten,
      fingerprint crates series.spec.labels = fingerprint crates series'.spec.labels →
        series.spec = series'.spec)
    (hcount : (callLabels calls).card < 2 ^ 32) (htsdb : s.tsdb = some tsdb) :
    (∀ frozen ∈ tsdb.frozen ++ [tsdb.delta.freeze.1],
      (∃ records, flushOps crates s.storage frozen = .ok records) ∧
      ∀ storage', flushDelta crates s.storage frozen = .ok storage' →
        ∀ id spec, frozen.forwardIndex.lookup id = some spec →
          storedSpec storage' bucket id = some spec) ∧
    ∀ series ∈ calls.flatten, ∀ id, (series.spec.labels, id) ∈ s.received →
      (∀ frozen ∈ tsdb.frozen ++ [tsdb.delta.freeze.1], ∀ spec,
        frozen.forwardIndex.lookup id = some spec → spec = series.spec) ∧
      (forwardIndexKey bucket id ∈ s.storage →
        storedSpec s.storage bucket id = some series.spec) := by
  have hinj : Set.InjOn (fingerprint crates) (callLabels calls) := by
    intro labels hlabels labels' hlabels' heq
    obtain ⟨series, hseries, rfl⟩ := mem_map.mp (mem_toFinset.mp hlabels)
    obtain ⟨series', hseries', rfl⟩ := mem_map.mp (mem_toFinset.mp hlabels')
    exact congrArg SeriesSpec.labels (hsame series hseries series' hseries' heq)
  have hinvariant : BucketInvariant crates bucket (OfCalls calls) (callLabels calls) False s ∧
      ∃ announced, bucketListContains bucket s.storage = .ok announced := by
    have hkind : ∀ op ∈ ops, ofKind (OfCalls calls) (callLabels calls) op :=
      fun op hop => (hcalls op hop).ofKind fun heq => hopen (heq ▸ hop)
    refine Run.invariant
      (I := fun s => BucketInvariant crates bucket (OfCalls calls) (callLabels calls) False s ∧
        ∃ announced, bucketListContains bucket s.storage = .ok announced)
      (hrun.and_labels fun op hop _ => hkind op hop) ⟨bucketInvariant_init hstorage, hlist⟩ ?_
    rintro s op s' ⟨hinv, hlist⟩ hok hstep
    exact ⟨bucketInvariant_step hcrates hcount hinj hinv hok.2 False.elim hstep,
      readable_step hinv hlist hstep⟩
  obtain ⟨G, hcataloged, -⟩ := hinvariant.1.opened tsdb htsdb
  have hholds : ∀ frozen ∈ tsdb.frozen ++ [tsdb.delta.freeze.1],
      Holds crates bucket (OfCalls calls) G frozen := by
    intro frozen hfrozen
    rcases mem_append.mp hfrozen with hfrozen | hfrozen
    · exact hcataloged.frozen frozen hfrozen
    · rw [mem_singleton.mp hfrozen]
      exact hcataloged.delta.holds
  -- A series of the calls is determined by the labels of its id.
  have hspec : ∀ series ∈ calls.flatten, ∀ id, (series.spec.labels, id) ∈ s.received →
      ∀ spec, OfCalls calls spec → G id = some spec.labels → spec = series.spec := by
    rintro series hseries id hid _ ⟨original, horiginal, rfl⟩ hlabels
    rw [hcataloged.received _ id hid, Option.some.injEq] at hlabels
    exact hsame original horiginal series hseries (by rw [hlabels])
  refine ⟨fun frozen hfrozen => ⟨?_, ?_⟩, fun series hseries id hid => ⟨?_, ?_⟩⟩
  · refine exists_flushOps hcrates ((hholds frozen hfrozen).inBucket ▸ hinvariant.2)
      fun id spec hlookup => ?_
    obtain ⟨series, hseries, rfl⟩ := ((hholds frozen hfrozen).forward id spec hlookup).1
    exact (hfits series hseries).1
  · intro storage' hflush id spec hlookup
    obtain ⟨v, hencode, hv⟩ := (hholds frozen hfrozen).encodes_flush hflush hlookup
    obtain ⟨series, hseries, rfl⟩ := ((hholds frozen hfrozen).forward id spec hlookup).1
    exact storedSpec_of_unit hv hencode (hfits series hseries).2
  · intro frozen hfrozen spec hlookup
    obtain ⟨hof, hlabels⟩ := (hholds frozen hfrozen).forward id spec hlookup
    exact hspec series hseries id hid spec hof hlabels
  · intro hmem
    obtain ⟨v, hv⟩ := Storage.mem_iff_exists.mp hmem
    obtain ⟨spec, hof, hencode, hlabels⟩ := hcataloged.stored.forward id v hv
    obtain rfl := hspec series hseries id hid spec hof hlabels
    exact storedSpec_of_unit hv hencode (hfits series hseries).2

/-- Two calls whose series share the bucket, with a flush between them. -/
theorem accepted_writes_flush_two_calls :
    ∃ s, Run (State.step plainCrates (.hour 0)) anyStep (State.init ∅)
        [.load, .ingest [gauge [⟨"a", "x"⟩] [5]], .freeze, .flush true,
          .ingest [gauge [⟨"b", "y"⟩] [6]]] s ∧
      storedSpec s.storage (.hour 0) 0 = some (gauge [⟨"a", "x"⟩] [5]).spec := by
  obtain ⟨s, hrun, hsome, hreceived, hstored⟩ : ∃ s,
      Run (State.step plainCrates (.hour 0)) anyStep (State.init ∅)
        [.load, .ingest [gauge [⟨"a", "x"⟩] [5]], .freeze, .flush true,
          .ingest [gauge [⟨"b", "y"⟩] [6]]] s ∧
      s.tsdb.isSome = true ∧ ([⟨"a", "x"⟩], 0) ∈ s.received ∧
      forwardIndexKey (.hour 0) 0 ∈ s.storage := Run.exists_of_check (by decide +kernel)
  obtain ⟨tsdb, htsdb⟩ := Option.isSome_iff_exists.mp hsome
  refine ⟨s, hrun, ?_⟩
  have hcalls : ∀ op ∈ ([.load, .ingest [gauge [⟨"a", "x"⟩] [5]], .freeze, .flush true,
      .ingest [gauge [⟨"b", "y"⟩] [6]]] : List Op), FromCall (.hour 0)
        [[gauge [⟨"a", "x"⟩] [5]], [gauge [⟨"b", "y"⟩] [6]]] op := by
    intro op hop
    simp only [mem_cons, not_mem_nil, or_false] at hop
    rcases hop with rfl | rfl | rfl | rfl | rfl
    · trivial
    · exact ⟨_, mem_cons_self, _, rfl, rfl⟩
    · trivial
    · trivial
    · exact ⟨_, mem_cons_of_mem _ mem_cons_self, _, rfl, rfl⟩
  obtain ⟨-, hdecode⟩ := accepted_writes_flush (Crates.fixedWidth_roundTrip _) (noRecords_empty _)
    ⟨false, rfl⟩ hrun (by simp) hcalls (by decide +kernel) (by decide +kernel) (by decide +kernel)
    htsdb
  exact (hdecode (gauge [⟨"a", "x"⟩] [5]) (by decide +kernel) 0 hreceived).2 hstored

section

variable {label : Label} (hlong : encodeUtf8 label.value = .error .panic)

include hlong

theorem encode_of_long : encode (gauge [label] [5]).spec = .error .panic := by
  have hname : encodeLabel label = .error .panic := by
    by_cases hfits : FitsUtf8 label.name
    · rw [encodeLabel, encodeUtf8_of_fits hfits, hlong]
      rfl
    · rw [encodeLabel, encodeUtf8_of_not_fits hfits]
      rfl
  have hlabels : encodeArray encodeLabel [label] = .error .panic := by
    rw [encodeArray, if_neg (by simp), mapM_cons, hname]
    rfl
  show (encodeArray encodeLabel [label] >>= _) = _
  rw [hlabels]
  rfl

theorem flush_panics_of_long (crates : Crates) : ∃ groups context s tsdb frozen,
      groupByBucket [gauge [label] [5]] = .ok groups ∧
      groups.lookup (.hour 0) = some [gauge [label] [5]] ∧ load ∅ (.hour 0) = .ok context ∧
      ((TsdbWriteDelta.init context).apply crates [gauge [label] [5]]).1 = .ok () ∧
      Run (State.step crates (.hour 0)) anyStep (State.init ∅)
        [.load, .ingest [gauge [label] [5]], .freeze] s ∧
      s.tsdb = some tsdb ∧ tsdb.frozen = [frozen] ∧
      flushDelta crates s.storage frozen = .error .panic := by
  refine ⟨_, _, _, _, _, rfl, rfl, rfl, rfl, Run.of_foldlM rfl, rfl, rfl, ?_⟩
  have hrecord : insertForwardIndex (.hour 0) 0 (gauge [label] [5]).spec = .error .panic := by
    rw [insertForwardIndex, encode_of_long hlong]
    rfl
  show (((insertForwardIndex (.hour 0) 0 (gauge [label] [5]).spec >>= _) >>= _) >>= _) = _
  rw [hrecord]
  rfl

end

def longLabel : Label := { name := "a", value := String.ofList (List.replicate 65536 'x') }

theorem flush_panics_on_long_label : ∃ groups context s tsdb frozen,
      groupByBucket [gauge [longLabel] [5]] = .ok groups ∧
      groups.lookup (.hour 0) = some [gauge [longLabel] [5]] ∧ load ∅ (.hour 0) = .ok context ∧
      ((TsdbWriteDelta.init context).apply plainCrates [gauge [longLabel] [5]]).1 = .ok () ∧
      Run (State.step plainCrates (.hour 0)) anyStep (State.init ∅)
        [.load, .ingest [gauge [longLabel] [5]], .freeze] s ∧
      s.tsdb = some tsdb ∧ tsdb.frozen = [frozen] ∧
      flushDelta plainCrates s.storage frozen = .error .panic := by
  refine flush_panics_of_long (encodeUtf8_of_not_fits fun hfits => ?_) plainCrates
  rw [FitsUtf8, longLabel, length_asBytes_replicate] at hfits
  exact absurd hfits (by decide)

end Tsdb

end OpenData.Timeseries

import OpenData.Lib.Run
import OpenData.Proofs.Timeseries.Dictionary

/-!
# Series and their ids

In one bucket an id should belong to one series. The ids come from a counter that starts at the
greatest stored id when a bucket is loaded, so the first new series behind a reload takes an id that
is in use (`reload_reuses_id`). `ids_unique` is what holds: the ids are unique in every run in which
new series arrive only while the bucket was loaded without a dictionary and the counter does not
wrap. Series with different labels then have different ids (`labels_have_own_id`).
-/

namespace OpenData.Timeseries

open Lib Common List Option

variable {crates : Crates} {bucket : TimeBucket}

/-! ### Unique ids in a delta -/

namespace TsdbWriteDelta

def Unique (delta : TsdbWriteDelta) : Prop :=
  ∀ f g id, delta.lookup f = some id → delta.lookup g = some id → f = g

def Below (delta : TsdbWriteDelta) : Prop :=
  ∀ f id, delta.lookup f = some id → id.toNat < delta.nextSeriesId.toNat

def Extends (delta delta' : TsdbWriteDelta) : Prop :=
  ∀ f id, delta.lookup f = some id → delta'.lookup f = some id

variable {delta delta' : TsdbWriteDelta} {fp : SeriesFingerprint}

theorem DictStep.extends (h : DictStep fp delta delta') : Extends delta delta' := by
  intro f id hid
  cases h with
  | same hlookup => rw [hlookup, hid]
  | new hnone hlookup =>
    -- The new series is not one of the old ones.
    rw [hlookup, if_neg, hid]
    rintro rfl
    rw [hnone] at hid
    exact absurd hid (by simp)

theorem DictStep.eq_of_isSome (h : DictStep fp delta delta') (hknown : (delta.lookup fp).isSome) :
    delta'.lookup = delta.lookup ∧ delta'.nextSeriesId = delta.nextSeriesId := by
  cases h with
  | same hlookup hnext => exact ⟨hlookup, hnext⟩
  | new hnone =>
    rw [hnone] at hknown
    exact absurd hknown (by simp)

theorem DictStep.next_le (h : DictStep fp delta delta')
    (hwrap : delta.nextSeriesId.toNat + 1 < 2 ^ 32) :
    delta'.nextSeriesId.toNat ≤ delta.nextSeriesId.toNat + 1 := by
  cases h with
  | same _ hnext =>
    rw [hnext]
    exact Nat.le_succ _
  | new _ _ hnext =>
    rw [hnext, UInt32.toNat_add]
    exact (Nat.mod_eq_of_lt hwrap).le

theorem DictStep.below (h : DictStep fp delta delta') (hbelow : Below delta)
    (hwrap : delta.nextSeriesId.toNat + 1 < 2 ^ 32) : Below delta' := by
  intro f id hid
  cases h with
  | same hlookup hnext =>
    rw [hnext]
    exact hbelow f id (hlookup ▸ hid)
  | new _ hlookup hnext =>
    have hnext' : delta'.nextSeriesId.toNat = delta.nextSeriesId.toNat + 1 := by
      rw [hnext, UInt32.toNat_add]
      exact Nat.mod_eq_of_lt hwrap
    rw [hlookup] at hid
    split at hid
    · cases hid
      omega
    · have hlt := hbelow f id hid
      omega

theorem DictStep.unique (h : DictStep fp delta delta') (hunique : Unique delta)
    (hnew : delta.lookup fp = none → Below delta) : Unique delta' := by
  intro f g id hf hg
  cases h with
  | same hlookup => exact hunique f g id (hlookup ▸ hf) (hlookup ▸ hg)
  | new hnone hlookup =>
    have hbelow := hnew hnone
    rw [hlookup] at hf hg
    by_cases hfeq : f = fp <;> by_cases hgeq : g = fp
    · rw [hfeq, hgeq]
    · -- The id of the new series is not yet in use.
      rw [if_pos hfeq, Option.some.injEq] at hf
      rw [if_neg hgeq, ← hf] at hg
      exact absurd (hbelow g _ hg) (Nat.lt_irrefl _)
    · rw [if_neg hfeq] at hf
      rw [if_pos hgeq, Option.some.injEq] at hg
      rw [← hg] at hf
      exact absurd (hbelow f _ hf) (Nat.lt_irrefl _)
    · rw [if_neg hfeq] at hf
      rw [if_neg hgeq] at hg
      exact hunique f g id hf hg

def HasNew (crates : Crates) (delta : TsdbWriteDelta) (write : List Series) : Prop :=
  ∃ series ∈ write, delta.lookup (fingerprint crates (sortLabels series.labels)) = none

/-- What a write keeps if its new series may take ids. -/
structure Kept (delta delta' : TsdbWriteDelta) : Prop where
  unique : Unique delta'
  extend : Extends delta delta'
  bucket : delta'.bucket = delta.bucket
  below : Below delta → Below delta'

theorem Kept.trans {delta''} (h1 : Kept delta delta') (h2 : Kept delta' delta'') :
    Kept delta delta'' where
  unique := h2.unique
  extend f id hid := h2.extend f id (h1.extend f id hid)
  bucket := h2.bucket.trans h1.bucket
  below hbelow := h2.below (h1.below hbelow)

theorem kept_ingest {series} (hunique : Unique delta)
    (hnew : delta.lookup (fingerprint crates (sortLabels series.labels)) = none →
      Below delta ∧ delta.nextSeriesId.toNat + 1 < 2 ^ 32) :
    Kept delta (delta.ingest crates series).2 := by
  obtain ⟨hstep, hbucket⟩ := dictStep_ingest crates delta series
  refine ⟨hstep.unique hunique fun hnone => (hnew hnone).1, hstep.extends, hbucket,
    fun hbelow => ?_⟩
  cases hlookup : delta.lookup (fingerprint crates (sortLabels series.labels)) with
  | none => exact hstep.below hbelow (hnew hlookup).2
  | some =>
    obtain ⟨hsame, hnext⟩ := hstep.eq_of_isSome (by simp [hlookup])
    intro f id' hid
    rw [hnext]
    exact hbelow f id' (hsame ▸ hid)

theorem kept_apply {write} (hunique : Unique delta) (hnew : HasNew crates delta write →
      Below delta ∧ delta.nextSeriesId.toNat + write.length < 2 ^ 32) :
    Kept delta (delta.apply crates write).2 := by
  induction write generalizing delta with
  | nil => exact ⟨hunique, fun _ _ h => h, rfl, fun h => h⟩
  | cons series write ih =>
    have hfirst : delta.lookup (fingerprint crates (sortLabels series.labels)) = none →
        Below delta ∧ delta.nextSeriesId.toNat + 1 < 2 ^ 32 := by
      intro hnone
      obtain ⟨hbelow, hwrap⟩ := hnew ⟨series, mem_cons_self, hnone⟩
      rw [length_cons] at hwrap
      exact ⟨hbelow, by omega⟩
    have hkept := kept_ingest hunique hfirst
    rw [apply]
    split
    · rename_i hingest
      rwa [hingest] at hkept
    · rename_i mid hingest
      rw [hingest] at hkept
      refine hkept.trans (ih hkept.unique ?_)
      -- A series that is new behind the first one was new before it.
      rintro ⟨other, hother, hnone⟩
      have hnone' : delta.lookup (fingerprint crates (sortLabels other.labels)) = none := by
        by_contra hsome
        obtain ⟨id, hid⟩ := ne_none_iff_exists'.mp hsome
        rw [hkept.extend _ _ hid] at hnone
        exact absurd hnone (by simp)
      obtain ⟨hbelow, hwrap⟩ := hnew ⟨other, mem_cons_of_mem _ hother, hnone'⟩
      rw [length_cons] at hwrap
      have hle := (dictStep_ingest crates delta series).1.next_le (by omega)
      rw [hingest] at hle
      exact ⟨hkept.below hbelow, by omega⟩

end TsdbWriteDelta

/-! ### Moves of the database -/

namespace Tsdb

/-- What a step of the database of a bucket can do. -/
inductive Move (crates : Crates) (bucket : TimeBucket) (s : State) : Op → State → Prop where
  | load {context} (hnone : s.tsdb = none)
      (hload : Timeseries.load s.storage bucket = .ok context) :
      Move crates bucket s .load {
        storage := s.storage
        tsdb := some { delta := .init context, frozen := [] }
        loadedEmpty := context.seriesDict.entries.isEmpty
        received := [] }
  | ingest {tsdb} (write : List Series) (htsdb : s.tsdb = some tsdb) :
      Move crates bucket s (.ingest write) { s with
        tsdb := some { tsdb with delta := (tsdb.delta.apply crates write).2 }
        received := s.received ++ write.filterMap fun series =>
          ((tsdb.delta.apply crates write).2.lookup
            (fingerprint crates (sortLabels series.labels))).map fun id =>
            (sortLabels series.labels, id) }
  | freeze {tsdb} (htsdb : s.tsdb = some tsdb) : Move crates bucket s .freeze { s with
        tsdb := some {
          delta := .init tsdb.delta.freeze.2
          frozen := tsdb.frozen ++ [tsdb.delta.freeze.1] } }
  | flushed {tsdb frozen rest storage} (htsdb : s.tsdb = some tsdb)
      (hfrozen : tsdb.frozen = frozen :: rest)
      (hflush : flushDelta crates s.storage frozen = .ok storage) :
      Move crates bucket s (.flush true) { s with
        storage, tsdb := some { tsdb with frozen := rest } }
  | lost {tsdb frozen rest} (ok : Bool)
      (htsdb : s.tsdb = some tsdb) (hfrozen : tsdb.frozen = frozen :: rest) :
      Move crates bucket s (.flush ok) { s with tsdb := some { tsdb with frozen := rest } }
  | drop {tsdb} (htsdb : s.tsdb = some tsdb) : Move crates bucket s .drop { s with tsdb := none }

theorem move_of_step {s s' op} (h : s.step crates bucket op = some s') :
    Move crates bucket s op s' := by
  cases htsdb : s.tsdb with
  | none =>
    cases op with
    | load =>
      cases hload : Timeseries.load s.storage bucket with
      | error => simp [State.step, htsdb, hload] at h
      | ok =>
        obtain rfl : _ = s' := by simpa [State.step, htsdb, hload] using h
        exact .load htsdb hload
    | ingest | freeze | flush | drop => simp [State.step, htsdb] at h
  | some tsdb =>
    cases op with
    | load => simp [State.step, htsdb] at h
    | ingest write =>
      obtain rfl : _ = s' := by simpa [State.step, htsdb] using h
      exact .ingest write htsdb
    | freeze =>
      obtain rfl : _ = s' := by simpa [State.step, htsdb] using h
      exact .freeze htsdb
    | drop =>
      obtain rfl : _ = s' := by simpa [State.step, htsdb] using h
      exact .drop htsdb
    | flush ok =>
      cases hfrozen : tsdb.frozen with
      | nil => simp [State.step, htsdb, hfrozen] at h
      | cons frozen =>
        cases ok with
        | false =>
          obtain rfl : _ = s' := by simpa [State.step, htsdb, hfrozen] using h
          exact .lost false htsdb hfrozen
        | true =>
          cases hflush : flushDelta crates s.storage frozen with
          | ok =>
            obtain rfl : _ = s' := by simpa [State.step, htsdb, hfrozen, hflush] using h
            exact .flushed htsdb hfrozen hflush
          | error =>
            obtain rfl : _ = s' := by simpa [State.step, htsdb, hfrozen, hflush] using h
            exact .lost true htsdb hfrozen

/-! ### The invariant -/

def Assigned (bucket : TimeBucket) (s : State) (fp : SeriesFingerprint) (id : SeriesId) : Prop :=
  (∃ tsdb, s.tsdb = some tsdb ∧ tsdb.delta.lookup fp = some id) ∨ Stored s.storage bucket fp id

/-- New series arrive only while the bucket was loaded without a dictionary, and the counter does
not wrap. -/
def steady (crates : Crates) (s : State) : Op → Prop
  | .ingest write => ∀ tsdb, s.tsdb = some tsdb → tsdb.delta.HasNew crates write →
      s.loadedEmpty = true ∧ tsdb.delta.nextSeriesId.toNat + write.length < 2 ^ 32
  | _ => True

instance (crates : Crates) (delta : TsdbWriteDelta) (write : List Series) :
    Decidable (delta.HasNew crates write) :=
  inferInstanceAs (Decidable (∃ series ∈ write, _))

instance (crates : Crates) (s : State) : DecidablePred (steady crates s)
  | .ingest write =>
    inferInstanceAs (Decidable (∀ tsdb ∈ s.tsdb, tsdb.delta.HasNew crates write →
      s.loadedEmpty = true ∧ tsdb.delta.nextSeriesId.toNat + write.length < 2 ^ 32))
  | .load | .freeze | .flush _ | .drop => .isTrue trivial

/-- An open database: what is stored, what is at the flusher and what was received is in the
dictionary of the delta. -/
structure OpenInvariant (crates : Crates) (bucket : TimeBucket) (s : State) (tsdb : MiniTsdb) :
    Prop where
  inBucket : tsdb.delta.bucket = bucket
  unique : tsdb.delta.Unique
  stored : ∀ fp id, Stored s.storage bucket fp id → tsdb.delta.lookup fp = some id
  frozen : ∀ frozen ∈ tsdb.frozen, frozen.bucket = bucket ∧
    ∀ fp id, frozen.seriesDictDelta.lookup fp = some id → tsdb.delta.lookup fp = some id
  below : s.loadedEmpty = true → tsdb.delta.Below
  received : ∀ labels id, (labels, id) ∈ s.received →
    tsdb.delta.lookup (fingerprint crates labels) = some id

/-- No id stands for two fingerprints, in the store and in the deltas. -/
structure IdInvariant (crates : Crates) (bucket : TimeBucket) (s : State) : Prop where
  records : DictionaryRecords s.storage bucket
  stored : ∀ f g id, Stored s.storage bucket f id → Stored s.storage bucket g id → f = g
  opened : ∀ tsdb, s.tsdb = some tsdb → OpenInvariant crates bucket s tsdb
  received : ∀ labels labels' id, (labels, id) ∈ s.received → (labels', id) ∈ s.received →
    fingerprint crates labels = fingerprint crates labels'

variable {s : State} {id : SeriesId}

theorem OpenInvariant.received_unique {tsdb}
    (h : OpenInvariant crates bucket s tsdb) {labels labels'}
    (hid : (labels, id) ∈ s.received) (hid' : (labels', id) ∈ s.received) :
    fingerprint crates labels = fingerprint crates labels' :=
  h.unique _ _ id (h.received labels id hid) (h.received labels' id hid')

theorem IdInvariant.assigned_unique (h : IdInvariant crates bucket s)
    {f g} (hf : Assigned bucket s f id)
    (hg : Assigned bucket s g id) : f = g := by
  cases htsdb : s.tsdb with
  | none =>
    rcases hf with ⟨tsdb, hsome, -⟩ | hf
    · rw [htsdb] at hsome
      exact absurd hsome (by simp)
    rcases hg with ⟨tsdb, hsome, -⟩ | hg
    · rw [htsdb] at hsome
      exact absurd hsome (by simp)
    exact h.stored f g id hf hg
  | some tsdb =>
    have hopen := h.opened tsdb htsdb
    -- What is stored is also in memory.
    have hlookup : ∀ fp, Assigned bucket s fp id → tsdb.delta.lookup fp = some id := by
      rintro fp (⟨tsdb', hsome, hlookup⟩ | hstored)
      · obtain rfl := Option.mem_unique htsdb hsome
        exact hlookup
      · exact hopen.stored fp id hstored
    exact hopen.unique f g id (hlookup f hf) (hlookup g hg)

/-- The store holds no record of the bucket. -/
def NoRecords (storage : Storage) (bucket : TimeBucket) : Prop :=
  ∀ k ∈ storage, ∀ t : RecordType, ¬ t.bucketScopedPrefix bucket <+: k

variable {storage : Storage}

theorem not_stored_of_noRecords (h : NoRecords storage bucket)
    (fp : SeriesFingerprint) (id : SeriesId) : ¬ Stored storage bucket fp id := by
  intro hstored
  exact h _ (Storage.mem_of_getElem? hstored) .seriesDictionary (prefix_append _ _)

theorem idInvariant_init (h : NoRecords storage bucket) :
    IdInvariant crates bucket (State.init storage) where
  records k v hget hhead := absurd hhead (h k (Storage.mem_of_getElem? hget) .seriesDictionary)
  stored f g id hf _ := absurd hf (not_stored_of_noRecords h f id)
  opened tsdb htsdb := absurd htsdb (by simp [State.init])
  received := by simp [State.init]

section

variable {s : State} {tsdb : MiniTsdb} (h : IdInvariant crates bucket s)

include h

theorem IdInvariant.load {context} (hload : Timeseries.load s.storage bucket = .ok context) :
    OpenInvariant crates bucket
      { storage := s.storage
        tsdb := some { delta := .init context, frozen := [] }
        loadedEmpty := context.seriesDict.entries.isEmpty
        received := [] } { delta := .init context, frozen := [] } := by
  obtain ⟨context', hload', hbucket, hlookup, -⟩ := load_spec h.records
  obtain rfl := Except.ok.inj (hload.symm.trans hload')
  refine ⟨hbucket, ?_, ?_, by simp, ?_, by simp⟩
  · intro f g id hf hg
    rw [TsdbWriteDelta.lookup_init, hlookup] at hf hg
    exact h.stored f g id hf hg
  · intro fp id hstored
    rw [TsdbWriteDelta.lookup_init, hlookup]
    exact hstored
  · -- The dictionary that was loaded is empty.
    intro hempty fp id hid
    rw [TsdbWriteDelta.lookup_init] at hid
    have hmem := AList.mem_lookup_iff.mp hid
    rw [isEmpty_iff.mp hempty] at hmem
    exact absurd hmem not_mem_nil

theorem IdInvariant.ingest {write} (htsdb : s.tsdb = some tsdb)
    (hok : steady crates s (.ingest write)) :
    OpenInvariant crates bucket
      { s with
        tsdb := some { tsdb with delta := (tsdb.delta.apply crates write).2 }
        received := s.received ++ write.filterMap fun series =>
          ((tsdb.delta.apply crates write).2.lookup
            (fingerprint crates (sortLabels series.labels))).map fun id =>
            (sortLabels series.labels, id) }
      { tsdb with delta := (tsdb.delta.apply crates write).2 } := by
  have hopen := h.opened tsdb htsdb
  have hkept := TsdbWriteDelta.kept_apply hopen.unique fun hnew => by
    obtain ⟨hempty, hwrap⟩ := hok tsdb htsdb hnew
    exact ⟨hopen.below hempty, hwrap⟩
  refine ⟨hkept.bucket.trans hopen.inBucket, hkept.unique, ?_, ?_, ?_, ?_⟩
  · exact fun fp id hstored => hkept.extend fp id (hopen.stored fp id hstored)
  · intro frozen hfrozen
    obtain ⟨hbucket, hlookup⟩ := hopen.frozen frozen hfrozen
    exact ⟨hbucket, fun fp id hid => hkept.extend fp id (hlookup fp id hid)⟩
  · exact fun hempty => hkept.below (hopen.below hempty)
  · intro labels id hmem
    rcases mem_append.mp hmem with hmem | hmem
    · exact hkept.extend _ _ (hopen.received labels id hmem)
    · obtain ⟨series, -, hid⟩ := mem_filterMap.mp hmem
      obtain ⟨id', hid', heq⟩ := map_eq_some_iff.mp hid
      obtain ⟨rfl, rfl⟩ := Prod.mk.inj heq
      exact hid'

theorem IdInvariant.freeze (htsdb : s.tsdb = some tsdb) : OpenInvariant crates bucket
      { s with
        tsdb := some {
          delta := .init tsdb.delta.freeze.2
          frozen := tsdb.frozen ++ [tsdb.delta.freeze.1] } }
      { delta := .init tsdb.delta.freeze.2, frozen := tsdb.frozen ++ [tsdb.delta.freeze.1] } := by
  have hopen := h.opened tsdb htsdb
  have hlookup := TsdbWriteDelta.lookup_init_freeze tsdb.delta
  refine ⟨hopen.inBucket, ?_, ?_, ?_, ?_, ?_⟩
  · intro f g id hf hg
    exact hopen.unique f g id (hlookup ▸ hf) (hlookup ▸ hg)
  · intro fp id hstored
    rw [hlookup]
    exact hopen.stored fp id hstored
  · intro frozen hfrozen
    rcases mem_append.mp hfrozen with hfrozen | hfrozen
    · obtain ⟨hbucket, hold⟩ := hopen.frozen frozen hfrozen
      exact ⟨hbucket, fun fp id hid => by rw [hlookup]; exact hold fp id hid⟩
    · obtain rfl := mem_singleton.mp hfrozen
      refine ⟨hopen.inBucket, fun fp id hid => ?_⟩
      rw [hlookup, TsdbWriteDelta.lookup]
      exact or_eq_some_iff.mpr (.inl hid)
  · intro hempty fp id hid
    exact hopen.below hempty fp id (hlookup ▸ hid)
  · intro labels id hmem
    rw [hlookup]
    exact hopen.received labels id hmem

section

variable {frozen : FrozenTsdbDelta} {rest : List FrozenTsdbDelta} {storage : Storage}
  (htsdb : s.tsdb = some tsdb) (hfrozen : tsdb.frozen = frozen :: rest)
  (hflush : flushDelta crates s.storage frozen = .ok storage)

include htsdb hfrozen hflush

theorem IdInvariant.stored_flush {fp}
    (hstored : Stored storage bucket fp id) : tsdb.delta.lookup fp = some id := by
  have hopen := h.opened tsdb htsdb
  obtain ⟨hbucket, hlookup⟩ := hopen.frozen frozen (by simp [hfrozen])
  have hget := flushDelta_dictionary hflush fp
  rw [hbucket, hstored] at hget
  cases hnew : frozen.seriesDictDelta.lookup fp with
  | none =>
    rw [hnew, map_none, none_or] at hget
    exact hopen.stored fp id hget.symm
  | some =>
    rw [hnew, map_some, some_or, Option.some.injEq] at hget
    obtain rfl := encode_seriesId_inj hget
    exact hlookup fp id hnew

theorem IdInvariant.records_flush : DictionaryRecords storage bucket := by
  have hopen := h.opened tsdb htsdb
  obtain ⟨hbucket, -⟩ := hopen.frozen frozen (by simp [hfrozen])
  intro k v hget hhead
  by_cases hkey : ∃ fp, k = seriesDictionaryKey bucket fp
  · obtain ⟨fp, rfl⟩ := hkey
    have hvalue := flushDelta_dictionary hflush fp
    rw [hbucket, hget] at hvalue
    cases hnew : frozen.seriesDictDelta.lookup fp with
    | none =>
      rw [hnew, map_none, none_or] at hvalue
      exact h.records _ _ hvalue.symm hhead
    | some id =>
      rw [hnew, map_some, some_or, Option.some.injEq] at hvalue
      exact ⟨fp, id, rfl, hvalue⟩
  · have hsame := flushDelta_dictionary_of_ne hflush (recordTypeOf_of_isPrefix hhead)
      fun fp heq => hkey ⟨fp, hbucket ▸ heq⟩
    exact h.records k v (hsame ▸ hget) hhead

theorem IdInvariant.flush :
    IdInvariant crates bucket { s with storage, tsdb := some { tsdb with frozen := rest } } := by
  have hopen := h.opened tsdb htsdb
  refine ⟨h.records_flush htsdb hfrozen hflush, ?_, ?_, h.received⟩
  · intro f g id hf hg
    exact hopen.unique f g id (h.stored_flush htsdb hfrozen hflush hf)
      (h.stored_flush htsdb hfrozen hflush hg)
  · rintro _ ⟨⟩
    exact ⟨hopen.inBucket, hopen.unique, fun fp id => h.stored_flush htsdb hfrozen hflush,
      fun other hother => hopen.frozen other (by simp [hfrozen, hother]), hopen.below,
      hopen.received⟩

end

end

theorem idInvariant_step {s s' op} (h : IdInvariant crates bucket s)
    (hok : steady crates s op) (hstep : s.step crates bucket op = some s') :
    IdInvariant crates bucket s' := by
  cases move_of_step hstep with
  | load hnone hload => exact ⟨h.records, h.stored, by rintro _ ⟨⟩; exact h.load hload, by simp⟩
  | ingest write htsdb =>
    have hopen := h.ingest htsdb hok
    exact ⟨h.records, h.stored, by rintro _ ⟨⟩; exact hopen,
      fun _ _ _ hid hid' => hopen.received_unique hid hid'⟩
  | freeze htsdb =>
    exact ⟨h.records, h.stored, by rintro _ ⟨⟩; exact h.freeze htsdb, h.received⟩
  | flushed htsdb hfrozen hflush => exact h.flush htsdb hfrozen hflush
  | lost ok htsdb hfrozen =>
    have hopen := h.opened _ htsdb
    refine ⟨h.records, h.stored, ?_, h.received⟩
    rintro _ ⟨⟩
    exact ⟨hopen.inBucket, hopen.unique, hopen.stored,
      fun other hother => hopen.frozen other (by simp [hfrozen, hother]), hopen.below,
      hopen.received⟩
  | drop => exact ⟨h.records, h.stored, by simp, h.received⟩

theorem idInvariant_run (hstorage : NoRecords storage bucket) {ops}
    (hrun : Run (State.step crates bucket) (steady crates) (State.init storage) ops s) :
    IdInvariant crates bucket s :=
  hrun.invariant (idInvariant_init hstorage) fun _ _ _ h hok hstep => idInvariant_step h hok hstep

/-! ### Unique ids -/

/-- In every run in which all steps are steady, an id belongs to one series, in memory and in the
store. -/
theorem ids_unique {storage : Storage} (hstorage : NoRecords storage bucket) {ops : List Op}
    {s : State} (hrun : Run (State.step crates bucket) (steady crates) (State.init storage) ops s)
    {f g : SeriesFingerprint} {id : SeriesId} (hf : Assigned bucket s f id)
    (hg : Assigned bucket s g id) : f = g :=
  (idInvariant_run hstorage hrun).assigned_unique hf hg

def gauge (labels : List Label) (times : List Int64) : Series :=
  { labels, metricType := some .gauge, unit := none,
    samples := times.map fun time => { timestampMs := time, value := 7 } }

def plainCrates : Crates := .fixedWidth fun bytes => BitVec.ofNat 128 (ofLe bytes)

theorem noRecords_empty (bucket : TimeBucket) : NoRecords ∅ bucket := by
  intro k hk
  exact absurd hk (by simp)

def reloadedOps : List Op :=
  [.load, .ingest [gauge [⟨"a", "x"⟩] [5], gauge [⟨"b", "y"⟩] [6]], .freeze, .flush true, .drop,
    .load, .ingest [gauge [⟨"b", "y"⟩] [7]]]

theorem ids_unique_reloaded :
    ∃ s, Run (State.step plainCrates (.hour 0)) (steady plainCrates) (State.init ∅) reloadedOps s ∧
      Assigned (.hour 0) s (fingerprint plainCrates [⟨"b", "y"⟩]) 1 ∧
      ∀ f, Assigned (.hour 0) s f 1 → f = fingerprint plainCrates [⟨"b", "y"⟩] := by
  obtain ⟨s, hrun, hfinal⟩ : ∃ s,
      Run (State.step plainCrates (.hour 0)) (steady plainCrates) (State.init ∅) reloadedOps s ∧
      s.tsdb.map (fun tsdb => tsdb.delta.lookup (fingerprint plainCrates [⟨"b", "y"⟩])) =
        some (some 1) := Run.exists_of_check (by decide +kernel)
  obtain ⟨tsdb, htsdb, hid⟩ := Option.map_eq_some_iff.mp hfinal
  have hassigned : Assigned (.hour 0) s (fingerprint plainCrates [⟨"b", "y"⟩]) 1 :=
    .inl ⟨tsdb, htsdb, hid⟩
  exact ⟨s, hrun, hassigned, fun f hf => ids_unique (noRecords_empty _) hrun hf hassigned⟩

/-- A new series behind a reload takes the greatest id that is stored. -/
theorem reload_reuses_id : ∃ s, Run (State.step plainCrates (.hour 0)) anyStep (State.init ∅)
        [.load, .ingest [gauge [⟨"a", "x"⟩] [5]], .freeze, .flush true, .drop,
          .load, .ingest [gauge [⟨"b", "y"⟩] [6]]] s ∧
      fingerprint plainCrates [⟨"a", "x"⟩] ≠ fingerprint plainCrates [⟨"b", "y"⟩] ∧
      Assigned (.hour 0) s (fingerprint plainCrates [⟨"a", "x"⟩]) 0 ∧
      Assigned (.hour 0) s (fingerprint plainCrates [⟨"b", "y"⟩]) 0 := by
  obtain ⟨s, hrun, hfinal⟩ : ∃ s, Run (State.step plainCrates (.hour 0)) anyStep (State.init ∅)
      [.load, .ingest [gauge [⟨"a", "x"⟩] [5]], .freeze, .flush true, .drop,
        .load, .ingest [gauge [⟨"b", "y"⟩] [6]]] s ∧ s.tsdb.map (fun tsdb =>
      (tsdb.delta.lookup (fingerprint plainCrates [⟨"a", "x"⟩]),
        tsdb.delta.lookup (fingerprint plainCrates [⟨"b", "y"⟩]))) = some (some 0, some 0) :=
    Run.exists_of_check (by decide +kernel)
  simp only [Option.map_eq_some_iff, Prod.mk.injEq] at hfinal
  obtain ⟨tsdb, htsdb, ha, hb⟩ := hfinal
  exact ⟨s, hrun, by decide +kernel, .inl ⟨tsdb, htsdb, ha⟩, .inl ⟨tsdb, htsdb, hb⟩⟩

/-! ### Labels and their ids -/

/-- In every run in which all steps are steady, two series that were ingested since the bucket was
loaded have different ids if the bytes of their sorted labels differ and the digest tells these
bytes apart. -/
theorem labels_have_own_id {storage : Storage} (hstorage : NoRecords storage bucket) {ops : List Op}
    {s : State} (hrun : Run (State.step crates bucket) (steady crates) (State.init storage) ops s)
    {labels labels' : List Label} {id id' : SeriesId} (h : (labels, id) ∈ s.received)
    (h' : (labels', id') ∈ s.received) (hbytes : labelBytes labels ≠ labelBytes labels')
    (hdigest : crates.blake3 (labelBytes labels) = crates.blake3 (labelBytes labels') →
      labelBytes labels = labelBytes labels') : id ≠ id' := by
  rintro rfl
  exact hbytes (hdigest ((idInvariant_run hstorage hrun).received labels labels' id h h'))

/-- Two series in one bucket: they receive different ids. -/
theorem labels_have_own_id_pair :
    ∃ s id id', Run (State.step plainCrates (.hour 0)) (steady plainCrates) (State.init ∅)
        [.load, .ingest [gauge [⟨"a", "x"⟩] [5]], .freeze, .ingest [gauge [⟨"b", "y"⟩] [6]]] s ∧
      ([⟨"a", "x"⟩], id) ∈ s.received ∧ ([⟨"b", "y"⟩], id') ∈ s.received ∧ id ≠ id' := by
  obtain ⟨s, hrun, hreceived⟩ : ∃ s,
      Run (State.step plainCrates (.hour 0)) (steady plainCrates) (State.init ∅)
        [.load, .ingest [gauge [⟨"a", "x"⟩] [5]], .freeze, .ingest [gauge [⟨"b", "y"⟩] [6]]] s ∧
      s.received = [([⟨"a", "x"⟩], 0), ([⟨"b", "y"⟩], 1)] := Run.exists_of_check (by decide +kernel)
  have ha : ([⟨"a", "x"⟩], (0 : SeriesId)) ∈ s.received := by simp [hreceived]
  have hb : ([⟨"b", "y"⟩], (1 : SeriesId)) ∈ s.received := by simp [hreceived]
  refine ⟨s, 0, 1, hrun, ha, hb, ?_⟩
  exact labels_have_own_id (noRecords_empty _) hrun ha hb (by decide +kernel) (by decide +kernel)

/-- The labels `a = bc` and `ab = c` are one series: they receive one id, and the samples of both
are stored under it. -/
theorem concatenation_shares_id :
    ∃ s tsdb samples, Run (State.step plainCrates (.hour 0)) anyStep (State.init ∅)
        [.load, .ingest [gauge [⟨"a", "bc"⟩] [5]], .ingest [gauge [⟨"ab", "c"⟩] [6]]] s ∧
      s.received = [([⟨"a", "bc"⟩], 0), ([⟨"ab", "c"⟩], 0)] ∧ s.tsdb = some tsdb ∧
      tsdb.delta.samples.lookup 0 = some samples ∧ samples.points = [⟨5, 7⟩, ⟨6, 7⟩] := by
  obtain ⟨s, hrun, hreceived, hfinal⟩ : ∃ s,
      Run (State.step plainCrates (.hour 0)) anyStep (State.init ∅)
        [.load, .ingest [gauge [⟨"a", "bc"⟩] [5]], .ingest [gauge [⟨"ab", "c"⟩] [6]]] s ∧
      s.received = [([⟨"a", "bc"⟩], 0), ([⟨"ab", "c"⟩], 0)] ∧
      s.tsdb.map (fun tsdb => (tsdb.delta.samples.lookup 0).map SeriesSamples.points) =
        some (some [⟨5, 7⟩, ⟨6, 7⟩]) := Run.exists_of_check (by decide +kernel)
  simp only [Option.map_eq_some_iff] at hfinal
  obtain ⟨tsdb, htsdb, samples, hsamples, hpoints⟩ := hfinal
  exact ⟨s, tsdb, samples, hrun, hreceived, htsdb, hsamples, hpoints⟩

end Tsdb

end OpenData.Timeseries

import OpenData.Timeseries.Database
import OpenData.Proofs.Timeseries.Accepted
import OpenData.Proofs.Timeseries.Delivery

/-!
# One database for each bucket

Two calls that miss the cache for the same bucket load it twice. Both databases take writes, they
give the same ids to different series, and a flush sees only the one that was inserted last
(`concurrent_load_loses_write`). With one load at a time nothing is lost (`writes_survive`).
-/

namespace OpenData.Timeseries.Database

open Lib Common List Option AList State OpenData.Timeseries.Tsdb

variable {crates : Crates} {L : Finset (List Timeseries.Label)}
  {Q : List Timeseries.Label → Sample → Prop} {storage storage' : Storage} {inst inst' : Instance}

/-! ### What a database holds -/

section

variable (crates : Crates) (storage : Storage) (inst : Instance)

def ReachedBy (n : Nat) (labels : List Timeseries.Label) (id : SeriesId) (time : Int64) : Prop :=
  Reached crates inst.bucket storage (inst.tsdb.frozen.take (n - inst.writtenCount)) labels id time

def Kept (labels : List Timeseries.Label) (time : Int64) : Prop :=
  ∃ id, inst.tsdb.delta.lookup (fingerprint crates labels) = some id ∧
    (Reached crates inst.bucket storage inst.tsdb.frozen labels id time ∨
      HasTime (pointsOf inst.tsdb.delta.samples id) time)

variable (L : Finset (List Timeseries.Label)) (Q : List Timeseries.Label → Sample → Prop)

/-- The database is sound and keeps every sample that it has accepted. -/
structure InstanceOk : Prop where
  sound : ∃ G, Sound crates inst.bucket L Q G storage inst.received inst.tsdb
  counted : inst.frozenCount = inst.writtenCount + inst.tsdb.frozen.length
  idle : inst.hasWrites = false → ∀ id, pointsOf inst.tsdb.delta.samples id = []
  kept : ∀ batch ∈ inst.accepted, ∀ series ∈ batch, ∀ sample ∈ series.samples,
    sortLabels series.labels ∈ L ∧ Kept crates storage inst (sortLabels series.labels)
      sample.timestampMs

/-- The database at a later time: it keeps its ids and what has reached the store. -/
structure InstanceLater (storage' : Storage) (inst' : Instance) : Prop where
  bucket : inst'.bucket = inst.bucket
  accepted : ∀ batch ∈ inst.accepted, batch ∈ inst'.accepted
  lookup : ∀ fp id, inst.tsdb.delta.lookup fp = some id → inst'.tsdb.delta.lookup fp = some id
  reached : ∀ n, ∀ labels ∈ L, ∀ id time,
    inst.tsdb.delta.lookup (fingerprint crates labels) = some id →
    ReachedBy crates storage inst n labels id time →
      ReachedBy crates storage' inst' n labels id time

end

theorem InstanceLater.refl (storage : Storage) (inst : Instance) :
    InstanceLater crates storage inst L storage inst :=
  ⟨rfl, fun _ h => h, fun _ _ h => h, fun _ _ _ _ _ _ h => h⟩

variable {labels : List Timeseries.Label}

theorem eq_some_of_lookup (hinj : Set.InjOn (fingerprint crates) L) {G}
    (h : Sound crates inst.bucket L Q G storage inst.received inst.tsdb) (hlabels : labels ∈ L)
    {id} (hid : inst.tsdb.delta.lookup (fingerprint crates labels) = some id) :
    G id = some labels := by
  obtain ⟨labels', hlabels', hfp⟩ := (h.cataloged.delta.lookup _ id).mp hid
  rwa [hinj (h.cataloged.delta.labels id labels' hlabels') hlabels hfp] at hlabels'

variable {bucket : TimeBucket}

theorem instanceOk_init {context} (hstorage : NoRecords storage bucket)
    (hload : Timeseries.load storage bucket = .ok context) :
    (Instance.init context).bucket = bucket ∧
      InstanceOk crates storage (Instance.init context) L Q := by
  have hsound : Sound crates bucket L Q (fun _ => none) storage []
      { delta := .init context, frozen := [] } := sound_load hstorage hload
  have hbucket : context.bucket = bucket := hsound.cataloged.delta.holds.inBucket
  have hsound' : Sound crates (Instance.init context).bucket L Q (fun _ => none) storage []
      { delta := .init context, frozen := [] } := by
    rw [show (Instance.init context).bucket = bucket from hbucket]
    exact hsound
  exact ⟨hbucket, ⟨_, hsound'⟩, rfl, fun _ _ => rfl, by simp [Instance.init]⟩

variable {frozen : FrozenTsdbDelta} {rest : List FrozenTsdbDelta}

section

variable (hinj : Set.InjOn (fingerprint crates) L)

include hinj

theorem InstanceOk.write (h : InstanceOk crates storage inst L Q) (hL : L.card < 2 ^ 32)
    {batch} (hbatch : ∀ series ∈ batch, sortLabels series.labels ∈ L)
    (hQ : ∀ series ∈ batch, ∀ sample ∈ series.samples, Q (sortLabels series.labels) sample) :
    InstanceOk crates storage (inst.write crates batch).2 L Q ∧
      InstanceLater crates storage inst L storage (inst.write crates batch).2 ∧
      ((inst.write crates batch).1 = .ok () → batch ∈ (inst.write crates batch).2.accepted) := by
  obtain ⟨G, hsound⟩ := h.sound
  have happly : TsdbWriteDelta.Grown (fun _ _ => True) inst.tsdb.delta
      (inst.tsdb.delta.apply crates batch).2 ∧ _ :=
    TsdbWriteDelta.grown_apply fun _ _ _ _ => trivial
  obtain ⟨hgrown, hpushed⟩ := happly
  have hlater : InstanceLater crates storage inst L storage (inst.write crates batch).2 := by
    refine ⟨rfl, fun other hother => ?_, hgrown.extend, fun _ _ _ _ _ _ h => h⟩
    show other ∈ if _ then _ else _
    split
    · exact mem_append_left _ hother
    · exact hother
  have hkeep : ∀ labels time, Kept crates storage inst labels time →
      Kept crates storage (inst.write crates batch).2 labels time := by
    rintro labels time ⟨id, hid, hreached | ⟨p, hp, htime⟩⟩
    · exact ⟨id, hgrown.extend _ id hid, .inl hreached⟩
    · exact ⟨id, hgrown.extend _ id hid, .inr ⟨p, hgrown.keeps id p hp, htime⟩⟩
  refine ⟨⟨hsound.ingest hL hinj hbatch hQ, h.counted, by simp [Instance.write], ?_⟩, hlater, ?_⟩
  · intro other hother series hseries sample hsample
    have hcases : other ∈ inst.accepted ∨
        other = batch ∧ (inst.tsdb.delta.apply crates batch).1 = .ok () := by
      have hmem : other ∈ if (inst.tsdb.delta.apply crates batch).1.isOk then
          inst.accepted ++ [batch] else inst.accepted := hother
      split at hmem
      · rename_i hok
        rcases mem_append.mp hmem with hmem | hmem
        · exact .inl hmem
        · refine .inr ⟨mem_singleton.mp hmem, ?_⟩
          cases hresult : (inst.tsdb.delta.apply crates batch).1 with
          | error => simp [hresult, Except.isOk, Except.toBool] at hok
          | ok => rfl
      · exact .inl hmem
    rcases hcases with hold | ⟨rfl, hok⟩
    · obtain ⟨hlabels, hkept⟩ := h.kept other hold series hseries sample hsample
      exact ⟨hlabels, hkeep _ _ hkept⟩
    · obtain ⟨id, hid, hp⟩ := hpushed hok series hseries sample hsample
      exact ⟨hbatch series hseries, id, hid, .inr ⟨sample, hp, rfl⟩⟩
  · intro hok
    have hok' : (inst.tsdb.delta.apply crates batch).1 = .ok () := hok
    show batch ∈ if (inst.tsdb.delta.apply crates batch).1.isOk then _ else _
    rw [hok']
    exact mem_append_right _ (mem_singleton.mpr rfl)

omit hinj in
theorem InstanceOk.freeze (h : InstanceOk crates storage inst L Q) :
    InstanceOk crates storage inst.freeze L Q ∧
      InstanceLater crates storage inst L storage inst.freeze ∧
      inst.freeze.accepted = inst.accepted ∧ ∀ labels time, Kept crates storage inst labels time →
        ∃ id, inst.freeze.tsdb.delta.lookup (fingerprint crates labels) = some id ∧
          ReachedBy crates storage inst.freeze inst.freeze.frozenCount labels id time := by
  obtain ⟨G, hsound⟩ := h.sound
  by_cases hwrites : inst.hasWrites = true
  · have hfreeze : inst.freeze = { inst with
        tsdb := { delta := .init inst.tsdb.delta.freeze.2,
                  frozen := inst.tsdb.frozen ++ [inst.tsdb.delta.freeze.1] }
        hasWrites := false
        frozenCount := inst.frozenCount + 1 } := if_pos hwrites
    rw [hfreeze]
    have hlookup := TsdbWriteDelta.lookup_init_freeze inst.tsdb.delta
    have hmoved : ∀ labels time, Kept crates storage inst labels time →
        ∃ id, inst.tsdb.delta.lookup (fingerprint crates labels) = some id ∧
          Reached crates inst.bucket storage (inst.tsdb.frozen ++ [inst.tsdb.delta.freeze.1])
            labels id time := by
      rintro labels time ⟨id, hid, hreached | htime⟩
      · exact ⟨id, hid, hreached.mono fun part hpart => mem_append_left _ hpart⟩
      · exact ⟨id, hid, .inr ⟨_, mem_append_right _ (mem_singleton.mpr rfl), htime⟩⟩
    refine ⟨⟨⟨G, hsound.freeze⟩, ?_, fun _ _ => rfl, ?_⟩, ⟨rfl, fun _ h => h, ?_, ?_⟩, rfl, ?_⟩
    · simp only [length_append, length_singleton, h.counted]
      omega
    · intro batch hbatch series hseries sample hsample
      obtain ⟨hlabels, hkept⟩ := h.kept batch hbatch series hseries sample hsample
      obtain ⟨id, hid, hreached⟩ := hmoved _ _ hkept
      exact ⟨hlabels, id, hlookup ▸ hid, .inl hreached⟩
    · intro fp id hid
      exact hlookup ▸ hid
    · intro n labels hlabels id time hid hreached
      refine Reached.mono hreached fun part hpart => ?_
      show part ∈ take (n - inst.writtenCount) (inst.tsdb.frozen ++ _)
      rw [take_append]
      exact mem_append_left _ hpart
    · intro labels time hkept
      obtain ⟨id, hid, hreached⟩ := hmoved labels time hkept
      refine ⟨id, hlookup ▸ hid, ?_⟩
      -- The count of the frozen deltas takes all of them.
      show Reached crates inst.bucket storage
        (take (inst.frozenCount + 1 - inst.writtenCount) (inst.tsdb.frozen ++ _)) labels id time
      rw [take_of_length_le]
      · exact hreached
      · rw [length_append, length_singleton, h.counted]
        omega
  · have hfreeze : inst.freeze = inst := if_neg hwrites
    rw [hfreeze]
    refine ⟨h, InstanceLater.refl storage inst, rfl, ?_⟩
    rintro labels time ⟨id, hid, hreached | ⟨p, hp, -⟩⟩
    · refine ⟨id, hid, ?_⟩
      show Reached crates inst.bucket storage
        (inst.tsdb.frozen.take (inst.frozenCount - inst.writtenCount)) labels id time
      rw [take_of_length_le (by rw [h.counted]; omega)]
      exact hreached
    · rw [h.idle (by simpa using hwrites) id] at hp
      exact absurd hp not_mem_nil

theorem InstanceOk.written (hcrates : crates.RoundTrip) (h : InstanceOk crates storage inst L Q)
    (hfrozen : inst.tsdb.frozen = frozen :: rest)
    (hflush : flushDelta crates storage frozen = .ok storage') :
    InstanceOk crates storage' { inst with
        tsdb := { inst.tsdb with frozen := rest }
        writtenCount := inst.writtenCount + 1 } L Q ∧
      InstanceLater crates storage inst L storage' { inst with
        tsdb := { inst.tsdb with frozen := rest }
        writtenCount := inst.writtenCount + 1 } ∧ frozen.bucket = inst.bucket := by
  obtain ⟨G, hsound⟩ := h.sound
  have hreach : ∀ labels ∈ L, ∀ id time parts,
      inst.tsdb.delta.lookup (fingerprint crates labels) = some id →
      Reached crates inst.bucket storage (frozen :: parts) labels id time →
      Reached crates inst.bucket storage' parts labels id time := by
    intro labels hlabels id time parts hid hreached
    exact hreached.flush hcrates hsound hfrozen hflush (eq_some_of_lookup hinj hsound hlabels hid)
  refine ⟨⟨⟨G, hsound.flush hcrates hfrozen hflush⟩, ?_, h.idle, ?_⟩,
    ⟨rfl, fun _ h => h, fun _ _ h => h, ?_⟩,
    (hsound.cataloged.frozen frozen (by simp [hfrozen])).inBucket⟩
  · have hcounted := h.counted
    rw [hfrozen, length_cons] at hcounted
    show inst.frozenCount = inst.writtenCount + 1 + rest.length
    omega
  · intro batch hbatch series hseries sample hsample
    obtain ⟨hlabels, id, hid, hkept⟩ := h.kept batch hbatch series hseries sample hsample
    refine ⟨hlabels, id, hid, hkept.imp_left fun hreached => ?_⟩
    exact hreach _ hlabels id _ rest hid (hfrozen ▸ hreached)
  · intro n labels hlabels id time hid hreached
    refine hreach labels hlabels id time (rest.take (n - (inst.writtenCount + 1))) hid ?_
    -- One delta less is to be waited for.
    refine Reached.mono hreached fun part hpart => ?_
    rw [hfrozen] at hpart
    cases hn : n - inst.writtenCount with
    | zero =>
      rw [hn, take_zero] at hpart
      exact absurd hpart not_mem_nil
    | succ m =>
      rw [hn, take_succ_cons] at hpart
      rwa [show n - (inst.writtenCount + 1) = m by omega]

omit hinj in
theorem InstanceOk.congr (h : InstanceOk crates storage inst L Q)
    (hflush : flushDelta crates storage frozen = .ok storage') (hne : inst.bucket ≠ frozen.bucket) :
    InstanceOk crates storage' inst L Q ∧ InstanceLater crates storage inst L storage' inst := by
  have hsame : ∀ (t : RecordType) k, t.bucketScopedPrefix inst.bucket <+: k →
      storage'[k]? = storage[k]? := fun t k hk => flushDelta_frame hflush hne hk
  obtain ⟨G, hsound⟩ := h.sound
  refine ⟨⟨⟨G, hsound.congr hsame (flushDelta_listed hflush)⟩, h.counted, h.idle, ?_⟩,
    rfl, fun _ h => h, fun _ _ h => h, fun n labels _ id time _ hreached => hreached.congr hsame⟩
  intro batch hbatch series hseries sample hsample
  obtain ⟨hlabels, id, hid, hkept⟩ := h.kept batch hbatch series hseries sample hsample
  exact ⟨hlabels, id, hid, hkept.imp_left fun hreached => hreached.congr hsame⟩

end

/-! ### Moves -/

/-- What a step of the databases can do. -/
inductive Move (crates : Crates) (s : State) : Label → State → Prop where
  | refused {id seriesList} : Move crates s (.ingest id seriesList) s
  | ingest {id seriesList groups}
      (hnew : s.ingests.lookup id = none) (hgroups : groupByBucket seriesList = .ok groups) :
      Move crates s (.ingest id seriesList)
        (s.setPc id { seriesList, groups, pc := .next } .next)
  | found {id bucket call index} (hcall : s.ingests.lookup id = some call) (hpc : call.pc = .next)
      (hindex : s.cache.lookup bucket = some index) :
      Move crates s (.lookup id bucket) (s.setPc id call (.write bucket index))
  | missed {id bucket call} (hcall : s.ingests.lookup id = some call) (hpc : call.pc = .next)
      (hnone : s.cache.lookup bucket = none) :
      Move crates s (.lookup id bucket) (s.setPc id call (.load bucket))
  | load {id bucket call context}
      (hcall : s.ingests.lookup id = some call) (hpc : call.pc = .load bucket)
      (hload : Timeseries.load s.storage bucket = .ok context) :
      Move crates s (.load id)
        ({ s with instances := s.instances ++ [Instance.init context] }.setPc id call
          (.insert bucket s.instances.length))
  | insert {id bucket call index}
      (hcall : s.ingests.lookup id = some call) (hpc : call.pc = .insert bucket index) :
      Move crates s (.insert id)
        ({ s with cache := s.cache.insert bucket index }.setPc id call (.write bucket index))
  | write {id bucket call index inst batch} (hcall : s.ingests.lookup id = some call)
      (hpc : call.pc = .write bucket index) (hinst : s.instances[index]? = some inst)
      (hbatch : call.groups.lookup bucket = some batch)
      (hok : (inst.write crates batch).1 = .ok ()) :
      Move crates s (.write id)
        ((s.setInstance index (inst.write crates batch).2).setPc id
          { call with groups := call.groups.erase bucket } .next)
  | writeFailed {id bucket call index inst batch} (hcall : s.ingests.lookup id = some call)
      (hpc : call.pc = .write bucket index) (hinst : s.instances[index]? = some inst)
      (hbatch : call.groups.lookup bucket = some batch) :
      Move crates s (.write id)
        ((s.setInstance index (inst.write crates batch).2).dropIngest id)
  | ended {id l call} (hcall : s.ingests.lookup id = some call)
      (hpc : (∃ bucket, call.pc = .load bucket) ∨ ∃ bucket index, call.pc = .write bucket index) :
      Move crates s l (s.dropIngest id)
  | done {id call} (hcall : s.ingests.lookup id = some call)
      (hpc : call.pc = .next) (hgroups : call.groups.entries = []) :
      Move crates s (.done id)
        { s.dropIngest id with returned := s.returned ++ [call.seriesList] }
  | flush {id} : Move crates s (.flush id) { s with flushes := s.flushes.insert id {
        waits := s.cache.entries.map fun e => (e.2, none)
        before := s.returned } }
  | command {id index call inst}
      (hcall : s.flushes.lookup id = some call) (hinst : s.instances[index]? = some inst) :
      Move crates s (.command id index) { s.setInstance index inst.freeze with
        flushes := s.flushes.insert id { call with
          waits := call.waits.map fun w =>
            if w = (index, none) then (index, some inst.freeze.frozenCount) else w } }
  | tick {index inst} (hinst : s.instances[index]? = some inst) :
      Move crates s (.tick index) (s.setInstance index inst.freeze)
  | written {index ok inst frozen rest storage} (hinst : s.instances[index]? = some inst)
      (hfrozen : inst.tsdb.frozen = frozen :: rest)
      (hflush : flushDelta crates s.storage frozen = .ok storage) :
      Move crates s (.written index ok) { s.setInstance index { inst with
          tsdb := { inst.tsdb with frozen := rest }
          writtenCount := inst.writtenCount + 1 } with storage }
  | stopped {index ok inst} (hinst : s.instances[index]? = some inst) :
      Move crates s (.written index ok) (s.setInstance index { inst with failed := true })
  | sync {id call} (hcall : s.flushes.lookup id = some call)
      (hwaits : ∀ w ∈ call.waits, ∃ count inst, w.2 = some count ∧
        s.instances[w.1]? = some inst ∧ count ≤ inst.writtenCount) :
      Move crates s (.sync id) { s with
        flushes := s.flushes.erase id
        flushed := s.flushed ++ [(call.before, s.storage)] }
  | failFlush {id} : Move crates s (.failFlush id) { s with flushes := s.flushes.erase id }

variable {l : Label}

theorem move_of_step {s s'} (h : s.step crates l = some s') :
    Move crates s l s' := by
  cases l with
  | ingest =>
    rw [step, ingest] at h
    split at h
    · cases h
    · rename_i hnew
      split at h
      · cases h
        exact .refused
      · rename_i groups hgroups
        cases h
        exact .ingest (lookup_eq_none.mpr hnew) hgroups
  | lookup =>
    obtain ⟨call, hcall, h⟩ := bind_eq_some_iff.mp h
    split at h
    · rename_i hguard
      split at h
      · rename_i index hindex
        cases h
        exact .found hcall hguard.1 hindex
      · rename_i hnone
        cases h
        exact .missed hcall hguard.1 hnone
    · cases h
  | load =>
    obtain ⟨call, hcall, h⟩ := bind_eq_some_iff.mp h
    split at h
    · rename_i bucket hpc
      split at h
      · cases h
        exact .ended hcall (.inl ⟨bucket, hpc⟩)
      · rename_i context hload
        cases h
        exact .load hcall hpc hload
    · cases h
  | insert =>
    obtain ⟨call, hcall, h⟩ := bind_eq_some_iff.mp h
    split at h
    · rename_i bucket index hpc
      cases h
      exact .insert hcall hpc
    · cases h
  | write =>
    obtain ⟨call, hcall, h⟩ := bind_eq_some_iff.mp h
    split at h
    · rename_i bucket index hpc
      obtain ⟨inst, hinst, h⟩ := bind_eq_some_iff.mp h
      obtain ⟨batch, hbatch, h⟩ := bind_eq_some_iff.mp h
      split at h
      · rename_i inst' hwrite
        cases h
        have hinst' : inst' = (inst.write crates batch).2 := by rw [hwrite]
        exact hinst' ▸ .write hcall hpc hinst hbatch (by rw [hwrite])
      · rename_i inst' hwrite
        cases h
        have hinst' : inst' = (inst.write crates batch).2 := by rw [hwrite]
        exact hinst' ▸ .writeFailed hcall hpc hinst hbatch
    · cases h
  | done =>
    obtain ⟨call, hcall, h⟩ := bind_eq_some_iff.mp h
    split at h
    · rename_i hguard
      cases h
      exact .done hcall hguard.1 (isEmpty_iff.mp hguard.2)
    · cases h
  | fail =>
    obtain ⟨call, hcall, h⟩ := bind_eq_some_iff.mp h
    split at h
    · rename_i bucket hpc
      cases h
      exact .ended hcall (.inl ⟨bucket, hpc⟩)
    · rename_i bucket index hpc
      cases h
      exact .ended hcall (.inr ⟨bucket, index, hpc⟩)
    · cases h
  | flush =>
    rw [step, flush] at h
    split at h
    · cases h
    · cases h
      exact .flush
  | command =>
    obtain ⟨call, hcall, h⟩ := bind_eq_some_iff.mp h
    obtain ⟨inst, hinst, h⟩ := bind_eq_some_iff.mp h
    split at h
    · cases h
      exact .command hcall hinst
    · cases h
  | tick =>
    obtain ⟨inst, hinst, h⟩ := bind_eq_some_iff.mp h
    cases h
    exact .tick hinst
  | written =>
    obtain ⟨inst, hinst, h⟩ := bind_eq_some_iff.mp h
    split at h
    · cases h
    · rename_i frozen rest hfrozen
      split at h
      · cases h
      · split at h
        · rename_i hflush _
          cases h
          exact .written hinst hfrozen hflush
        · cases h
          exact .stopped hinst
  | sync =>
    obtain ⟨call, hcall, h⟩ := bind_eq_some_iff.mp h
    split at h
    · rename_i hall
      cases h
      refine .sync hcall fun w hw => ?_
      have hone := all_eq_true.mp hall w hw
      split at hone
      · rename_i count inst hcount hinst
        exact ⟨count, inst, hcount, hinst, of_decide_eq_true hone⟩
      · cases hone
    · cases h
  | failFlush =>
    rw [step] at h
    split at h
    · cases h
      exact .failFlush
    · cases h

/-! ### The invariant -/

abbrev Cache := AList fun _ : TimeBucket => Nat

def IngestPc.creates : IngestPc → TimeBucket → Bool
  | .load bucket, bucket' => bucket = bucket'
  | .insert bucket _, bucket' => bucket = bucket'
  | _, _ => false

section

variable (crates : Crates) (L : Finset (List Timeseries.Label))
  (Q : List Timeseries.Label → Sample → Prop)

/-- There is one database for a bucket at most, and none for a bucket with records but those that
its database wrote. -/
structure Databases (storage : Storage) (cache : Cache) (instances : List Instance) : Prop where
  ok : ∀ (index : Nat) inst, instances[index]? = some inst → InstanceOk crates storage inst L Q
  distinct : ∀ (index index' : Nat) inst inst', instances[index]? = some inst →
    instances[index']? = some inst' → inst.bucket = inst'.bucket → index = index'
  fresh : ∀ bucket, (∀ inst ∈ instances, inst.bucket ≠ bucket) → NoRecords storage bucket
  cached : ∀ bucket index, cache.lookup bucket = some index →
    ∃ inst, instances[index]? = some inst ∧ inst.bucket = bucket

def PcOk (cache : Cache) (instances : List Instance) : IngestPc → Prop
  | .next => True
  | .load bucket => cache.lookup bucket = none ∧ ∀ inst ∈ instances, inst.bucket ≠ bucket
  | .insert bucket index => cache.lookup bucket = none ∧
      ∃ inst, instances[index]? = some inst ∧ inst.bucket = bucket
  | .write bucket index => cache.lookup bucket = some index

/-- One call at a time creates the database of a bucket. -/
structure Calls (cache : Cache) (instances : List Instance)
    (ingests : AList fun _ : Nat => IngestCall) : Prop where
  pcs : ∀ id call, ingests.lookup id = some call → PcOk cache instances call.pc
  creators : ∀ id id' call call' bucket, ingests.lookup id = some call →
    ingests.lookup id' = some call' → call.pc.creates bucket = true →
    call'.pc.creates bucket = true → id = id'
  known : ∀ index inst, instances[index]? = some inst → cache.lookup inst.bucket = some index ∨
    ∃ id call, ingests.lookup id = some call ∧ call.pc = .insert inst.bucket index

def Instance.Accepts (inst : Instance) (labels : List Timeseries.Label) (sample : Sample) : Prop :=
  ∃ batch ∈ inst.accepted, ∃ part ∈ batch, sortLabels part.labels = labels ∧ sample ∈ part.samples

def Delivered (cache : Cache) (instances : List Instance) (labels : List Timeseries.Label)
    (sample : Sample) : Prop :=
  ∃ bucket index inst, TimeBucket.roundToHour sample.timestampMs = .ok bucket ∧
    cache.lookup bucket = some index ∧ instances[index]? = some inst ∧ inst.Accepts labels sample

/-- A flush waits for the database of the sample, and if the command was handled then the sample is
in one of the deltas it waits for, or stored. -/
def Awaited (storage : Storage) (instances : List Instance) (waits : List (Nat × Option Nat))
    (labels : List Timeseries.Label) (sample : Sample) : Prop :=
  labels ∈ L ∧ ∃ index inst,
    TimeBucket.roundToHour sample.timestampMs = .ok inst.bucket ∧ instances[index]? = some inst ∧
    inst.Accepts labels sample ∧
    ((index, none) ∈ waits ∨ ∃ n id, (index, some n) ∈ waits ∧
      inst.tsdb.delta.lookup (fingerprint crates labels) = some id ∧
      ReachedBy crates storage inst n labels id sample.timestampMs)

/-- Each sample of the call is delivered or in a group that is to be written. -/
structure CallOk (cache : Cache) (instances : List Instance) (call : IngestCall) : Prop where
  groups : ∀ bucket group, call.groups.lookup bucket = some group → ∀ part ∈ group,
    sortLabels part.labels ∈ L ∧ ∀ sample ∈ part.samples, Q (sortLabels part.labels) sample
  progress : ∀ series ∈ call.seriesList, ∀ sample ∈ series.samples,
    (∃ bucket group, TimeBucket.roundToHour sample.timestampMs = .ok bucket ∧
      call.groups.lookup bucket = some group ∧
      ∃ part ∈ group, part.labels = series.labels ∧ sample ∈ part.samples) ∨
    Delivered cache instances (sortLabels series.labels) sample

/-- Where the samples of the calls are: delivered, awaited by a flush, or stored by one. -/
structure Samples (storage : Storage) (cache : Cache) (instances : List Instance)
    (ingests : AList fun _ : Nat => IngestCall) (returned : List (List Series))
    (flushes : AList fun _ : Nat => FlushCall) (flushed : List (List (List Series) × Storage)) :
    Prop where
  calls : ∀ id call, ingests.lookup id = some call → CallOk L Q cache instances call
  returned : ∀ seriesList ∈ returned, ∀ series ∈ seriesList, ∀ sample ∈ series.samples,
    Delivered cache instances (sortLabels series.labels) sample
  awaited : ∀ id call, flushes.lookup id = some call → ∀ seriesList ∈ call.before,
    ∀ series ∈ seriesList, ∀ sample ∈ series.samples,
    Awaited crates L storage instances call.waits (sortLabels series.labels) sample
  flushed : ∀ f ∈ flushed, ∀ seriesList ∈ f.1, ∀ series ∈ seriesList, ∀ sample ∈ series.samples,
    ∃ bucket, TimeBucket.roundToHour sample.timestampMs = .ok bucket ∧
      SampleStored crates Q f.2 bucket (sortLabels series.labels) sample.timestampMs

/-- The cache and the databases at a later time. -/
structure Later (storage : Storage) (cache : Cache) (instances : List Instance) (storage' : Storage)
    (cache' : Cache) (instances' : List Instance) : Prop where
  cache : ∀ bucket index, cache.lookup bucket = some index → cache'.lookup bucket = some index
  instances : ∀ (index : Nat) inst, instances[index]? = some inst → ∃ inst',
    instances'[index]? = some inst' ∧ InstanceLater crates storage inst L storage' inst'

/-- What holds in every state of a run. -/
structure Invariant (s : State) : Prop where
  databases : Databases crates L Q s.storage s.cache s.instances
  calls : Calls s.cache s.instances s.ingests
  samples : Samples crates L Q s.storage s.cache s.instances s.ingests s.returned s.flushes
    s.flushed

/-- A bucket is loaded by one call at a time. -/
def exclusive (s : State) : Label → Prop
  | .lookup _ bucket => s.cache.lookup bucket = none →
      ∀ e ∈ s.ingests.entries, e.2.pc.creates bucket = false
  | _ => True

def known : Label → Prop
  | .ingest _ seriesList => ∀ series ∈ seriesList, sortLabels series.labels ∈ L ∧
      ∀ sample ∈ series.samples, Q (sortLabels series.labels) sample
  | _ => True

end

/-! ### What later states keep -/

variable {call : IngestCall}

section

variable {cache cache' : Cache} {instances instances' : List Instance}

theorem Later.refl (storage : Storage) (cache : Cache) (instances : List Instance) :
    Later crates L storage cache instances storage cache instances :=
  ⟨fun _ _ h => h, fun _ inst h => ⟨inst, h, InstanceLater.refl storage inst⟩⟩

variable {sample : Sample}

theorem InstanceLater.accepts (h : InstanceLater crates storage inst L storage' inst')
    (hsample : inst.Accepts labels sample) : inst'.Accepts labels sample := by
  obtain ⟨batch, hbatch, hpart⟩ := hsample
  exact ⟨batch, h.accepted batch hbatch, hpart⟩

variable (h : Later crates L storage cache instances storage' cache' instances')

include h

theorem Delivered.later (hsample : Delivered cache instances labels sample) :
    Delivered cache' instances' labels sample := by
  obtain ⟨bucket, index, inst, hbucket, hindex, hinst, haccepts⟩ := hsample
  obtain ⟨inst', hinst', hlater⟩ := h.instances index inst hinst
  exact ⟨bucket, index, inst', hbucket, h.cache bucket index hindex, hinst',
    hlater.accepts haccepts⟩

theorem Awaited.later {waits} (hsample : Awaited crates L storage instances waits labels sample) :
    Awaited crates L storage' instances' waits labels sample := by
  obtain ⟨hlabels, index, inst, hbucket, hinst, haccepts, hwait⟩ := hsample
  obtain ⟨inst', hinst', hlater⟩ := h.instances index inst hinst
  refine ⟨hlabels, index, inst', hlater.bucket ▸ hbucket, hinst', hlater.accepts haccepts, ?_⟩
  rcases hwait with hwait | ⟨n, id, hwait, hid, hreached⟩
  · exact .inl hwait
  · exact .inr ⟨n, id, hwait, hlater.lookup _ id hid,
      hlater.reached n labels hlabels id _ hid hreached⟩

theorem CallOk.later (hcall : CallOk L Q cache instances call) :
    CallOk L Q cache' instances' call :=
  ⟨hcall.groups, fun series hseries sample hsample =>
    (hcall.progress series hseries sample hsample).imp_right fun hdelivered => hdelivered.later h⟩

theorem Samples.later {ingests returned flushes flushed}
    (hsamples : Samples crates L Q storage cache instances ingests returned flushes flushed) :
    Samples crates L Q storage' cache' instances' ingests returned flushes flushed where
  calls id call hcall := (hsamples.calls id call hcall).later h
  returned seriesList hlist series hseries sample hsample :=
    (hsamples.returned seriesList hlist series hseries sample hsample).later h
  awaited id call hcall seriesList hlist series hseries sample hsample :=
    (hsamples.awaited id call hcall seriesList hlist series hseries sample hsample).later h
  flushed := hsamples.flushed

end

/-! ### Steps of a database -/

section

variable {cache : Cache} {instances : List Instance} {index : Nat}

theorem getElem?_set_cases {index' other} (h : (instances.set index inst')[index']? = some other) :
    index' = index ∧ other = inst' ∨ index' ≠ index ∧ instances[index']? = some other := by
  by_cases heq : index' = index
  · subst heq
    rw [List.getElem?_set_self'] at h
    obtain ⟨_, -, rfl⟩ := map_eq_some_iff.mp h
    exact .inl ⟨rfl, rfl⟩
  · rw [getElem?_set_ne (Ne.symm heq)] at h
    exact .inr ⟨heq, h⟩

theorem getElem?_set_of_some (hinst : instances[index]? = some inst) :
    (instances.set index inst')[index]? = some inst' := by
  rw [List.getElem?_set_self', hinst]
  rfl

section

variable (h : Databases crates L Q storage cache instances)
include h

theorem Databases.set
    (hinst : instances[index]? = some inst) (hok : InstanceOk crates storage' inst' L Q)
    (hlater : InstanceLater crates storage inst L storage' inst')
    (hothers : ∀ (index' : Nat) other, index' ≠ index → instances[index']? = some other →
      InstanceOk crates storage' other L Q ∧ InstanceLater crates storage other L storage' other)
    (hfresh : ∀ bucket, (∀ other ∈ instances, other.bucket ≠ bucket) →
      NoRecords storage bucket → NoRecords storage' bucket) :
    Databases crates L Q storage' cache (instances.set index inst') ∧
      Later crates L storage cache instances storage' cache (instances.set index inst') := by
  have hsome : (instances.set index inst')[index]? = some inst' := getElem?_set_of_some hinst
  have hfind : ∀ (index' : Nat) other, instances[index']? = some other → ∃ other',
      (instances.set index inst')[index']? = some other' ∧
      InstanceLater crates storage other L storage' other' := by
    intro index' other hother
    by_cases heq : index' = index
    · subst heq
      rw [hinst, some.injEq] at hother
      exact ⟨inst', hsome, hother ▸ hlater⟩
    · exact ⟨other, by rw [getElem?_set_ne (Ne.symm heq), hother],
        (hothers index' other heq hother).2⟩
  have hold : ∀ (index' : Nat) other', (instances.set index inst')[index']? = some other' →
      ∃ other, instances[index']? = some other ∧ other'.bucket = other.bucket := by
    intro index' other' hother'
    rcases getElem?_set_cases hother' with ⟨rfl, rfl⟩ | ⟨-, hother⟩
    · exact ⟨inst, hinst, hlater.bucket⟩
    · exact ⟨other', hother, rfl⟩
  refine ⟨⟨?_, ?_, ?_, ?_⟩, fun _ _ h => h, hfind⟩
  · intro index' other' hother'
    rcases getElem?_set_cases hother' with ⟨-, rfl⟩ | ⟨hne, hother⟩
    · exact hok
    · exact (hothers index' other' hne hother).1
  · intro i j a b ha hb heq
    obtain ⟨a0, ha0, hbucket⟩ := hold i a ha
    obtain ⟨b0, hb0, hbucket'⟩ := hold j b hb
    exact h.distinct i j a0 b0 ha0 hb0 (by rw [← hbucket, heq, hbucket'])
  · intro bucket hbucket
    have hnone : ∀ other ∈ instances, other.bucket ≠ bucket := by
      intro other hother
      obtain ⟨index', hindex'⟩ := getElem?_of_mem hother
      obtain ⟨other', hother', hlater'⟩ := hfind index' other hindex'
      exact hlater'.bucket ▸ hbucket other' (mem_of_getElem? hother')
    exact hfresh bucket hnone (h.fresh bucket hnone)
  · intro bucket index' hindex'
    obtain ⟨other, hother, hbucket⟩ := h.cached bucket index' hindex'
    obtain ⟨other', hother', hlater'⟩ := hfind index' other hother
    exact ⟨other', hother', hlater'.bucket.trans hbucket⟩

theorem Databases.set_same
    (hinst : instances[index]? = some inst) (hok : InstanceOk crates storage inst' L Q)
    (hlater : InstanceLater crates storage inst L storage inst') :
    Databases crates L Q storage cache (instances.set index inst') ∧
      Later crates L storage cache instances storage cache (instances.set index inst') :=
  h.set hinst hok hlater
    (fun index' other _ hother => ⟨h.ok index' other hother, InstanceLater.refl storage other⟩)
    fun _ _ hnone => hnone

theorem Databases.append (hok : InstanceOk crates storage inst L Q)
    (hnew : ∀ other ∈ instances, other.bucket ≠ inst.bucket) :
    Databases crates L Q storage cache (instances ++ [inst]) ∧
      Later crates L storage cache instances storage cache (instances ++ [inst]) := by
  have hcases : ∀ (i : Nat) other, (instances ++ [inst])[i]? = some other →
      instances[i]? = some other ∨ i = instances.length ∧ other = inst := by
    intro i other hother
    rcases Nat.lt_or_ge i instances.length with hlt | hge
    · exact .inl (by rwa [List.getElem?_append_left hlt] at hother)
    · rw [List.getElem?_append_right hge, List.getElem?_singleton] at hother
      split at hother <;> cases hother
      exact .inr ⟨by omega, rfl⟩
  have hkeep : ∀ (i : Nat) other, instances[i]? = some other →
      (instances ++ [inst])[i]? = some other := by
    intro i other hother
    rw [List.getElem?_append_left (List.getElem?_eq_some_iff.mp hother).1, hother]
  refine ⟨⟨?_, ?_, ?_, ?_⟩, fun _ _ h => h, fun i other hother =>
    ⟨other, hkeep i other hother, InstanceLater.refl storage other⟩⟩
  · intro i other hother
    rcases hcases i other hother with hother | ⟨-, rfl⟩
    · exact h.ok i other hother
    · exact hok
  · intro i j a b ha hb heq
    rcases hcases i a ha with ha' | ⟨rfl, rfl⟩ <;> rcases hcases j b hb with hb' | ⟨rfl, rfl⟩
    · exact h.distinct i j a b ha' hb' heq
    · exact absurd heq (hnew a (mem_of_getElem? ha'))
    · exact absurd heq.symm (hnew b (mem_of_getElem? hb'))
    · rfl
  · exact fun bucket hbucket => h.fresh bucket fun other hother =>
      hbucket other (mem_append_left _ hother)
  · intro bucket i hi
    obtain ⟨other, hother, hbucket⟩ := h.cached bucket i hi
    exact ⟨other, hkeep i other hother, hbucket⟩

end

theorem Databases.written (hinj : Set.InjOn (fingerprint crates) L) (hcrates : crates.RoundTrip)
    (h : Databases crates L Q storage cache instances) (hinst : instances[index]? = some inst)
    (hfrozen : inst.tsdb.frozen = frozen :: rest)
    (hflush : flushDelta crates storage frozen = .ok storage') :
    Databases crates L Q storage' cache (instances.set index { inst with
        tsdb := { inst.tsdb with frozen := rest }
        writtenCount := inst.writtenCount + 1 }) ∧
      Later crates L storage cache instances storage' cache (instances.set index { inst with
        tsdb := { inst.tsdb with frozen := rest }
        writtenCount := inst.writtenCount + 1 }) := by
  obtain ⟨hok, hlater, hbucket⟩ := (h.ok index inst hinst).written hinj hcrates hfrozen hflush
  refine h.set hinst hok hlater (fun index' other hne hother => ?_) fun bucket hnone hrecords => ?_
  · refine (h.ok index' other hother).congr hflush fun heq => hne ?_
    exact h.distinct index' index other inst hother hinst (heq.trans hbucket)
  · refine hrecords.congr fun t k hk => flushDelta_frame hflush ?_ hk
    rw [hbucket]
    exact (hnone inst (mem_of_getElem? hinst)).symm

end

/-! ### Steps of the calls -/

variable {id index : Nat}

section

variable {cache : Cache} {instances : List Instance} {ingests : AList fun _ : Nat => IngestCall}

theorem lookup_insert_cases {κ ν : Type} [DecidableEq κ] {t : AList fun _ : κ => ν} {k k'}
    {v v'} (h : (t.insert k v).lookup k' = some v') :
    k' = k ∧ v' = v ∨ k' ≠ k ∧ t.lookup k' = some v' := by
  by_cases heq : k' = k
  · subst heq
    rw [lookup_insert, some.injEq] at h
    exact .inl ⟨rfl, h.symm⟩
  · rw [lookup_insert_ne heq] at h
    exact .inr ⟨heq, h⟩

theorem lookup_erase_of_some {κ ν : Type} [DecidableEq κ] {t : AList fun _ : κ => ν} {k k'}
    {v} (h : (t.erase k).lookup k' = some v) : k' ≠ k ∧ t.lookup k' = some v := by
  by_cases heq : k' = k
  · subst heq
    rw [lookup_erase] at h
    cases h
  · rw [lookup_erase_ne heq] at h
    exact ⟨heq, h⟩

section

variable (h : Calls cache instances ingests)
include h

theorem Calls.setPc (hpc : PcOk cache instances call.pc)
    (hcreates : ∀ bucket, call.pc.creates bucket = false)
    (hold : ∀ old, ingests.lookup id = some old → ∀ bucket index, old.pc ≠ .insert bucket index) :
    Calls cache instances (ingests.insert id call) where
  pcs id' call' hcall' := by
    rcases lookup_insert_cases hcall' with ⟨-, rfl⟩ | ⟨-, hcall'⟩
    · exact hpc
    · exact h.pcs id' call' hcall'
  creators i j a b bucket ha hb hcreatesA hcreatesB := by
    rcases lookup_insert_cases ha with ⟨-, rfl⟩ | ⟨-, ha⟩
    · rw [hcreates] at hcreatesA
      cases hcreatesA
    · rcases lookup_insert_cases hb with ⟨-, rfl⟩ | ⟨-, hb⟩
      · rw [hcreates] at hcreatesB
        cases hcreatesB
      · exact h.creators i j a b bucket ha hb hcreatesA hcreatesB
  known index inst hinst := by
    rcases h.known index inst hinst with hcached | ⟨i, c, hc, hpc'⟩
    · exact .inl hcached
    · refine .inr ⟨i, c, ?_, hpc'⟩
      rw [lookup_insert_ne, hc]
      rintro rfl
      exact hold c hc _ _ hpc'

theorem Calls.erase
    (hold : ∀ old, ingests.lookup id = some old → ∀ bucket index, old.pc ≠ .insert bucket index) :
    Calls cache instances (ingests.erase id) where
  pcs id' call' hcall' := h.pcs id' call' (lookup_erase_of_some hcall').2
  creators i j a b bucket ha hb :=
    h.creators i j a b bucket (lookup_erase_of_some ha).2 (lookup_erase_of_some hb).2
  known index inst hinst := by
    rcases h.known index inst hinst with hcached | ⟨i, c, hc, hpc'⟩
    · exact .inl hcached
    · refine .inr ⟨i, c, ?_, hpc'⟩
      rw [lookup_erase_ne, hc]
      rintro rfl
      exact hold c hc _ _ hpc'

theorem Calls.set (hinst : instances[index]? = some inst)
    (hbucket : inst'.bucket = inst.bucket) : Calls cache (instances.set index inst') ingests where
  pcs id call hcall := by
    have hpc := h.pcs id call hcall
    cases hcase : call.pc with
    | next => trivial
    | load =>
      rw [hcase] at hpc
      refine ⟨hpc.1, fun other hother => ?_⟩
      obtain ⟨i, hi⟩ := getElem?_of_mem hother
      rcases getElem?_set_cases hi with ⟨-, rfl⟩ | ⟨-, hi⟩
      · exact hbucket ▸ hpc.2 inst (mem_of_getElem? hinst)
      · exact hpc.2 other (mem_of_getElem? hi)
    | insert bucket i =>
      rw [hcase] at hpc
      obtain ⟨hnone, other, hother, hb⟩ := hpc
      refine ⟨hnone, ?_⟩
      by_cases heq : i = index
      · subst heq
        rw [hinst, some.injEq] at hother
        exact ⟨inst', getElem?_set_of_some hinst, hbucket.trans (hother ▸ hb)⟩
      · exact ⟨other, by rw [getElem?_set_ne (Ne.symm heq), hother], hb⟩
    | write =>
      rw [hcase] at hpc
      exact hpc
  creators := h.creators
  known i other hother := by
    rcases getElem?_set_cases hother with ⟨rfl, rfl⟩ | ⟨-, hother⟩
    · exact hbucket ▸ h.known i inst hinst
    · exact h.known i other hother

section

variable (hcall : ingests.lookup id = some call)
include hcall

theorem Calls.missed (hpc : call.pc = .next) (hnone : cache.lookup bucket = none)
    (halone : ∀ id' call', ingests.lookup id' = some call' → call'.pc.creates bucket = false) :
    Calls cache instances (ingests.insert id { call with pc := .load bucket }) where
  pcs id' call' hcall' := by
    rcases lookup_insert_cases hcall' with ⟨-, rfl⟩ | ⟨-, hcall'⟩
    · refine ⟨hnone, fun inst hinst heq => ?_⟩
      obtain ⟨index, hindex⟩ := getElem?_of_mem hinst
      rcases h.known index inst hindex with hcached | ⟨i, c, hc, hinsert⟩
      · rw [heq, hnone] at hcached
        cases hcached
      · have hother := halone i c hc
        rw [hinsert, heq] at hother
        simp [IngestPc.creates] at hother
    · exact h.pcs id' call' hcall'
  creators i j a b bucket' ha hb hcreatesA hcreatesB := by
    rcases lookup_insert_cases ha with ⟨rfl, rfl⟩ | ⟨-, ha'⟩ <;>
      rcases lookup_insert_cases hb with ⟨rfl, rfl⟩ | ⟨-, hb'⟩
    · rfl
    · obtain rfl : bucket = bucket' := by simpa [IngestPc.creates] using hcreatesA
      rw [halone j b hb'] at hcreatesB
      cases hcreatesB
    · obtain rfl : bucket = bucket' := by simpa [IngestPc.creates] using hcreatesB
      rw [halone i a ha'] at hcreatesA
      cases hcreatesA
    · exact h.creators i j a b bucket' ha' hb' hcreatesA hcreatesB
  known index inst hinst := by
    rcases h.known index inst hinst with hcached | ⟨i, c, hc, hinsert⟩
    · exact .inl hcached
    · refine .inr ⟨i, c, ?_, hinsert⟩
      rw [lookup_insert_ne, hc]
      rintro rfl
      rw [hcall, some.injEq] at hc
      rw [← hc, hpc] at hinsert
      cases hinsert

theorem Calls.load (hpc : call.pc = .load inst.bucket) : Calls cache (instances ++ [inst])
      (ingests.insert id { call with pc := .insert inst.bucket instances.length }) where
  pcs id' call' hcall' := by
    rcases lookup_insert_cases hcall' with ⟨-, rfl⟩ | ⟨hne, hcall'⟩
    · have hold := h.pcs id call hcall
      rw [hpc] at hold
      exact ⟨hold.1, inst, by simp, rfl⟩
    · have hold := h.pcs id' call' hcall'
      cases hcase : call'.pc with
      | next => trivial
      | load bucket =>
        rw [hcase] at hold
        refine ⟨hold.1, fun other hother heq => ?_⟩
        rcases mem_append.mp hother with hother | hother
        · exact hold.2 other hother heq
        · -- No other call is creating the bucket.
          rw [mem_singleton.mp hother] at heq
          refine hne (h.creators id' id call' call bucket hcall' hcall ?_ ?_)
          · simp [hcase, IngestPc.creates]
          · simp [hpc, heq, IngestPc.creates]
      | insert =>
        rw [hcase] at hold
        obtain ⟨hnone, other, hother, hb⟩ := hold
        exact ⟨hnone, other, by
          rw [List.getElem?_append_left (List.getElem?_eq_some_iff.mp hother).1, hother], hb⟩
      | write =>
        rw [hcase] at hold
        exact hold
  creators i j a b bucket ha hb hcreatesA hcreatesB := by
    have hsame : ∀ c : IngestCall, c.pc = .load inst.bucket → ∀ b,
        ({ c with pc := .insert inst.bucket instances.length } : IngestCall).pc.creates b =
          c.pc.creates b := by
      intro c hc b
      rw [hc]
      rfl
    rcases lookup_insert_cases ha with ⟨rfl, rfl⟩ | ⟨-, ha'⟩ <;>
      rcases lookup_insert_cases hb with ⟨rfl, rfl⟩ | ⟨-, hb'⟩
    · rfl
    · exact h.creators i j call b bucket hcall hb' (hsame call hpc bucket ▸ hcreatesA) hcreatesB
    · exact h.creators i j a call bucket ha' hcall hcreatesA (hsame call hpc bucket ▸ hcreatesB)
    · exact h.creators i j a b bucket ha' hb' hcreatesA hcreatesB
  known index other hother := by
    rcases Nat.lt_or_ge index instances.length with hlt | hge
    · rw [List.getElem?_append_left hlt] at hother
      rcases h.known index other hother with hcached | ⟨i, c, hc, hinsert⟩
      · exact .inl hcached
      · refine .inr ⟨i, c, ?_, hinsert⟩
        rw [lookup_insert_ne, hc]
        rintro rfl
        rw [hcall, some.injEq] at hc
        rw [← hc, hpc] at hinsert
        cases hinsert
    · rw [List.getElem?_append_right hge, List.getElem?_singleton] at hother
      split at hother <;> cases hother
      refine .inr ⟨id, _, lookup_insert _, ?_⟩
      rw [show index = instances.length by omega]

theorem Calls.insert (hpc : call.pc = .insert bucket index) :
    Calls (cache.insert bucket index) instances
      (ingests.insert id { call with pc := .write bucket index }) where
  pcs id' call' hcall' := by
    rcases lookup_insert_cases hcall' with ⟨-, rfl⟩ | ⟨hne, hcall'⟩
    · exact lookup_insert _
    · have hold := h.pcs id' call' hcall'
      have hother : call'.pc.creates bucket = false := by
        by_contra hcreates
        refine hne (h.creators id' id call' call bucket hcall' hcall (by simpa using hcreates) ?_)
        simp [hpc, IngestPc.creates]
      cases hcase : call'.pc with
      | next => trivial
      | load bucket' | insert bucket' =>
        rw [hcase] at hold hother
        have hb : bucket' ≠ bucket := by simpa [IngestPc.creates] using hother
        exact ⟨by rw [lookup_insert_ne hb]; exact hold.1, hold.2⟩
      | write bucket' i =>
        rw [hcase] at hold
        have hmine := h.pcs id call hcall
        rw [hpc] at hmine
        show (cache.insert bucket index).lookup bucket' = some i
        rw [lookup_insert_ne]
        · exact hold
        · rintro rfl
          have hnone : cache.lookup bucket' = none := hmine.1
          rw [show cache.lookup bucket' = some i from hold] at hnone
          cases hnone
  creators i j a b bucket' ha hb hcreatesA hcreatesB := by
    rcases lookup_insert_cases ha with ⟨-, rfl⟩ | ⟨-, ha⟩
    · cases hcreatesA
    · rcases lookup_insert_cases hb with ⟨-, rfl⟩ | ⟨-, hb⟩
      · cases hcreatesB
      · exact h.creators i j a b bucket' ha hb hcreatesA hcreatesB
  known i inst hinst := by
    rcases h.known i inst hinst with hcached | ⟨id', c, hc, hinsert⟩
    · by_cases hb : inst.bucket = bucket
      · have hmine := h.pcs id call hcall
        rw [hpc] at hmine
        rw [hb, hmine.1] at hcached
        cases hcached
      · exact .inl (by rw [lookup_insert_ne hb]; exact hcached)
    · by_cases hid : id' = id
      · subst hid
        rw [hcall, some.injEq] at hc
        rw [← hc, hpc, IngestPc.insert.injEq] at hinsert
        exact .inl (by rw [← hinsert.1, ← hinsert.2, lookup_insert])
      · exact .inr ⟨id', c, by rw [lookup_insert_ne hid, hc], hinsert⟩

end

end

end

/-! ### Steps of the samples -/

section

variable {cache : Cache} {instances : List Instance} {ingests : AList fun _ : Nat => IngestCall}
  {returned : List (List Series)} {flushes : AList fun _ : Nat => FlushCall}
  {flushed : List (List (List Series) × Storage)}
  (h : Samples crates L Q storage cache instances ingests returned flushes flushed)

include h

theorem Samples.setCall (hcall : CallOk L Q cache instances call) :
    Samples crates L Q storage cache instances (ingests.insert id call) returned flushes
      flushed where
  calls id' call' hcall' := by
    rcases lookup_insert_cases hcall' with ⟨-, rfl⟩ | ⟨-, hcall'⟩
    · exact hcall
    · exact h.calls id' call' hcall'
  __ := h

theorem Samples.eraseCall (id : Nat) :
    Samples crates L Q storage cache instances (ingests.erase id) returned flushes flushed where
  calls id' call' hcall' := h.calls id' call' (lookup_erase_of_some hcall').2
  __ := h

theorem Samples.done (hcall : ingests.lookup id = some call) (hgroups : call.groups.entries = []) :
    Samples crates L Q storage cache instances (ingests.erase id) (returned ++ [call.seriesList])
      flushes flushed where
  calls := (h.eraseCall id).calls
  returned seriesList hlist series hseries sample hsample := by
    rcases mem_append.mp hlist with hlist | hlist
    · exact h.returned seriesList hlist series hseries sample hsample
    · rw [mem_singleton.mp hlist] at hseries
      refine ((h.calls id call hcall).progress series hseries sample hsample).resolve_left ?_
      rintro ⟨bucket, group, -, hgroup, -⟩
      have hmem := mem_lookup_iff.mp hgroup
      rw [hgroups] at hmem
      exact absurd hmem not_mem_nil
  __ := h

theorem Samples.flush (hdatabases : Databases crates L Q storage cache instances) (id : Nat) :
    Samples crates L Q storage cache instances ingests returned
      (flushes.insert id { waits := cache.entries.map fun e => (e.2, none), before := returned })
      flushed where
  __ := h
  awaited id' call' hcall' := by
    rcases lookup_insert_cases hcall' with ⟨-, rfl⟩ | ⟨-, hcall'⟩
    · intro seriesList hlist series hseries sample hsample
      obtain ⟨bucket, index, inst, hbucket, hindex, hinst, haccepts⟩ :=
        h.returned seriesList hlist series hseries sample hsample
      obtain ⟨inst', hinst', hinstBucket⟩ := hdatabases.cached bucket index hindex
      obtain rfl := mem_unique hinst hinst'
      obtain ⟨batch, hbatch, part, hpart, hlabels, hsample'⟩ := haccepts
      have hkept := (hdatabases.ok index inst hinst).kept batch hbatch part hpart sample hsample'
      refine ⟨hlabels ▸ hkept.1, index, inst, hinstBucket ▸ hbucket, hinst,
        ⟨batch, hbatch, part, hpart, hlabels, hsample'⟩, .inl ?_⟩
      exact mem_map.mpr ⟨⟨bucket, index⟩, mem_lookup_iff.mp hindex, rfl⟩
    · exact h.awaited id' call' hcall'

theorem Samples.eraseFlush (id : Nat) :
    Samples crates L Q storage cache instances ingests returned (flushes.erase id) flushed where
  __ := h
  awaited id' call' hcall' := h.awaited id' call' (lookup_erase_of_some hcall').2

theorem Samples.sync (hinj : Set.InjOn (fingerprint crates) L)
    (hdatabases : Databases crates L Q storage cache instances) {call}
    (hcall : flushes.lookup id = some call)
    (hwaits : ∀ w ∈ call.waits, ∃ count inst, w.2 = some count ∧
      instances[w.1]? = some inst ∧ count ≤ inst.writtenCount) :
    Samples crates L Q storage cache instances ingests returned (flushes.erase id)
      (flushed ++ [(call.before, storage)]) where
  __ := h
  awaited := (h.eraseFlush id).awaited
  flushed f hf seriesList hlist series hseries sample hsample := by
    rcases mem_append.mp hf with hf | hf
    · exact h.flushed f hf seriesList hlist series hseries sample hsample
    · rw [mem_singleton.mp hf] at hlist ⊢
      obtain ⟨hlabels, index, inst, hbucket, hinst, -, hwait⟩ :=
        h.awaited id call hcall seriesList hlist series hseries sample hsample
      refine ⟨inst.bucket, hbucket, ?_⟩
      rcases hwait with hwait | ⟨n, seriesId, hwait, hid, hreached⟩
      · obtain ⟨count, -, hnone, -⟩ := hwaits _ hwait
        cases hnone
      · obtain ⟨count, inst', hcount, hinst', hle⟩ := hwaits _ hwait
        cases hcount
        obtain rfl := mem_unique hinst hinst'
        obtain ⟨G, hsound⟩ := (hdatabases.ok index inst hinst).sound
        rw [ReachedBy, Nat.sub_eq_zero_of_le hle, take_zero] at hreached
        exact hreached.sampleStored hsound (eq_some_of_lookup hinj hsound hlabels hid)

theorem Samples.command (hdatabases : Databases crates L Q storage cache instances)
    {call : FlushCall} (hcall : flushes.lookup id = some call)
    (hinst : instances[index]? = some inst) :
    Samples crates L Q storage cache (instances.set index inst.freeze) ingests returned
      (flushes.insert id { call with
        waits := call.waits.map fun w =>
          if w = (index, none) then (index, some inst.freeze.frozenCount) else w }) flushed := by
  have hok := hdatabases.ok index inst hinst
  obtain ⟨hok', hinstLater, haccepted, hmoved⟩ := hok.freeze
  obtain ⟨-, hlater⟩ := hdatabases.set_same hinst hok' hinstLater
  have hsamples := h.later hlater
  refine ⟨hsamples.calls, hsamples.returned, fun id' call' hcall' => ?_, h.flushed⟩
  rcases lookup_insert_cases hcall' with ⟨-, rfl⟩ | ⟨-, hcall'⟩
  · intro seriesList hlist series hseries sample hsample
    obtain ⟨hlabels, i, other, hbucket, hother, haccepts, hwait⟩ :=
      hsamples.awaited id call hcall seriesList hlist series hseries sample hsample
    refine ⟨hlabels, i, other, hbucket, hother, haccepts, ?_⟩
    rcases hwait with hwait | ⟨n, seriesId, hwait, hid, hreached⟩
    · by_cases heq : i = index
      · -- What the database held is in the deltas that are frozen now.
        subst heq
        obtain rfl := some.inj ((getElem?_set_of_some hinst).symm.trans hother)
        obtain ⟨batch, hbatch, part, hpart, hpartLabels, hsample'⟩ := haccepts
        obtain ⟨-, hkept⟩ := hok.kept batch (haccepted ▸ hbatch) part hpart sample hsample'
        obtain ⟨seriesId, hid, hreached⟩ := hmoved _ _ hkept
        refine .inr ⟨inst.freeze.frozenCount, seriesId, ?_, hpartLabels ▸ hid,
          hpartLabels ▸ hreached⟩
        exact mem_map.mpr ⟨_, hwait, if_pos rfl⟩
      · refine .inl (mem_map.mpr ⟨_, hwait, if_neg ?_⟩)
        simpa using heq
    · exact .inr ⟨n, seriesId, mem_map.mpr ⟨_, hwait, if_neg (by simp)⟩, hid, hreached⟩
  · exact hsamples.awaited id' call' hcall'

end

/-! ### Runs -/

theorem invariant_init (hstorage : ∀ bucket, NoRecords storage bucket) :
    Invariant crates L Q (init storage) := by
  refine ⟨⟨?_, ?_, fun bucket _ => hstorage bucket, ?_⟩, ⟨?_, ?_, ?_⟩, ?_, ?_, ?_, ?_⟩ <;>
    simp [init]

variable {instances : List Instance} {cache : Cache}

theorem CallOk.batch (h : CallOk L Q cache instances call) {batch}
    (hbatch : call.groups.lookup bucket = some batch) :
    (∀ series ∈ batch, sortLabels series.labels ∈ L) ∧
      ∀ series ∈ batch, ∀ sample ∈ series.samples, Q (sortLabels series.labels) sample :=
  ⟨fun series hseries => (h.groups bucket batch hbatch series hseries).1,
    fun series hseries => (h.groups bucket batch hbatch series hseries).2⟩

theorem CallOk.write (h : CallOk L Q cache instances call) {batch : List Series}
    (hbatch : call.groups.lookup bucket = some batch) (hindex : cache.lookup bucket = some index)
    (hinst : instances[index]? = some inst) (haccepted : batch ∈ inst.accepted) (pc : IngestPc) :
    CallOk L Q cache instances { call with groups := call.groups.erase bucket, pc } where
  groups bucket' group hgroup := h.groups bucket' group (lookup_erase_of_some hgroup).2
  progress series hseries sample hsample := by
    rcases h.progress series hseries sample hsample with
      ⟨bucket', group, hbucket, hgroup, part, hpart, hlabels, hmem⟩ | hdelivered
    · by_cases heq : bucket' = bucket
      · subst heq
        obtain rfl := mem_unique hbatch hgroup
        exact .inr ⟨bucket', index, inst, hbucket, hindex, hinst, batch, haccepted, part, hpart,
          by rw [hlabels], hmem⟩
      · refine .inl ⟨bucket', group, hbucket, ?_, part, hpart, hlabels, hmem⟩
        show (call.groups.erase bucket).lookup bucket' = some group
        rw [lookup_erase_ne heq, hgroup]
    · exact .inr hdelivered

theorem callOk_ingest {seriesList groups} (hknown : known L Q (.ingest id seriesList))
    (hgroups : groupByBucket seriesList = .ok groups) :
    CallOk L Q cache instances { seriesList, groups, pc := .next } where
  groups bucket group hgroup part hpart := by
    obtain ⟨series, hseries, hspec, hsamples⟩ := exists_series_of_mem_group hgroups hgroup hpart
    have hlabels : sortLabels part.labels = sortLabels series.labels :=
      congrArg SeriesSpec.labels hspec
    rw [hlabels]
    exact ⟨(hknown series hseries).1, fun sample hsample =>
      (hknown series hseries).2 sample (hsamples sample hsample)⟩
  progress series hseries sample hsample := .inl (exists_group_of_mem hgroups hseries hsample)

theorem invariant_step (hcrates : crates.RoundTrip) (hL : L.card < 2 ^ 32)
    (hinj : Set.InjOn (fingerprint crates) L) {s s' : State}
    (h : Invariant crates L Q s) (hok : exclusive s l) (hknown : known L Q l)
    (hstep : s.step crates l = some s') : Invariant crates L Q s' := by
  obtain ⟨hdatabases, hcalls, hsamples⟩ := h
  -- A call that is not about to insert a database may go on or end.
  have hfree : ∀ {id : Nat} {call : IngestCall}, s.ingests.lookup id = some call →
      (∀ bucket index, call.pc ≠ .insert bucket index) →
      ∀ old, s.ingests.lookup id = some old → ∀ bucket index, old.pc ≠ .insert bucket index := by
    intro id call hcall hpc old hold
    rwa [← mem_unique hcall hold]
  cases move_of_step hstep with
  | refused => exact ⟨hdatabases, hcalls, hsamples⟩
  | ingest hnew hgroups =>
    refine ⟨hdatabases, hcalls.setPc trivial (fun _ => rfl) ?_,
      hsamples.setCall (callOk_ingest hknown hgroups)⟩
    intro old hold
    rw [hnew] at hold
    cases hold
  | found hcall hpc hindex =>
    have hcallOk := hsamples.calls _ _ hcall
    exact ⟨hdatabases, hcalls.setPc hindex (fun _ => rfl) (hfree hcall (by simp [hpc])),
      hsamples.setCall ⟨hcallOk.groups, hcallOk.progress⟩⟩
  | missed hcall hpc hnone =>
    have hcallOk := hsamples.calls _ _ hcall
    exact ⟨hdatabases, hcalls.missed hcall hpc hnone fun id' call' hcall' =>
      hok hnone ⟨id', call'⟩ (mem_lookup_iff.mp hcall'),
      hsamples.setCall ⟨hcallOk.groups, hcallOk.progress⟩⟩
  | @load id bucket call context hcall hpc hload =>
    have hplace := hcalls.pcs id call hcall
    rw [hpc] at hplace
    obtain ⟨hbucket, hinstOk⟩ := instanceOk_init (hdatabases.fresh bucket hplace.2) hload
    obtain ⟨hdatabases', hlater⟩ := hdatabases.append hinstOk (by rw [hbucket]; exact hplace.2)
    have hcallOk := (hsamples.calls id call hcall).later hlater
    refine ⟨hdatabases', ?_, (hsamples.later hlater).setCall ⟨hcallOk.groups, hcallOk.progress⟩⟩
    have hcalls' : Calls s.cache (s.instances ++ [Instance.init context]) _ :=
      hcalls.load hcall (by rw [hpc, hbucket])
    rwa [hbucket] at hcalls'
  | @insert id bucket call index hcall hpc =>
    have hplace := hcalls.pcs id call hcall
    rw [hpc] at hplace
    obtain ⟨hnone, inst, hinst, hbucket⟩ := hplace
    have hlater : Later crates L s.storage s.cache s.instances s.storage
        (s.cache.insert bucket index) s.instances := by
      refine ⟨fun bucket' index' hindex' => ?_,
        (Later.refl s.storage s.cache s.instances).instances⟩
      rw [lookup_insert_ne, hindex']
      rintro rfl
      rw [hnone] at hindex'
      cases hindex'
    have hcallOk := (hsamples.calls id call hcall).later hlater
    refine ⟨⟨hdatabases.ok, hdatabases.distinct, hdatabases.fresh,
      fun bucket' index' hindex' => ?_⟩,
      hcalls.insert hcall hpc,
      (hsamples.later hlater).setCall ⟨hcallOk.groups, hcallOk.progress⟩⟩
    rcases lookup_insert_cases hindex' with ⟨rfl, rfl⟩ | ⟨-, hindex'⟩
    · exact ⟨inst, hinst, hbucket⟩
    · exact hdatabases.cached bucket' index' hindex'
  | @write id bucket call index inst batch hcall hpc hinst hbatch hresult =>
    have hplace := hcalls.pcs id call hcall
    rw [hpc] at hplace
    have hcallOk := hsamples.calls id call hcall
    obtain ⟨hlabels, hQ⟩ := hcallOk.batch hbatch
    obtain ⟨hinstOk, hinstLater, haccepted⟩ :=
      (hdatabases.ok index inst hinst).write hinj hL hlabels hQ
    obtain ⟨hdatabases', hlater⟩ := hdatabases.set_same hinst hinstOk hinstLater
    exact ⟨hdatabases', (hcalls.set hinst hinstLater.bucket).setPc trivial (fun _ => rfl)
      (hfree hcall (by simp [hpc])),
      (hsamples.later hlater).setCall ((hcallOk.later hlater).write hbatch hplace
        (getElem?_set_of_some hinst) (haccepted hresult) .next)⟩
  | @writeFailed id bucket call index inst batch hcall hpc hinst hbatch =>
    have hcallOk := hsamples.calls id call hcall
    obtain ⟨hlabels, hQ⟩ := hcallOk.batch hbatch
    obtain ⟨hinstOk, hinstLater, -⟩ := (hdatabases.ok index inst hinst).write hinj hL hlabels hQ
    obtain ⟨hdatabases', hlater⟩ := hdatabases.set_same hinst hinstOk hinstLater
    exact ⟨hdatabases', (hcalls.set hinst hinstLater.bucket).erase (hfree hcall (by simp [hpc])),
      (hsamples.later hlater).eraseCall id⟩
  | @ended id l call hcall hpc =>
    refine ⟨hdatabases, hcalls.erase (hfree hcall ?_), hsamples.eraseCall id⟩
    rcases hpc with ⟨bucket, hpc⟩ | ⟨bucket, index, hpc⟩ <;> simp [hpc]
  | done hcall hpc hgroups =>
    exact ⟨hdatabases, hcalls.erase (hfree hcall (by simp [hpc])), hsamples.done hcall hgroups⟩
  | flush => exact ⟨hdatabases, hcalls, hsamples.flush hdatabases _⟩
  | @command id index call inst hcall hinst =>
    obtain ⟨hinstOk, hinstLater, -⟩ := (hdatabases.ok index inst hinst).freeze
    exact ⟨(hdatabases.set_same hinst hinstOk hinstLater).1, hcalls.set hinst hinstLater.bucket,
      hsamples.command hdatabases hcall hinst⟩
  | @tick index inst hinst =>
    obtain ⟨hinstOk, hinstLater, -⟩ := (hdatabases.ok index inst hinst).freeze
    obtain ⟨hdatabases', hlater⟩ := hdatabases.set_same hinst hinstOk hinstLater
    exact ⟨hdatabases', hcalls.set hinst hinstLater.bucket, hsamples.later hlater⟩
  | @written index ok inst frozen rest storage hinst hfrozen hflush =>
    obtain ⟨hdatabases', hlater⟩ := hdatabases.written hinj hcrates hinst hfrozen hflush
    exact ⟨hdatabases', hcalls.set hinst rfl, hsamples.later hlater⟩
  | @stopped index ok inst hinst =>
    have hinstOk := hdatabases.ok index inst hinst
    have hstopped : InstanceOk crates s.storage { inst with failed := true } L Q :=
      ⟨hinstOk.sound, hinstOk.counted, hinstOk.idle, hinstOk.kept⟩
    obtain ⟨hdatabases', hlater⟩ := hdatabases.set_same hinst hstopped
      ⟨rfl, fun _ h => h, fun _ _ h => h, fun _ _ _ _ _ _ h => h⟩
    exact ⟨hdatabases', hcalls.set hinst rfl, hsamples.later hlater⟩
  | sync hcall hwaits => exact ⟨hdatabases, hcalls, hsamples.sync hinj hdatabases hcall hwaits⟩
  | failFlush => exact ⟨hdatabases, hcalls, hsamples.eraseFlush _⟩

/-- The writes that the calls of a run were made with. -/
def calls (ls : List Label) : List (List Series) :=
  ls.filterMap fun
    | .ingest _ seriesList => some seriesList
    | _ => none

/-- A call of the run has the sample for the series. -/
def Ingested (ls : List Label) (labels : List Timeseries.Label) (sample : Sample) : Prop :=
  ∃ series ∈ (calls ls).flatten, sortLabels series.labels = labels ∧ sample ∈ series.samples

theorem known_of_mem {ls} (hl : l ∈ ls) : known (callLabels (calls ls)) (Ingested ls) l := by
  cases l with
  | ingest id seriesList =>
    intro series hseries
    have hmem : series ∈ (calls ls).flatten :=
      mem_flatten.mpr ⟨seriesList, mem_filterMap.mpr ⟨_, hl, rfl⟩, hseries⟩
    exact ⟨mem_toFinset.mpr (mem_map.mpr ⟨series, hmem, rfl⟩),
      fun sample hsample => ⟨series, hmem, rfl, hsample⟩⟩
  | _ => trivial

/-- If a bucket is loaded by one call at a time, then a bucket has one database at most, an id
stands for one series, and a flush that returns has stored what was ingested before it began. -/
theorem writes_survive (hcrates : crates.RoundTrip) (hstorage : ∀ bucket, NoRecords storage bucket)
    {ls : List Label} {s : State}
    (hrun : Run (step crates) exclusive (init storage) ls s)
    (hcount : (callLabels (calls ls)).card < 2 ^ 32)
    (hinj : Set.InjOn (fingerprint crates) (callLabels (calls ls))) :
    (∀ (index index' : Nat) inst inst', s.instances[index]? = some inst →
      s.instances[index']? = some inst' → inst.bucket = inst'.bucket → index = index') ∧
    (∀ inst ∈ s.instances, ∀ inst' ∈ s.instances, inst.bucket = inst'.bucket →
      ∀ labels labels' id, (labels, id) ∈ inst.received → (labels', id) ∈ inst'.received →
        labels = labels') ∧
    ∀ f ∈ s.flushed, ∀ seriesList ∈ f.1, ∀ series ∈ seriesList, ∀ sample ∈ series.samples,
      ∃ bucket, TimeBucket.roundToHour sample.timestampMs = .ok bucket ∧
        SampleStored crates (Ingested ls) f.2 bucket (sortLabels series.labels)
          sample.timestampMs := by
  have hinvariant : Invariant crates (callLabels (calls ls)) (Ingested ls) s :=
    (hrun.and_labels fun l hl _ => known_of_mem hl).invariant (invariant_init hstorage)
      fun s l s' hinv hok hstep => invariant_step hcrates hcount hinj hinv hok.1 hok.2 hstep
  refine ⟨hinvariant.databases.distinct, ?_, hinvariant.samples.flushed⟩
  intro inst hinst inst' hinst' hbucket labels labels' id hlabels hlabels'
  obtain ⟨index, hindex⟩ := mem_iff_getElem?.mp hinst
  obtain ⟨index', hindex'⟩ := mem_iff_getElem?.mp hinst'
  -- It is one database, and its catalog has one list of labels for the id.
  obtain rfl := hinvariant.databases.distinct index index' inst inst' hindex hindex' hbucket
  obtain rfl := mem_unique hindex hindex'
  obtain ⟨G, hsound⟩ := (hinvariant.databases.ok index inst hindex).sound
  exact some.inj ((hsound.cataloged.received labels id hlabels).symm.trans
    (hsound.cataloged.received labels' id hlabels'))

instance (s : State) (l : Label) : Decidable (exclusive s l) :=
  match l with
  | .lookup _ bucket => inferInstanceAs (Decidable (s.cache.lookup bucket = none →
      ∀ e ∈ s.ingests.entries, e.2.pc.creates bucket = false))
  | .ingest _ _ | .load _ | .insert _ | .write _ | .done _ | .fail _ | .flush _ | .command _ _
  | .tick _ | .written _ _ | .sync _ | .failFlush _ => .isTrue trivial

def serialLabels : List Label :=
  [.ingest 0 [gauge [⟨"a", "x"⟩] [5]], .ingest 1 [gauge [⟨"b", "y"⟩] [6]], .lookup 0 (.hour 0),
    .load 0, .insert 0, .lookup 1 (.hour 0), .write 0, .write 1, .done 1, .done 0, .flush 2,
    .command 2 0, .written 0 true, .sync 2]

theorem writes_survive_shared_bucket :
    ∃ s f, Run (step plainCrates) exclusive (init ∅) serialLabels s ∧
      f ∈ s.flushed ∧ [gauge [⟨"a", "x"⟩] [5]] ∈ f.1 ∧
      ∃ bucket, TimeBucket.roundToHour 5 = .ok bucket ∧
        SampleStored plainCrates (Ingested serialLabels) f.2 bucket [⟨"a", "x"⟩] 5 := by
  obtain ⟨s, hrun, f, hf, hmem⟩ : ∃ s, Run (step plainCrates) exclusive (init ∅) serialLabels s ∧
      ∃ f ∈ s.flushed, [gauge [⟨"a", "x"⟩] [5]] ∈ f.1 := Run.exists_of_check (by decide +kernel)
  have hinj : Set.InjOn (fingerprint plainCrates) (callLabels (calls serialLabels)) := by
    rw [Set.InjOn]
    decide +kernel
  obtain ⟨-, -, hstored⟩ := writes_survive (Crates.fixedWidth_roundTrip _)
    (fun bucket => noRecords_empty bucket) hrun (by decide +kernel) hinj
  exact ⟨s, f, hrun, hf, hmem, hstored f hf _ hmem _ mem_cons_self ⟨5, 7⟩ (by decide +kernel)⟩

def raceLabels : List Label :=
  [.ingest 0 [gauge [⟨"a", "x"⟩] [5]], .ingest 1 [gauge [⟨"b", "y"⟩] [6]], .lookup 0 (.hour 0),
    .lookup 1 (.hour 0), .load 0, .load 1, .insert 0, .insert 1, .write 0, .write 1, .done 0,
    .done 1, .flush 2, .command 2 1, .written 1 true, .sync 2]

/-- Two databases of the bucket accept writes and give the same id to two series, and a flush
returns without the sample of the first. -/
theorem concurrent_load_loses_write : ∃ s, Run (step plainCrates) anyStep (init ∅) raceLabels s ∧
      s.instances.map (·.bucket) = [.hour 0, .hour 0] ∧ s.instances.map (·.accepted) =
        [[[gauge [⟨"a", "x"⟩] [5]]], [[gauge [⟨"b", "y"⟩] [6]]]] ∧
      s.instances.map (·.received) = [[([⟨"a", "x"⟩], 0)], [([⟨"b", "y"⟩], 0)]] ∧
      s.flushed.map (fun f => (f.1,
        f.2[seriesDictionaryKey (.hour 0) (fingerprint plainCrates [⟨"a", "x"⟩])]?)) =
        [([[gauge [⟨"a", "x"⟩] [5]], [gauge [⟨"b", "y"⟩] [6]]], none)] :=
  Run.exists_of_check (by decide +kernel)

end OpenData.Timeseries.Database

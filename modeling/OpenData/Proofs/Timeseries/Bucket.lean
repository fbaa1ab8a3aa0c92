import OpenData.Proofs.Timeseries.Catalog

/-!
# The records of a bucket agree

The catalog of a bucket describes the store, the deltas at the flusher and the delta in memory in
every state of a run (`Cataloged`, `records_agree`). The deltas at the flusher may have samples of
older series, whose records are in the store when it is their turn (`Covered`).
-/

namespace OpenData.Timeseries

open Lib Common List Option TsdbWriteDelta

variable {crates : Crates} {bucket : TimeBucket} {storage storage' : Storage}

/-! ### The parts at the flusher -/

/-- The samples of each part belong to series that are held, or that this part or one before it
brings. -/
def Covered (held : SeriesId → Prop) : List FrozenTsdbDelta → Prop
  | [] => True
  | frozen :: rest =>
    (∀ id ∈ frozen.samples, held id ∨ id ∈ frozen.forwardIndex) ∧
      Covered (fun id => held id ∨ id ∈ frozen.forwardIndex) rest

variable {parts : List FrozenTsdbDelta}

theorem Covered.mono {held held' : SeriesId → Prop} (hheld : ∀ id, held id → held' id)
    (h : Covered held parts) : Covered held' parts := by
  induction parts generalizing held held' with
  | nil => trivial
  | cons frozen rest ih =>
    exact ⟨fun id hid => (h.1 id hid).imp_left (hheld id),
      ih (fun id hid => hid.imp_left (hheld id)) h.2⟩

variable {frozen : FrozenTsdbDelta}

theorem Covered.snoc {held : SeriesId → Prop}
    (h : Covered held parts) (hfrozen : ∀ id ∈ frozen.samples,
      held id ∨ (∃ part ∈ parts, id ∈ part.forwardIndex) ∨ id ∈ frozen.forwardIndex) :
    Covered held (parts ++ [frozen]) := by
  induction parts generalizing held with
  | nil => exact ⟨fun id hid => by simpa using hfrozen id hid, trivial⟩
  | cons part parts ih =>
    refine ⟨h.1, ih h.2 fun id hid => ?_⟩
    rcases hfrozen id hid with hheld | ⟨other, hother, hid⟩ | hid
    · exact .inl (.inl hheld)
    · rcases mem_cons.mp hother with rfl | hother
      · exact .inl (.inr hid)
      · exact .inr (.inl ⟨other, hother, hid⟩)
    · exact .inr (.inr hid)

/-! ### Runs -/

namespace Tsdb

section

variable (crates : Crates) (bucket : TimeBucket) (P : SeriesSpec → Prop) (L : Finset (List Label))

/-- The delta, the frozen deltas and the store agree with one catalog. -/
structure Cataloged (G : Catalog) (storage : Storage) (received : List (List Label × SeriesId))
    (tsdb : MiniTsdb) : Prop where
  delta : Described crates bucket P L G tsdb.delta
  frozen : ∀ frozen ∈ tsdb.frozen, Holds crates bucket P G frozen
  stored : StoredPart crates bucket P G storage
  received : ∀ labels id, (labels, id) ∈ received → G id = some labels

/-- Every series of the catalog is in one of the three places. -/
structure Traced (G : Catalog) (storage : Storage) (tsdb : MiniTsdb) : Prop where
  samples : SamplesStored bucket G storage
  covered : Covered (fun id => forwardIndexKey bucket id ∈ storage) tsdb.frozen
  complete : ∀ id labels, G id = some labels →
    forwardIndexKey bucket id ∈ storage ∨ (∃ part ∈ tsdb.frozen, id ∈ part.forwardIndex) ∨
      id ∈ tsdb.delta.forwardIndex

/-- The bucket has no records until it is loaded, and a catalog from then on. Where no flush fails,
which is `strict`, no part is lost. -/
structure BucketInvariant (strict : Prop) (s : State) : Prop where
  closed : s.tsdb = none → NoRecords s.storage bucket ∧ s.received = []
  opened : ∀ tsdb, s.tsdb = some tsdb →
    ∃ G, Cataloged crates bucket P L G s.storage s.received tsdb ∧
      (strict → Traced bucket G s.storage tsdb)

def ofKind : Op → Prop
  | .ingest write => ∀ series ∈ write, P series.spec ∧ series.spec.labels ∈ L
  | .drop => False
  | _ => True

end

variable {P : SeriesSpec → Prop} {L : Finset (List Label)} {G : Catalog} {strict : Prop}

theorem storedPart_of_noRecords (h : NoRecords storage bucket) :
    StoredPart crates bucket P (fun _ => none) storage := by
  have hforward : ∀ id, forwardIndexKey bucket id ∉ storage := fun id hmem =>
    h _ hmem .forwardIndex (prefix_append _ _)
  have hinverted : ∀ label, storage[invertedIndexKey bucket label]? = none := by
    intro label
    refine eq_none_iff_forall_ne_some.mpr fun v hv => ?_
    refine h _ (Storage.mem_of_getElem? hv) .invertedIndex ?_
    rw [invertedIndexKey, append_assoc]
    exact prefix_append _ _
  refine ⟨?_, ?_, ?_, ?_, ?_⟩
  · intro id v hv
    exact absurd (Storage.mem_of_getElem? hv) (hforward id)
  · intro fp id
    constructor
    · exact fun hfp => absurd hfp (not_stored_of_noRecords h fp id)
    · exact fun hid => absurd hid.1 (hforward id)
  · intro label v hv
    rw [hinverted] at hv
    cases hv
  · intro label id
    simp [storedPostings, hinverted, hforward]
  · rintro ⟨k, hk, t, hhead⟩
    exact absurd hhead (h k hk t)

variable {context : TsdbContext}

theorem holds_init (hbucket : context.bucket = bucket) :
    Holds crates bucket P G (init context).freeze.1 where
  inBucket := hbucket
  forward := by simp [freeze, init]
  dictionary := by simp [freeze, init]
  postings := by simp [freeze, init]
  samples := by simp [freeze, init]

theorem cataloged_load (hstorage : NoRecords storage bucket)
    (hload : Timeseries.load storage bucket = .ok context) :
    Cataloged crates bucket P L (fun _ => none) storage []
        { delta := .init context, frozen := [] } ∧
      Traced bucket (fun _ => none) storage { delta := .init context, frozen := [] } := by
  have hinit : IdInvariant crates bucket (State.init storage) := idInvariant_init hstorage
  obtain ⟨context', hload', hbucket, hlookup, hnext⟩ := load_spec hinit.records
  obtain rfl := Except.ok.inj (hload.symm.trans hload')
  have hnone : ∀ fp, context.seriesDict.lookup fp = none := by
    intro fp
    refine eq_none_iff_forall_ne_some.mpr fun id hid => ?_
    exact not_stored_of_noRecords hstorage fp id ((hlookup fp id).mp hid)
  have hentries : context.seriesDict.entries = [] := by
    refine eq_nil_iff_forall_not_mem.mpr fun e he => ?_
    have hsome := AList.mem_lookup_iff.mpr he
    rw [hnone] at hsome
    cases hsome
  refine ⟨⟨⟨?_, ?_, by simp, ?_⟩, by simp, storedPart_of_noRecords hstorage, by simp⟩, ?_, trivial,
    by simp⟩
  · intro fp id
    rw [lookup_init, hnone]
    simp [Catalog.Names]
  · intro id
    show _ ↔ id.toNat < context.nextSeriesId.toNat
    rw [hnext hentries]
    simp
  · exact holds_init hbucket
  · exact fun k hk hhead => absurd hhead (hstorage k hk .timeSeries)

section

variable {received : List (List Label × SeriesId)} {tsdb : MiniTsdb}

theorem Cataloged.ingest (hL : L.card < 2 ^ 32) (hinj : Set.InjOn (fingerprint crates) L)
    (h : Cataloged crates bucket P L G storage received tsdb) {write}
    (hwrite : ∀ series ∈ write, P series.spec ∧ series.spec.labels ∈ L) :
    ∃ G', Cataloged crates bucket P L G' storage (received ++ write.filterMap fun series =>
          ((tsdb.delta.apply crates write).2.lookup
            (fingerprint crates (sortLabels series.labels))).map fun id =>
            (sortLabels series.labels, id))
        { tsdb with delta := (tsdb.delta.apply crates write).2 } ∧
      G.Le G' ∧
      (Traced bucket G storage tsdb →
        Traced bucket G' storage { tsdb with delta := (tsdb.delta.apply crates write).2 }) := by
  obtain ⟨G', hdelta, hextended⟩ := h.delta.apply hL hinj hwrite
  refine ⟨G', ⟨hdelta, fun frozen hfrozen => (h.frozen frozen hfrozen).mono hextended.le,
    h.stored.mono hextended.le, ?_⟩, hextended.le,
    fun htraced => ⟨htraced.samples.mono hextended.le, htraced.covered, ?_⟩⟩
  · intro labels id hmem
    rcases mem_append.mp hmem with hmem | hmem
    · exact hextended.le id labels (h.received labels id hmem)
    · obtain ⟨series, hseries, hid⟩ := mem_filterMap.mp hmem
      obtain ⟨id', hid', heq⟩ := map_eq_some_iff.mp hid
      obtain ⟨rfl, rfl⟩ := Prod.mk.inj heq
      obtain ⟨labels, hlabels, hfp⟩ := (hdelta.lookup _ _).mp hid'
      rw [hlabels, hinj (hdelta.labels _ labels hlabels) (hwrite series hseries).2 hfp]
      rfl
  · intro id labels hid
    rcases hextended.fresh id labels hid with hid | hid
    · exact (htraced.complete id labels hid).imp_right (Or.imp_right (hextended.forward id))
    · exact .inr (.inr hid)

theorem Cataloged.freeze (h : Cataloged crates bucket P L G storage received tsdb) :
    Cataloged crates bucket P L G storage received
        { delta := .init tsdb.delta.freeze.2, frozen := tsdb.frozen ++ [tsdb.delta.freeze.1] } ∧
      (Traced bucket G storage tsdb → Traced bucket G storage
        { delta := .init tsdb.delta.freeze.2,
          frozen := tsdb.frozen ++ [tsdb.delta.freeze.1] }) := by
  refine ⟨⟨⟨?_, h.delta.below, h.delta.labels, ?_⟩, ?_, h.stored, h.received⟩,
    fun htraced => ⟨htraced.samples, ?_, ?_⟩⟩
  · rw [lookup_init_freeze]
    exact h.delta.lookup
  · exact holds_init h.delta.holds.inBucket
  · intro frozen hfrozen
    rcases mem_append.mp hfrozen with hfrozen | hfrozen
    · exact h.frozen frozen hfrozen
    · rw [mem_singleton.mp hfrozen]
      exact h.delta.holds
  · -- The samples of the delta belong to series of the catalog, and these are in some part.
    refine htraced.covered.snoc fun id hid => ?_
    obtain ⟨samples, hsamples⟩ := isSome_iff_exists.mp (AList.lookup_isSome.mpr hid)
    obtain ⟨labels, hlabels, -⟩ := h.delta.holds.samples id samples hsamples
    exact htraced.complete id labels hlabels
  · intro id labels hid
    rcases htraced.complete id labels hid with hid | ⟨part, hpart, hid⟩ | hid
    · exact .inl hid
    · exact .inr (.inl ⟨part, mem_append_left _ hpart, hid⟩)
    · exact .inr (.inl ⟨_, mem_append_right _ (mem_singleton.mpr rfl), hid⟩)

theorem Cataloged.flush (hcrates : crates.RoundTrip)
    (h : Cataloged crates bucket P L G storage received tsdb)
    {rest} (hfrozen : tsdb.frozen = frozen :: rest)
    (hflush : flushDelta crates storage frozen = .ok storage') :
    Cataloged crates bucket P L G storage' received { tsdb with frozen := rest } ∧
      (Traced bucket G storage tsdb → Traced bucket G storage' { tsdb with frozen := rest }) := by
  have hholds := h.frozen frozen (by simp [hfrozen])
  refine ⟨⟨h.delta, fun other hother => h.frozen other (by simp [hfrozen, hother]),
    h.stored.flush hholds hflush hcrates fun _ _ _ => h.delta.names_unique,
    h.received⟩, fun htraced => ?_⟩
  have hcovered := htraced.covered
  rw [hfrozen, Covered] at hcovered
  refine ⟨htraced.samples.flush hholds hflush hcovered.1, ?_, ?_⟩
  · exact hcovered.2.mono fun id hid => (hholds.mem_flush hflush).mpr hid
  · intro id labels hid
    rw [hholds.mem_flush hflush]
    rcases htraced.complete id labels hid with hid | ⟨part, hpart, hid⟩ | hid
    · exact .inl (.inl hid)
    · rw [hfrozen] at hpart
      rcases mem_cons.mp hpart with rfl | hpart
      · exact .inl (.inr hid)
      · exact .inr (.inl ⟨part, hpart, hid⟩)
    · exact .inr (.inr hid)

end

theorem exists_of_successful {s s' ok} (hok : successful crates s (.flush ok))
    (hstep : s.step crates bucket (.flush ok) = some s') :
    ∃ tsdb frozen rest, s.tsdb = some tsdb ∧ tsdb.frozen = frozen :: rest ∧
      flushDelta crates s.storage frozen = .ok s'.storage ∧ s'.received = s.received := by
  cases htsdb : s.tsdb with
  | none => simp [State.step, htsdb] at hstep
  | some tsdb =>
    cases hfrozen : tsdb.frozen with
    | nil => simp [State.step, htsdb, hfrozen] at hstep
    | cons frozen rest =>
      have hisOk := hok.2 tsdb htsdb frozen (by rw [hfrozen]; rfl)
      cases hflush : flushDelta crates s.storage frozen with
      | error => simp [hflush, Except.isOk, Except.toBool] at hisOk
      | ok =>
        obtain rfl : _ = s' := by
          simpa [State.step, htsdb, hfrozen, hflush, hok.1] using hstep
        exact ⟨tsdb, frozen, rest, rfl, hfrozen, hflush, rfl⟩

theorem bucketInvariant_step (hcrates : crates.RoundTrip) (hL : L.card < 2 ^ 32)
    (hinj : Set.InjOn (fingerprint crates) L) {s s' op}
    (h : BucketInvariant crates bucket P L strict s) (hkind : ofKind P L op)
    (hok : strict → successful crates s op) (hstep : s.step crates bucket op = some s') :
    BucketInvariant crates bucket P L strict s' := by
  cases move_of_step hstep with
  | load hnone hload =>
    obtain ⟨hstorage, -⟩ := h.closed hnone
    refine ⟨by simp, ?_⟩
    rintro _ ⟨⟩
    obtain ⟨hcataloged, htraced⟩ := cataloged_load hstorage hload
    exact ⟨_, hcataloged, fun _ => htraced⟩
  | ingest write htsdb =>
    obtain ⟨G, hcataloged, htraced⟩ := h.opened _ htsdb
    refine ⟨by simp, ?_⟩
    rintro _ ⟨⟩
    obtain ⟨G', hcataloged', -, htraced'⟩ := hcataloged.ingest hL hinj hkind
    exact ⟨G', hcataloged', fun hstrict => htraced' (htraced hstrict)⟩
  | freeze htsdb =>
    obtain ⟨G, hcataloged, htraced⟩ := h.opened _ htsdb
    refine ⟨by simp, ?_⟩
    rintro _ ⟨⟩
    obtain ⟨hcataloged', htraced'⟩ := hcataloged.freeze
    exact ⟨G, hcataloged', fun hstrict => htraced' (htraced hstrict)⟩
  | flushed htsdb hfrozen hflush =>
    obtain ⟨G, hcataloged, htraced⟩ := h.opened _ htsdb
    refine ⟨by simp, ?_⟩
    rintro _ ⟨⟩
    obtain ⟨hcataloged', htraced'⟩ := hcataloged.flush hcrates hfrozen hflush
    exact ⟨G, hcataloged', fun hstrict => htraced' (htraced hstrict)⟩
  | lost ok htsdb hfrozen =>
    -- Where no flush fails, this step was a flush as well.
    obtain ⟨G, hcataloged, htraced⟩ := h.opened _ htsdb
    refine ⟨by simp, ?_⟩
    rintro _ ⟨⟩
    refine ⟨G, ⟨hcataloged.delta, fun other hother => hcataloged.frozen other
      (by simp [hfrozen, hother]), hcataloged.stored, hcataloged.received⟩, fun hstrict => ?_⟩
    obtain ⟨tsdb', frozen', rest', htsdb', hfrozen', hflush, -⟩ :=
      exists_of_successful (hok hstrict) hstep
    obtain rfl := Option.mem_unique htsdb htsdb'
    obtain ⟨rfl, rfl⟩ := List.cons.inj (hfrozen.symm.trans hfrozen')
    exact (hcataloged.flush hcrates hfrozen hflush).2 (htraced hstrict)
  | drop => exact hkind.elim

theorem bucketInvariant_init (h : NoRecords storage bucket) :
    BucketInvariant crates bucket P L strict (State.init storage) :=
  ⟨fun _ => ⟨h, rfl⟩, fun tsdb htsdb => absurd htsdb (by simp [State.init])⟩

/-! ### Consistent records -/

/-- The series that an operation ingests. -/
def Op.series : Op → List Series
  | .ingest write => write
  | _ => []

def ingestedLabels (ops : List Op) : Finset (List Label) :=
  ((ops.flatMap Op.series).map fun series => sortLabels series.labels).toFinset

theorem mem_ingestedLabels {ops write} (hop : .ingest write ∈ ops)
    {series} (hseries : series ∈ write) : series.spec.labels ∈ ingestedLabels ops :=
  mem_toFinset.mpr (mem_map.mpr ⟨series, mem_flatMap.mpr ⟨_, hop, hseries⟩, rfl⟩)

/-- In every run over a bucket without records in which the database stays open and all flushes
succeed: the stored records agree, if fewer than `2 ^ 32` label lists are ingested and their
fingerprints differ. A bucket with a record is in the bucket list. -/
theorem records_agree (hcrates : crates.RoundTrip) {ops : List Op} {s : State}
    (hstorage : NoRecords storage bucket)
    (hrun : Run (State.step crates bucket) (successful crates) (State.init storage) ops s)
    (hopen : .drop ∉ ops) (hcount : (ingestedLabels ops).card < 2 ^ 32)
    (hdistinct : ∀ labels ∈ ingestedLabels ops, ∀ labels' ∈ ingestedLabels ops,
      fingerprint crates labels = fingerprint crates labels' → labels = labels') :
    Consistent crates s.storage bucket := by
  have hkind : ∀ op ∈ ops, ofKind (fun _ => True) (ingestedLabels ops) op := by
    intro op hop
    cases op with
    | ingest => exact fun series hseries => ⟨trivial, mem_ingestedLabels hop hseries⟩
    | drop => exact absurd hop hopen
    | load | freeze | flush => trivial
  have hinvariant : BucketInvariant crates bucket (fun _ => True) (ingestedLabels ops) True s := by
    refine (hrun.and_labels fun op hop _ => hkind op hop).invariant
      (bucketInvariant_init hstorage) ?_
    intro s op s' hinv hok hstep
    exact bucketInvariant_step hcrates hcount (fun a ha b hb => hdistinct a ha b hb) hinv hok.2
      (fun _ => hok.1) hstep
  cases htsdb : s.tsdb with
  | some tsdb =>
    obtain ⟨G, hcataloged, htraced⟩ := hinvariant.opened tsdb htsdb
    exact hcataloged.stored.consistent (htraced trivial).samples
  | none =>
    have hnone := (hinvariant.closed htsdb).1
    have hpart : StoredPart crates bucket (fun _ => True) (fun _ => none) s.storage :=
      storedPart_of_noRecords hnone
    exact hpart.consistent fun k hk hhead => absurd hhead (hnone k hk .timeSeries)

def twoSeriesOps : List Op :=
  [.load, .ingest [gauge [⟨"a", "x"⟩] [5]], .freeze,
    .ingest [gauge [⟨"a", "x"⟩] [6], gauge [⟨"b", "y"⟩] [6]], .freeze, .flush true, .flush true]

theorem records_agree_two_series :
    ∃ s, Run (State.step plainCrates (.hour 0)) (successful plainCrates) (State.init ∅)
      twoSeriesOps s ∧
      storedPostings plainCrates s.storage (.hour 0) ⟨"b", "y"⟩ = {1} ∧
      Consistent plainCrates s.storage (.hour 0) := by
  obtain ⟨s, hrun, hpostings⟩ : ∃ s,
      Run (State.step plainCrates (.hour 0)) (successful plainCrates) (State.init ∅)
        twoSeriesOps s ∧
      storedPostings plainCrates s.storage (.hour 0) ⟨"b", "y"⟩ = {1} :=
    Run.exists_of_check (by decide +kernel)
  exact ⟨s, hrun, hpostings, records_agree (Crates.fixedWidth_roundTrip _) (noRecords_empty _) hrun
    (by simp [twoSeriesOps]) (by decide +kernel) (by decide +kernel)⟩

/-- A series without samples leaves the delta empty, and its flush writes nothing: the bucket is not
in the list. -/
theorem empty_flush_unlisted :
    ∃ s, Run (State.step plainCrates (.hour 0)) (successful plainCrates) (State.init ∅)
        [.load, .ingest [gauge [⟨"a", "x"⟩] []], .freeze, .flush true] s ∧
      bucketListContains (.hour 0) s.storage = .ok false := by
  obtain ⟨s, hrun, hlist⟩ : ∃ s,
      Run (State.step plainCrates (.hour 0)) (successful plainCrates) (State.init ∅)
        [.load, .ingest [gauge [⟨"a", "x"⟩] []], .freeze, .flush true] s ∧
      (bucketListContains (.hour 0) s.storage).toOption = some false :=
    Run.exists_of_check (by decide +kernel)
  exact ⟨s, hrun, toOption_eq_some.mp hlist⟩

end Tsdb

end OpenData.Timeseries

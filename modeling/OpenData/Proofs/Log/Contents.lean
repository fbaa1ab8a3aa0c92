import OpenData.Proofs.Log.Durable
import OpenData.Proofs.Log.Reader

/-!
# The stored entries are the appended ones

`Appended appends e` says that the entry `e` is one of the records of the stored appends. `Contents`
relates the storage to the history: the stored entries are the appended ones, the entries of a
segment lie before all later segments, and a key is listed in a segment only if the segment has an
entry of it.
-/

namespace OpenData.Log

open Lib Common List StorageKey
open OpenData.Sequence (SeqBlock)

/-- The entry is the `i`-th record of the append. -/
structure Append.Has (a : Append) (i : Nat) (e : LogEntry) : Prop where
  record : a.records[i]? = some { key := e.key, value := e.value }
  sequence : e.sequence.toNat = a.range.start + i

def Appended (appends : List Append) (e : LogEntry) : Prop :=
  ∃ a ∈ appends, a.stored = true ∧ ∃ i, a.Has i e

/-- The store has the entries that were appended, each in its segment, and lists their keys. -/
structure Contents (storage : Storage) (appends : List Append) : Prop where
  entries : ∀ e, Stored storage e ↔ Appended appends e
  separated : Separated storage
  listings : ∀ id key, (ListingEntryKey.mk id key).serialize ∈ storage →
    ∃ segment e, segment.id = id ∧ HasSegment storage segment ∧ StoredIn storage segment e ∧
      e.key = key

theorem contents_empty : Contents ∅ [] where
  entries := by simp [Stored, Appended, HasSegment]
  separated := by simp [Separated, HasSegment]
  listings := by simp

variable {appends : List Append}

theorem Contents.lost {storage} (h : Contents storage appends)
    {a} (ha : a.stored = false) : Contents storage (appends ++ [a]) where
  entries := by
    intro e
    rw [h.entries]
    simp [Appended, or_and_right, exists_or, ha]
  __ := h

variable {e : LogEntry}

theorem Appended.sequence_lt (h : Appended appends e)
    {limit} (hpast : ∀ a ∈ appends, a.stored = true → a.range.stop ≤ limit)
    (hfull : ∀ a ∈ appends, a.range.stop = a.range.start + a.records.length) :
    e.sequence.toNat < limit := by
  obtain ⟨a, ha, hstored, i, hhas⟩ := h
  obtain ⟨hlt, -⟩ := List.getElem?_eq_some_iff.mp hhas.record
  have hstop := hpast a ha hstored
  have hsequence := hhas.sequence
  rw [hfull a ha] at hstop
  omega

/-! ### One append -/

section
variable {storage : Storage} {block block' : Option SeqBlock} {appends : List Append}
  {w : LogWriter} {write : LogWrite} {p : Prepared} {metadata : List Record}

theorem PreparedSpec.hasSegment (hspec : PreparedSpec storage block w write p block' metadata)
    (a : LogSegment) : HasSegment (storage.put p.records) a ↔
      HasSegment storage a ∨ p.assignment.isNew = true ∧ a = p.assignment.segment := by
  rw [hspec.records_eq, Storage.put_append, hspec.entries_kind.hasSegment_put, hspec.segments]

theorem entry_of_record (hroom : p.baseSeq.toNat + write.records.length < 2 ^ 64) {i r}
    (hi : write.records[i]? = some r) (stored acknowledged : Bool) :
    (appendOf p write stored acknowledged).Has i ⟨r.key, p.baseSeq + UInt64.ofNat i, r.value⟩ := by
  refine ⟨hi, ?_⟩
  obtain ⟨hlt, -⟩ := List.getElem?_eq_some_iff.mp hi
  show (p.baseSeq + UInt64.ofNat i).toNat = p.baseSeq.toNat + i
  rw [UInt64.toNat_add, UInt64.toNat_ofNat']
  omega

theorem mem_addEntries_iff (hroom : p.baseSeq.toNat + write.records.length < 2 ^ 64)
    {r} (stored acknowledged : Bool) :
    r ∈ addEntries p.assignment.segment p.baseSeq write.records ↔
      ∃ i e, (appendOf p write stored acknowledged).Has i e ∧
        LogEntry.record p.assignment.segment e = r := by
  constructor
  · intro hr
    obtain ⟨i, userRecord, hi, hvalue, hkey⟩ := mem_addEntries hr
    refine ⟨i, _, entry_of_record hroom hi stored acknowledged, ?_⟩
    cases r
    simp only [LogEntry.record, LogEntryKey.serialize, Record.mk.injEq]
    exact ⟨hkey.symm, hvalue.symm⟩
  · rintro ⟨i, e, ⟨hrecord, hseq⟩, rfl⟩
    -- The sequence of the entry is the one that the loop computes.
    obtain ⟨hlt, -⟩ := List.getElem?_eq_some_iff.mp hrecord
    have hlt : i < write.records.length := hlt
    have hseq : e.sequence = p.baseSeq + UInt64.ofNat i := by
      apply UInt64.toNat_inj.mp
      rw [UInt64.toNat_add, UInt64.toNat_ofNat', hseq]
      show p.baseSeq.toNat + i = _
      omega
    refine List.mem_map.mpr ⟨({ key := e.key, value := e.value }, i), ?_, ?_⟩
    · exact List.mem_zipIdx_iff_getElem?.mpr hrecord
    · simp only [LogEntry.record, hseq]

section

variable (hspec : PreparedSpec storage block w write p block' metadata)
include hspec

theorem PreparedSpec.storedIn_cases
    (hlayout : Layout storage block) (hroom : p.baseSeq.toNat + write.records.length < 2 ^ 64)
    (acknowledged : Bool) {a}
    (ha : HasSegment (storage.put p.records) a) (hin : StoredIn (storage.put p.records) a e) :
    (a = p.assignment.segment ∧ ∃ i, (appendOf p write true acknowledged).Has i e) ∨
      (HasSegment storage a ∧ StoredIn storage a e) := by
  have hkey : (e.record a).key = (entry a.id e.key
    (e.sequence - a.segmentMeta.startSeq)).serialize := rfl
  have hlookup := hin.stored
  rw [hspec.records_eq, Storage.put_append] at hlookup
  rcases Storage.getElem?_put_cases hlookup with ⟨r, hr, hrkey, hrvalue⟩ | hmeta
  · -- A record of the batch: the segment has the id of the assigned one.
    left
    obtain ⟨i, e', hhas, rfl⟩ := (mem_addEntries_iff hroom true acknowledged).mp hr
    have hassigned : HasSegment (storage.put p.records) p.assignment.segment := by
      rw [hspec.records_eq, Storage.put_append, hspec.entries_kind.hasSegment_put]
      exact hspec.stored
    have hsame : entry p.assignment.segment.id e'.key _ = .entry a.id e.key _ :=
      serialize_inj.mp hrkey
    obtain ⟨hid, -, -⟩ := entry.inj hsame
    obtain rfl := hassigned.eq_of_id ha hid
    have hrecord : e'.record p.assignment.segment = e.record p.assignment.segment := by
      cases hr' : e'.record p.assignment.segment
      cases hre : e.record p.assignment.segment
      simp_all
    obtain rfl := LogEntry.record_injective _ hrecord
    exact ⟨rfl, i, hhas⟩
  · right
    rcases Storage.getElem?_put_cases hmeta with ⟨r, hr, hrkey, -⟩ | hold
    · have hentry := isEntry_eq (hrkey.trans hkey)
      rw [hspec.metadata_kind r hr] at hentry
      cases hentry
    · -- The segment of an old entry was stored before.
      have hmem : entryKey a.id e.key (e.sequence - a.segmentMeta.startSeq) ∈ storage :=
        Storage.mem_of_getElem? hold
      obtain ⟨b, hid, hb, -⟩ := (hlayout.entries _ _ _ hmem).segment
      obtain rfl := ((hspec.hasSegment b).mpr (Or.inl hb)).eq_of_id ha hid
      exact ⟨hb, hin.started, hold⟩

theorem PreparedSpec.storedIn_old (hroom : p.baseSeq.toNat + write.records.length < 2 ^ 64) {a}
    (ha : HasSegment storage a) (hin : StoredIn storage a e) (hpast : e.sequence < p.baseSeq) :
    StoredIn (storage.put p.records) a e := by
  refine ⟨hin.started, ?_⟩
  rw [hspec.records_eq, Storage.put_append, Storage.getElem?_put_of_ne, Storage.getElem?_put_of_ne]
  · exact hin.stored
  · intro r hr hrkey
    have hkey : r.key = (entry a.id e.key (e.sequence - a.segmentMeta.startSeq)).serialize := hrkey
    have hentry := isEntry_eq hkey
    rw [hspec.metadata_kind r hr] at hentry
    cases hentry
  · -- A new entry with the same key would have the same segment and sequence.
    intro r hr hrkey
    obtain ⟨i, e', hhas, rfl⟩ := (mem_addEntries_iff hroom true true).mp hr
    have hsame : entry p.assignment.segment.id e'.key _ = .entry a.id e.key _ :=
      serialize_inj.mp hrkey
    obtain ⟨hid, -, hrel⟩ := entry.inj hsame
    obtain rfl := hspec.stored.eq_of_id ((hspec.segments a).mpr (Or.inl ha)) hid
    have hseq : e'.sequence = e.sequence := by
      rw [← UInt64.sub_add_cancel e'.sequence p.assignment.segment.segmentMeta.startSeq, hrel,
        UInt64.sub_add_cancel]
    have hstart : e'.sequence.toNat = p.baseSeq.toNat + i := hhas.sequence
    have hpast := UInt64.lt_iff_toNat_lt.mp hpast
    rw [← hseq] at hpast
    omega

theorem PreparedSpec.storedIn_new
    (hroom : p.baseSeq.toNat + write.records.length < 2 ^ 64) {i stored acknowledged}
    (hhas : (appendOf p write stored acknowledged).Has i e) :
    StoredIn (storage.put p.records) p.assignment.segment e := by
  have hseq : e.sequence.toNat = p.baseSeq.toNat + i := hhas.sequence
  have hstarted := UInt64.le_iff_toNat_le.mp hspec.started
  refine ⟨UInt64.le_iff_toNat_le.mpr (by omega), ?_⟩
  have hmem := (mem_addEntries_iff hroom stored acknowledged).mpr ⟨i, e, hhas, rfl⟩
  rw [hspec.records_eq, Storage.put_append]
  obtain ⟨r, hr, hkey, hlookup⟩ := Storage.getElem?_put_of_mem (storage.put metadata) ⟨_, hmem, rfl⟩
  obtain ⟨i', e', hhas', rfl⟩ := (mem_addEntries_iff hroom stored acknowledged).mp hr
  rw [hlookup]
  -- Two entries of the batch with one key are the same record.
  have hsame : entry p.assignment.segment.id e'.key
      (e'.sequence - p.assignment.segment.segmentMeta.startSeq) = .entry p.assignment.segment.id
      e.key (e.sequence - p.assignment.segment.segmentMeta.startSeq) :=
    serialize_inj.mp hkey
  obtain ⟨-, -, hrel⟩ := entry.inj hsame
  have hseqs : e'.sequence = e.sequence := by
    rw [← UInt64.sub_add_cancel e'.sequence p.assignment.segment.segmentMeta.startSeq, hrel,
      UInt64.sub_add_cancel]
  have hi : i' = i := by
    have hseq' : e'.sequence.toNat = p.baseSeq.toNat + i' := hhas'.sequence
    rw [hseqs] at hseq'
    omega
  subst hi
  have hrecords := Option.some.inj (hhas'.record.symm.trans hhas.record)
  exact congrArg some (congrArg UserRecord.value hrecords)

end

theorem Contents.append (h : Contents storage appends) (hlayout : Layout storage block)
    (hspec : PreparedSpec storage block w write p block' metadata)
    (hpast : ∀ a ∈ appends, a.stored = true → a.range.stop ≤ p.baseSeq.toNat)
    (hfull : ∀ a ∈ appends, a.range.stop = a.range.start + a.records.length) (acknowledged : Bool) :
    Contents (storage.put p.records) (appends ++ [appendOf p write true acknowledged]) := by
  have hroom : p.baseSeq.toNat + write.records.length < 2 ^ 64 := by
    rw [← hspec.next]
    exact UInt64.toNat_lt _
  -- Everything that was stored before lies before the batch.
  have hbefore : ∀ {e}, Stored storage e → e.sequence < p.baseSeq := by
    intro e hstored
    rw [UInt64.lt_iff_toNat_lt]
    exact ((h.entries e).mp hstored).sequence_lt hpast hfull
  have hassigned : HasSegment (storage.put p.records) p.assignment.segment := by
    rw [hspec.records_eq, Storage.put_append, hspec.entries_kind.hasSegment_put]
    exact hspec.stored
  refine ⟨?_, ?_, ?_⟩
  · intro e
    constructor
    · rintro ⟨a, ha, hin⟩
      rcases hspec.storedIn_cases hlayout hroom acknowledged ha hin with ⟨-, i, hhas⟩ | ⟨ha, hin⟩
      · exact ⟨_, mem_append_right _ (mem_singleton.mpr rfl), rfl, i, hhas⟩
      · obtain ⟨b, hb, hrest⟩ := (h.entries e).mp ⟨a, ha, hin⟩
        exact ⟨b, mem_append_left _ hb, hrest⟩
    · rintro ⟨b, hb, hstored, i, hhas⟩
      rcases mem_append.mp hb with hb | hb
      · obtain ⟨a, ha, hin⟩ := (h.entries e).mpr ⟨b, hb, hstored, i, hhas⟩
        exact ⟨a, (hspec.hasSegment a).mpr (Or.inl ha),
          hspec.storedIn_old hroom ha hin (hbefore ⟨a, ha, hin⟩)⟩
      · obtain rfl := mem_singleton.mp hb
        exact ⟨_, hassigned, hspec.storedIn_new hroom hhas⟩
  · intro a b e ha hb hin hlt
    rcases hspec.storedIn_cases hlayout hroom acknowledged ha hin with ⟨rfl, -⟩ | ⟨haold, hinold⟩
    · -- No segment starts after the assigned one.
      rw [hspec.records_eq, Storage.put_append, hspec.entries_kind.hasSegment_put] at hb
      exact absurd hlt (UInt64.not_lt.mpr (hspec.latest b hb))
    · rcases (hspec.hasSegment b).mp hb with hbold | ⟨hnew, rfl⟩
      · exact h.separated a b e haold hbold hinold hlt
      · rw [hspec.fresh hnew]
        exact hbefore ⟨a, haold, hinold⟩
  · intro id key hmem
    rw [hspec.records_eq, Storage.put_append] at hmem
    rcases Storage.mem_put.mp hmem with ⟨r, hr, hkey⟩ | hmem
    · obtain ⟨i, userRecord, -, -, hentry⟩ := mem_addEntries hr
      have hsame : entry p.assignment.segment.id userRecord.key _ = .listing id key :=
        serialize_inj.mp (hentry.symm.trans hkey)
      cases hsame
    · rcases Storage.mem_put.mp hmem with ⟨r, hr, hkey⟩ | hold
      · obtain ⟨rfl, hkeys⟩ := hspec.listings r hr id key hkey
        obtain ⟨userRecord, huser, rfl⟩ := mem_map.mp hkeys
        obtain ⟨i, hi⟩ := mem_iff_getElem?.mp huser
        have hhas := entry_of_record hroom hi true acknowledged
        exact ⟨p.assignment.segment, _, rfl, hassigned, hspec.storedIn_new hroom hhas, rfl⟩
      · obtain ⟨a, e, hid, ha, hin, hekey⟩ := h.listings id key hold
        exact ⟨a, e, hid, (hspec.hasSegment a).mpr (Or.inl ha),
          hspec.storedIn_old hroom ha hin (hbefore ⟨a, ha, hin⟩), hekey⟩

end

/-! ### Runs -/

/-- In every run that keeps up, the storage holds the appended entries, and an append has one
sequence for each of its records. -/
theorem contents_run {ls s} (hrun : Run State.step keepsUp State.init ls s) :
    Contents s.storage s.appends ∧
      ∀ a ∈ s.appends, a.range.stop = a.range.start + a.records.length := by
  refine hrun.invariant_reachable (I := fun s => Contents s.storage s.appends ∧
      ∀ a ∈ s.appends, a.range.stop = a.range.start + a.records.length)
    ⟨contents_empty, by simp [State.init]⟩ ?_
  rintro ls s l s' hrun ⟨h, hfull⟩ hok hstep
  cases move_of_step hstep with
  | start | nothing | flush | stop => exact ⟨h, hfull⟩
  | lost _ _ => exact ⟨h.lost rfl, forall_mem_snoc hfull rfl⟩
  | stored acknowledged hw hne _ =>
    -- The writer stands behind everything that was stored before.
    obtain ⟨block, hinv⟩ := logInvariant_run hrun
    have hrunning := hinv.running (hok.2 hne) _ hw
    obtain ⟨block', metadata, hspec⟩ :=
      prepare_spec hinv.layout hrunning.inStep hne (hok.1 hne _ hw)
    refine ⟨h.append hinv.layout hspec ?_ hfull acknowledged, forall_mem_snoc hfull rfl⟩
    intro a ha hstored
    rw [hspec.base_eq]
    exact hrunning.past a ha hstored

end OpenData.Log

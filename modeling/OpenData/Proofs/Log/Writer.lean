import OpenData.Proofs.Log.Layout

/-!
# What an append writes

`InStep storage block w` says that the writer `w` agrees with the storage: its block is the stored
one, its cache has the stored segments, and the keys it takes for listed are listed. `prepare_spec`
is the contract of the batch of one append: with the batch in the storage, the layout holds and the
new writer agrees with it. Without the batch the new writer agrees with the storage only if the
batch had entries alone, since only the other records are remembered in the caches.
-/

namespace OpenData.Log

open Lib Common List Option StorageKey
open OpenData.Sequence (SeqBlock SequenceAllocator Extends Allocates blockEnd allocate_spec)

variable {cache : SegmentCache} {segment : LogSegment}
  {records segmentRecords listingRecords : List Record} {assignment : SegmentAssignment}
  {startSeq : UInt64} {keys : List Bytes}

variable {storage : Storage} {block block' : Option SeqBlock}

/-! ### The block record -/

theorem Layout.put_extends (h : Layout storage block) {record}
    (hext : Extends seqBlockKey block record block') : Layout (storage.put record.toList) block' ∧
      ∀ a, HasSegment (storage.put record.toList) a ↔ HasSegment storage a := by
  cases hext with
  | same => exact ⟨h, fun a => Iff.rfl⟩
  | fresh b hle hfits =>
    have hkey : seqBlockKey = seqBlock.serialize := rfl
    exact ⟨h.put_block hle hfits, fun a => hasSegment_put_of_ne hkey (by simp)⟩

/-! ### The segment of a batch -/

/-- What the assignment of a segment does: a new segment starts at the next sequence. -/
structure Assigned (storage : Storage) (block : Option SeqBlock) (startSeq : UInt64)
    (assignment : SegmentAssignment) (records : List Record) (cache : SegmentCache) : Prop where
  layout : Layout (storage.put records) block
  knows : cache.Knows (storage.put records)
  stored : HasSegment (storage.put records) assignment.segment
  started : ∀ a, HasSegment (storage.put records) a →
    a.segmentMeta.startSeq.toNat ≤ startSeq.toNat
  latest : ∀ a, HasSegment (storage.put records) a →
    a.segmentMeta.startSeq ≤ assignment.segment.segmentMeta.startSeq
  segments : ∀ a, HasSegment (storage.put records) a ↔
    HasSegment storage a ∨ assignment.isNew = true ∧ a = assignment.segment
  fresh : assignment.isNew = true → assignment.segment.segmentMeta.startSeq = startSeq
  keys : ∀ r ∈ records, ∃ id, r.key = (segmentMeta id).serialize

theorem SegmentCache.Knows.id_lt (hlayout : Layout storage block) (hknows : cache.Knows storage)
    {latest a} (hlatest : cache.latest = some latest)
    (hid : latest.id.toNat + 1 < 0xFFFFFFFF) (ha : HasSegment storage a) :
    a.id < latest.id + 1 := by
  obtain ⟨hstored, hmax⟩ := hknows.latest_some hlatest
  have hle : a.id.toNat ≤ latest.id.toNat := by
    apply Nat.le_of_not_lt
    intro hlt
    have hstart := hlayout.ordered latest a hstored ha (UInt32.lt_iff_toNat_lt.mpr hlt)
    exact absurd (hmax a ha) (UInt64.not_le.mpr hstart)
  rw [UInt32.lt_iff_toNat_lt, UInt32.toNat_add]
  have hone : (1 : UInt32).toNat = 1 := rfl
  omega

theorem SegmentCache.Knows.insert (hknows : cache.Knows storage)
    (hfresh : ∀ a, HasSegment storage a → a.id ≠ segment.id ∧
      a.segmentMeta.startSeq ≠ segment.segmentMeta.startSeq) :
    (cache.insert segment).Knows (storage.put [segment.record]) := by
  intro start a
  rw [SegmentCache.getElem?_insert, hasSegment_put_record fun a ha => (hfresh a ha).1]
  by_cases hstart : segment.segmentMeta.startSeq = start
  · rw [if_pos hstart, Option.some.injEq]
    constructor
    · rintro rfl
      exact ⟨hstart, Or.inl rfl⟩
    · rintro ⟨heq, rfl | ha⟩
      · rfl
      · exact absurd (heq.trans hstart.symm) (hfresh a ha).2
  · rw [if_neg hstart, hknows start a]
    constructor
    · rintro ⟨heq, ha⟩
      exact ⟨heq, Or.inr ha⟩
    · rintro ⟨heq, rfl | ha⟩
      · exact absurd heq hstart
      · exact ⟨heq, ha⟩

theorem Assigned.of_fresh (hlayout : Layout storage block) (hknows : cache.Knows storage)
    (segment : LogSegment) (hfresh : ∀ a, HasSegment storage a → a.id < segment.id ∧
      a.segmentMeta.startSeq < segment.segmentMeta.startSeq)
    (hstart : segment.segmentMeta.startSeq.toNat < blockEnd block) (hid : segment.id < 0xFFFFFFFF) :
    Assigned storage block segment.segmentMeta.startSeq { segment, isNew := true }
      [segment.record] (cache.insert segment) := by
  have hsegments : ∀ a, HasSegment (storage.put [segment.record]) a ↔
      a = segment ∨ HasSegment storage a :=
    fun a => hasSegment_put_record fun a ha => UInt32.ne_of_lt (hfresh a ha).1
  have hlatest : ∀ a, HasSegment (storage.put [segment.record]) a →
      a.segmentMeta.startSeq ≤ segment.segmentMeta.startSeq := by
    intro a ha
    rcases (hsegments a).mp ha with rfl | ha
    · exact UInt64.le_refl _
    · exact UInt64.le_of_lt (hfresh a ha).2
  exact {
    layout := hlayout.put_segment hfresh hstart hid
    knows := hknows.insert fun a ha =>
      ⟨UInt32.ne_of_lt (hfresh a ha).1, UInt64.ne_of_lt (hfresh a ha).2⟩
    stored := Storage.getElem?_put_singleton_self _ _
    started := fun a ha => UInt64.le_iff_toNat_le.mp (hlatest a ha)
    latest := hlatest
    segments := by
      intro a
      rw [hsegments, or_comm]
      simp
    fresh := fun _ => rfl
    keys := by
      intro r hr
      exact ⟨segment.id, congrArg Record.key (mem_singleton.mp hr)⟩ }

theorem SegmentCache.assignSegment_spec (hlayout : Layout storage block)
    (hknows : cache.Knows storage)
    (hbefore : ∀ a, HasSegment storage a → a.segmentMeta.startSeq.toNat < startSeq.toNat)
    (hstart : startSeq.toNat < blockEnd block) {currentTimeMs}
    (hid : shouldRoll cache.config.sealInterval currentTimeMs cache.latest = true →
      ∀ latest ∈ cache.latest, latest.id.toNat + 1 < 0xFFFFFFFF) {cache'}
    (h : cache.assignSegment currentTimeMs startSeq false = (assignment, records, cache')) :
    Assigned storage block startSeq assignment records cache' := by
  unfold assignSegment at h
  simp only [Bool.false_or] at h
  by_cases hroll : shouldRoll cache.config.sealInterval currentTimeMs cache.latest = true
  · -- A new segment: its id is behind all stored ones, and so is its start.
    rw [if_pos hroll] at h
    obtain ⟨rfl, rfl, rfl⟩ : _ ∧ _ ∧ _ := by simpa only [Prod.mk.injEq] using h
    cases hlatest : cache.latest with
    | none =>
      have hnone := hknows.latest_none hlatest
      exact Assigned.of_fresh hlayout hknows ⟨0, startSeq, currentTimeMs⟩
        (fun a ha => absurd ha (hnone a)) hstart (show (0 : UInt32) < 0xFFFFFFFF by decide)
    | some latest =>
      have hlt := hid hroll latest hlatest
      refine Assigned.of_fresh hlayout hknows ⟨latest.id + 1, startSeq, currentTimeMs⟩
        (fun a ha => ⟨?_, ?_⟩) hstart ?_
      · exact hknows.id_lt hlayout hlatest hlt ha
      · exact UInt64.lt_iff_toNat_lt.mpr (hbefore a ha)
      · rw [UInt32.lt_iff_toNat_lt]
        show (latest.id + 1).toNat < 0xFFFFFFFF
        rw [UInt32.toNat_add]
        exact Nat.lt_of_le_of_lt (Nat.mod_le _ _) hlt
  · rw [if_neg hroll] at h
    obtain ⟨rfl, rfl, rfl⟩ : _ ∧ _ ∧ _ := by simpa only [Prod.mk.injEq] using h
    cases hlatest : cache.latest with
    | none => simp [hlatest, shouldRoll] at hroll
    | some latest =>
      obtain ⟨hstored, hmax⟩ := hknows.latest_some hlatest
      exact {
        layout := hlayout
        knows := hknows
        stored := hstored
        started := fun a ha => Nat.le_of_lt (hbefore a ha)
        latest := hmax
        segments := by simp
        fresh := by simp
        keys := by simp }

/-! ### The listings of a batch -/

def ListingCache.Knows (cache : ListingCache) (storage : Storage) : Prop :=
  ∀ id ∈ cache.currentSegmentId, ∀ key ∈ cache.keys,
    (ListingEntryKey.mk id key).serialize ∈ storage

/-- What the listing of the keys does: each key is listed in its segment. -/
structure Listed (storage : Storage) (segmentId : UInt32) (keys : List Bytes)
    (records : List Record) (cache : ListingCache) : Prop where
  knows : cache.Knows (storage.put records)
  listed : ∀ key ∈ keys, (ListingEntryKey.mk segmentId key).serialize ∈ storage.put records
  keys : ∀ r ∈ records, ∃ key ∈ keys, r.key = (listing segmentId key).serialize

variable {cache : ListingCache} {segmentId : UInt32}

theorem ListingCache.assignNewKeys_spec (hknows : cache.Knows storage)
    {fresh cache'}
    (h : cache.assignNewKeys segmentId keys = (fresh, records, cache')) :
    Listed storage segmentId keys records cache' := by
  unfold assignNewKeys at h
  generalize hknown : (if cache.currentSegmentId = some segmentId then cache.keys else ∅) = known
    at h
  obtain ⟨rfl, rfl, rfl⟩ : _ ∧ _ ∧ _ := by simpa only [Prod.mk.injEq] using h
  obtain ⟨hiff, hall, hfresh⟩ := newKeys_spec known keys
  -- The keys that were known before belong to the same segment.
  have hbefore : ∀ key ∈ known, (ListingEntryKey.mk segmentId key).serialize ∈ storage := by
    intro key hkey
    by_cases hsame : cache.currentSegmentId = some segmentId
    · rw [← hknown, if_pos hsame] at hkey
      exact hknows segmentId hsame key hkey
    · rw [← hknown, if_neg hsame] at hkey
      exact absurd hkey Std.TreeSet.not_mem_emptyc
  have hafter : ∀ key ∈ (newKeys known keys).2, (ListingEntryKey.mk segmentId key).serialize ∈
      storage.put ((newKeys known keys).1.map fun key =>
        { key := (ListingEntryKey.mk segmentId key).serialize, value := listingEntryValue }) := by
    intro key hkey
    rw [Storage.mem_put]
    rcases (hiff key).mp hkey with hfresh | hold
    · exact Or.inl ⟨_, mem_map_of_mem hfresh, rfl⟩
    · exact Or.inr (hbefore key hold)
  refine ⟨?_, fun key hkey => hafter key (hall key hkey), ?_⟩
  · intro id hid key hkey
    obtain rfl : segmentId = id := Option.some.inj hid
    exact hafter key hkey
  · intro r hr
    obtain ⟨key, hkey, rfl⟩ := mem_map.mp hr
    exact ⟨key, hfresh key hkey, rfl⟩

theorem Layout.put_listings (h : Layout storage block)
    (hlisted : Listed storage segmentId keys records cache) :
    InSegment records ∧ Layout (storage.put records) block := by
  have hkind : InSegment records := by
    intro r hr
    obtain ⟨key, -, hkey⟩ := hlisted.keys r hr
    exact ⟨_, rfl, hkey⟩
  refine ⟨hkind, h.put_inSegment hkind ?_⟩
  -- None of the records is an entry.
  intro r hr segmentId' key' relativeSeq hrk
  obtain ⟨key, -, hkey⟩ := hlisted.keys r hr
  have hsame : entry segmentId' key' relativeSeq = .listing segmentId key :=
    serialize_inj.mp (hrk.symm.trans hkey)
  cases hsame

/-! ### The entries of a batch -/

variable {baseSequence : UInt64}

theorem mem_addEntries {userRecords r} (hr : r ∈ addEntries segment baseSequence userRecords) :
    ∃ (i : Nat) (userRecord : UserRecord), userRecords[i]? = some userRecord ∧
      r.value = userRecord.value ∧ r.key = (entry segment.id userRecord.key
        (baseSequence + UInt64.ofNat i - segment.segmentMeta.startSeq)).serialize := by
  obtain ⟨⟨userRecord, i⟩, hmem, rfl⟩ := mem_map.mp hr
  exact ⟨i, userRecord, mem_zipIdx_iff_getElem?.mp hmem, rfl, rfl⟩

theorem toNat_relativeSeq {base start : UInt64} {i : Nat} (hstart : start.toNat ≤ base.toNat)
    (hi : base.toNat + i < 2 ^ 64) :
    start.toNat + (base + UInt64.ofNat i - start).toNat = base.toNat + i := by
  have hsum : (base + UInt64.ofNat i).toNat = base.toNat + i := by
    rw [UInt64.toNat_add, UInt64.toNat_ofNat']
    omega
  have hle : start ≤ base + UInt64.ofNat i := by
    rw [UInt64.le_iff_toNat_le]
    omega
  rw [UInt64.toNat_sub_of_le _ _ hle]
  omega

theorem Layout.put_entries (h : Layout storage block) (hsegment : HasSegment storage segment)
    (hstart : segment.segmentMeta.startSeq.toNat ≤ baseSequence.toNat)
    (userRecords : List UserRecord)
    (hend : baseSequence.toNat + userRecords.length ≤ blockEnd block)
    (hlisted : ∀ r ∈ userRecords, (ListingEntryKey.mk segment.id r.key).serialize ∈ storage) :
    InSegment (addEntries segment baseSequence userRecords) ∧
      Layout (storage.put (addEntries segment baseSequence userRecords)) block := by
  have hkind : InSegment (addEntries segment baseSequence userRecords) := by
    intro r hr
    obtain ⟨i, userRecord, -, -, hkey⟩ := mem_addEntries hr
    exact ⟨_, rfl, hkey⟩
  refine ⟨hkind, h.put_inSegment hkind ?_⟩
  intro r hr segmentId key relativeSeq hrk
  obtain ⟨i, userRecord, hi, -, hkey⟩ := mem_addEntries hr
  have hsame : entry segmentId key relativeSeq = .entry segment.id userRecord.key _ :=
    serialize_inj.mp (hrk.symm.trans hkey)
  obtain ⟨rfl, rfl, rfl⟩ := entry.inj hsame
  obtain ⟨hlt, -⟩ := List.getElem?_eq_some_iff.mp hi
  have hfits := h.fits
  have hseq := toNat_relativeSeq hstart (show baseSequence.toNat + i < 2 ^ 64 by omega)
  refine ⟨⟨segment, rfl, hkind.hasSegment_put.mpr hsegment, by omega⟩, ?_⟩
  exact mem_put_of_mem (hlisted userRecord (List.mem_of_getElem? hi))

/-! ### The batch of an append -/

/-- The caches of the writer agree with the store. -/
structure InStep (storage : Storage) (block : Option SeqBlock) (w : LogWriter) : Prop where
  key_eq : w.sequenceAllocator.key = seqBlockKey
  wf : w.sequenceAllocator.block.WF
  current : w.sequenceAllocator.block.currentBlock = block
  segments : w.segmentCache.Knows storage
  before : ∀ a, HasSegment storage a →
    a.segmentMeta.startSeq.toNat < w.sequenceAllocator.peekNextSequence.toNat
  listings : w.listingCache.Knows storage

variable {w : LogWriter}

theorem InStep.put_inSegment (h : InStep storage block w)
    (hkind : InSegment records) : InStep (storage.put records) block w where
  __ := h
  segments := by
    intro start a
    rw [hkind.hasSegment_put]
    exact h.segments start a
  before := fun a ha => h.before a (hkind.hasSegment_put.mp ha)
  listings := fun id hid key hkey => mem_put_of_mem (h.listings id hid key hkey)

/-- No value of the append wraps: the batch can be counted, the block ends below `2 ^ 64`, and a new
segment has an id below `u32::MAX`. -/
def LogWriter.Fits (w : LogWriter) (write : LogWrite) : Prop :=
  write.records.length < 2 ^ 64 ∧
  w.sequenceAllocator.Fits (UInt64.ofNat write.records.length) ∧
  (SegmentCache.shouldRoll w.segmentCache.config.sealInterval write.timestampMs
      w.segmentCache.latest = true →
    ∀ latest ∈ w.segmentCache.latest, latest.id.toNat + 1 < 0xFFFFFFFF)

instance (w : LogWriter) (write : LogWrite) : Decidable (w.Fits write) :=
  inferInstanceAs (Decidable (_ ∧ _ ∧ (_ → _)))

theorem isEntry_eq {r} {key : StorageKey} (h : r.key = key.serialize) :
    isEntry r = decide (key.tag = 0x10) := by
  have htake : r.key.take 3 = [subsystem, keyVersion, key.tag] := by
    rw [h, serialize_eq]
    rfl
  rw [isEntry, htake]
  cases key <;> rfl

/-- What `prepare` does: the metadata first, then the entries, and the store stays well formed. -/
structure PreparedSpec (storage : Storage) (block : Option SeqBlock) (w : LogWriter)
    (write : LogWrite) (p : Prepared) (block' : Option SeqBlock) (metadata : List Record) :
    Prop where
  base_eq : p.baseSeq = w.sequenceAllocator.peekNextSequence
  next : p.writer.sequenceAllocator.peekNextSequence.toNat =
    p.baseSeq.toNat + write.records.length
  le : blockEnd block ≤ blockEnd block'
  records_eq : p.records = metadata ++ addEntries p.assignment.segment p.baseSeq write.records
  metadata_kind : ∀ r ∈ metadata, isEntry r = false
  entries_kind : InSegment (addEntries p.assignment.segment p.baseSeq write.records)
  layout : Layout (storage.put metadata) block'
  inStep : InStep (storage.put metadata) block' p.writer
  layout_entries : Layout (storage.put p.records) block'
  stored : HasSegment (storage.put metadata) p.assignment.segment
  started : p.assignment.segment.segmentMeta.startSeq ≤ p.baseSeq
  latest : ∀ a, HasSegment (storage.put metadata) a →
    a.segmentMeta.startSeq ≤ p.assignment.segment.segmentMeta.startSeq
  segments : ∀ a, HasSegment (storage.put metadata) a ↔
    HasSegment storage a ∨ p.assignment.isNew = true ∧ a = p.assignment.segment
  fresh : p.assignment.isNew = true → p.assignment.segment.segmentMeta.startSeq = p.baseSeq
  listings : ∀ r ∈ metadata, ∀ id key, r.key = (ListingEntryKey.mk id key).serialize →
    id = p.assignment.segment.id ∧ key ∈ write.records.map fun r => r.key

variable {blockRecord : Option Record} {segmentCache : SegmentCache} {listingCache : ListingCache}
  {storage1 storage2 : Storage}

section

variable (hreserved : Extends seqBlockKey block blockRecord block')
  (hassigned : Assigned storage1 block' startSeq assignment segmentRecords segmentCache)
  (hlisted : Listed storage2 assignment.segment.id keys listingRecords listingCache)
include hreserved hassigned hlisted

theorem isEntry_metadata :
    ∀ r ∈ blockRecord.toList ++ segmentRecords ++ listingRecords, isEntry r = false := by
  intro r hr
  rw [mem_append, mem_append, mem_toList] at hr
  rcases hr with (hr | hr) | hr
  · have hkey : r.key = seqBlock.serialize := hreserved.key_of_mem hr
    exact isEntry_eq hkey
  · obtain ⟨id, hkey⟩ := hassigned.keys r hr
    exact isEntry_eq hkey
  · obtain ⟨key, -, hkey⟩ := hlisted.keys r hr
    exact isEntry_eq hkey

theorem listings_metadata : ∀ r ∈ blockRecord.toList ++ segmentRecords ++ listingRecords, ∀ id key,
      r.key = (ListingEntryKey.mk id key).serialize → id = assignment.segment.id ∧ key ∈ keys := by
  intro r hr id key hkey
  have hkey : r.key = (listing id key).serialize := hkey
  rw [mem_append, mem_append, mem_toList] at hr
  rcases hr with (hr | hr) | hr
  · have hblock : r.key = seqBlock.serialize := hreserved.key_of_mem hr
    cases serialize_inj.mp (hblock.symm.trans hkey)
  · obtain ⟨id', hsegment⟩ := hassigned.keys r hr
    cases serialize_inj.mp (hsegment.symm.trans hkey)
  · obtain ⟨key', hmem, hlisting⟩ := hlisted.keys r hr
    cases serialize_inj.mp (hlisting.symm.trans hkey)
    exact ⟨rfl, hmem⟩

end

theorem inStep_assigned (hkey : w.sequenceAllocator.key = seqBlockKey)
    (hwf : w.sequenceAllocator.block.WF) (hcurrent : w.sequenceAllocator.block.currentBlock = block)
    (hassigned : Assigned storage block startSeq assignment segmentRecords w.segmentCache)
    (hlisted : Listed (storage.put segmentRecords) assignment.segment.id keys listingRecords
      w.listingCache) (hkind : InSegment listingRecords)
    (hlt : startSeq.toNat < w.sequenceAllocator.peekNextSequence.toNat) :
    InStep ((storage.put segmentRecords).put listingRecords) block w where
  key_eq := hkey
  wf := hwf
  current := hcurrent
  segments := by
    intro start a
    rw [hkind.hasSegment_put]
    exact hassigned.knows start a
  before := by
    intro a ha
    exact Nat.lt_of_le_of_lt (hassigned.started a (hkind.hasSegment_put.mp ha)) hlt
  listings := hlisted.knows

theorem prepare_spec {write} (hlayout : Layout storage block)
    (hstep : InStep storage block w) (hne : write.records ≠ []) (hfits : w.Fits write) :
    ∃ block' metadata, PreparedSpec storage block w write (w.prepare write) block' metadata := by
  obtain ⟨hlen, hroom, hid⟩ := hfits
  have hcount : (UInt64.ofNat write.records.length).toNat = write.records.length := by
    rw [UInt64.toNat_ofNat']
    exact Nat.mod_eq_of_lt hlen
  have hpos : 0 < write.records.length := length_pos_iff.mpr hne
  -- The sequences.
  obtain ⟨base, blockRecord, allocator, halloc⟩ :
      ∃ base blockRecord allocator, w.sequenceAllocator.allocate
        (UInt64.ofNat write.records.length) = (base, blockRecord, allocator) := ⟨_, _, _, rfl⟩
  have hspec := allocate_spec hstep.wf hroom halloc
  have hbase := congrArg UInt64.toNat hspec.base_eq
  have hnext := hspec.next
  have hend := hspec.wf.next
  have hreserved : Extends seqBlockKey block blockRecord allocator.block.currentBlock := by
    rw [← hstep.key_eq, ← hstep.current]
    exact hspec.reserved
  obtain ⟨hlayout1, hsegments1⟩ := hlayout.put_extends hreserved
  -- The segment.
  have hknows1 : w.segmentCache.Knows (storage.put blockRecord.toList) := by
    intro start a
    rw [hsegments1]
    exact hstep.segments start a
  obtain ⟨assignment, segmentRecords, segmentCache, hassign⟩ :
      ∃ assignment segmentRecords segmentCache, w.segmentCache.assignSegment write.timestampMs base
        false = (assignment, segmentRecords, segmentCache) := ⟨_, _, _, rfl⟩
  have hassigned := SegmentCache.assignSegment_spec hlayout1 hknows1
    (fun a ha => hspec.base_eq ▸ hstep.before a ((hsegments1 a).mp ha))
    (show base.toNat < _ by omega) hid hassign
  -- The listings.
  obtain ⟨fresh, listingRecords, listingCache, hlist⟩ :
      ∃ fresh listingRecords listingCache, w.listingCache.assignNewKeys assignment.segment.id
        (write.records.map fun r => r.key) = (fresh, listingRecords, listingCache) := ⟨_, _, _, rfl⟩
  have hlistings : w.listingCache.Knows ((storage.put blockRecord.toList).put segmentRecords) :=
    fun id hid key hkey => mem_put_of_mem (mem_put_of_mem (hstep.listings id hid key hkey))
  have hlisted := ListingCache.assignNewKeys_spec hlistings hlist
  obtain ⟨hkind, hlayout3⟩ := hassigned.layout.put_listings hlisted
  -- The entries.
  obtain ⟨hentries, hlayout4⟩ := hlayout3.put_entries (hkind.hasSegment_put.mpr hassigned.stored)
    (hassigned.started _ hassigned.stored) write.records (by omega)
    (fun r hr => hlisted.listed _ (mem_map_of_mem hr))
  have hprepare : w.prepare write = {
      baseSeq := base, assignment
      records := blockRecord.toList ++ segmentRecords ++ listingRecords
        ++ addEntries assignment.segment base write.records
      writer := { w with sequenceAllocator := allocator, segmentCache, listingCache } } := by
    simp only [LogWriter.prepare, halloc, hassign, hlist]
  refine ⟨allocator.block.currentBlock, blockRecord.toList ++ segmentRecords ++ listingRecords, ?_⟩
  rw [hprepare]
  exact {
    base_eq := hspec.base_eq
    next := by
      show allocator.block.nextSequence.toNat = base.toNat + write.records.length
      omega
    le := hreserved.le
    records_eq := rfl
    metadata_kind := isEntry_metadata hreserved hassigned hlisted
    entries_kind := hentries
    layout := by
      rw [Storage.put_append, Storage.put_append]
      exact hlayout3
    inStep := by
      rw [Storage.put_append, Storage.put_append]
      exact inStep_assigned (hspec.key_eq.trans hstep.key_eq) hspec.wf rfl hassigned hlisted hkind
        (show base.toNat < allocator.block.nextSequence.toNat by omega)
    layout_entries := by
      simp only [Storage.put_append]
      exact hlayout4
    stored := by
      rw [Storage.put_append, Storage.put_append]
      exact hkind.hasSegment_put.mpr hassigned.stored
    started := UInt64.le_iff_toNat_le.mpr (hassigned.started _ hassigned.stored)
    latest := by
      rw [Storage.put_append, Storage.put_append]
      exact fun a ha => hassigned.latest a (hkind.hasSegment_put.mp ha)
    segments := by
      intro a
      rw [Storage.put_append, Storage.put_append, hkind.hasSegment_put, hassigned.segments,
        hsegments1]
    fresh := hassigned.fresh
    listings := listings_metadata hreserved hassigned hlisted }

end OpenData.Log

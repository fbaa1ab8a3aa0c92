import OpenData.Proofs.Common.Sequence
import OpenData.Proofs.Log.Caches

/-!
# A storage that a log can be opened from

`Layout storage block` is what a log expects of its storage: the block of sequence numbers is
`block`, the segments are ordered by id and by start alike, and every entry is anchored, that is,
its segment is stored, its sequence lies below the end of the block and its key is listed.
-/

namespace OpenData.Log

open Lib Common StorageKey
open OpenData.Sequence (SeqBlock SequenceAllocator blockEnd)

/-- The segment of an entry is stored, the sequence of the entry is below `limit`, and its key is
listed in the segment. -/
structure Anchored (storage : Storage) (limit : Nat) (segmentId : UInt32) (key : Bytes)
    (relativeSeq : UInt64) : Prop where
  segment : ∃ a : LogSegment, a.id = segmentId ∧ HasSegment storage a ∧
    a.segmentMeta.startSeq.toNat + relativeSeq.toNat < limit
  listed : (ListingEntryKey.mk segmentId key).serialize ∈ storage

/-- The store is well formed: its records decode, and segments and entries are in order. -/
structure Layout (storage : Storage) (block : Option SeqBlock) : Prop where
  typed : Typed storage
  block_eq : storage[seqBlockKey]? = block.map SeqBlock.serialize
  fits : blockEnd block < 2 ^ 64
  decode : SegmentsDecode storage
  started : ∀ a, HasSegment storage a → a.segmentMeta.startSeq.toNat < blockEnd block
  ids : ∀ a, HasSegment storage a → a.id < 0xFFFFFFFF
  ordered : ∀ a b, HasSegment storage a → HasSegment storage b → a.id < b.id →
    a.segmentMeta.startSeq < b.segmentMeta.startSeq
  entries : ∀ segmentId key relativeSeq, entryKey segmentId key relativeSeq ∈ storage →
    Anchored storage (blockEnd block) segmentId key relativeSeq

variable {storage storage' : Storage} {block : Option SeqBlock} {records : List Record}

theorem Anchored.mono {limit limit' segmentId key relativeSeq}
    (h : Anchored storage limit segmentId key relativeSeq)
    (hsegments : ∀ a, HasSegment storage a → HasSegment storage' a)
    (hkeys : ∀ k, k ∈ storage → k ∈ storage') (hlimit : limit ≤ limit') :
    Anchored storage' limit' segmentId key relativeSeq := by
  obtain ⟨a, hid, ha, hlt⟩ := h.segment
  exact ⟨⟨a, hid, hsegments a ha, Nat.lt_of_lt_of_le hlt hlimit⟩, hkeys _ h.listed⟩

theorem mem_put_of_mem {k} (h : k ∈ storage) : k ∈ storage.put records :=
  Storage.mem_put.mpr (Or.inr h)

theorem HasSegment.eq_of_id {a b} (ha : HasSegment storage a)
    (hb : HasSegment storage b) (h : a.id = b.id) : a = b := by
  have hkey : a.record.key = b.record.key := by simp only [LogSegment.record, h]
  have hvalue : a.record.value = b.record.value := by
    rw [HasSegment, hkey, hb, Option.some.injEq] at ha
    exact ha.symm
  have hrecord : a.record = b.record := by
    cases hra : a.record
    cases hrb : b.record
    simp_all
  exact LogSegment.record_injective hrecord

theorem Layout.eq_of_start (h : Layout storage block) {a b}
    (ha : HasSegment storage a) (hb : HasSegment storage b)
    (hstart : a.segmentMeta.startSeq = b.segmentMeta.startSeq) : a = b := by
  rcases Nat.lt_trichotomy a.id.toNat b.id.toNat with hlt | heq | hlt
  · have hbefore := h.ordered a b ha hb (UInt32.lt_iff_toNat_lt.mpr hlt)
    exact absurd hstart (UInt64.ne_of_lt hbefore)
  · exact ha.eq_of_id hb (UInt32.toNat_inj.mp heq)
  · have hbefore := h.ordered b a hb ha (UInt32.lt_iff_toNat_lt.mpr hlt)
    exact absurd hstart.symm (UInt64.ne_of_lt hbefore)

/-! ### Records of the segments -/

def StorageKey.inSegment : StorageKey → Bool
  | .entry .. | .listing .. => true
  | .seqBlock | .segmentMeta _ => false

def InSegment (records : List Record) : Prop :=
  ∀ r ∈ records, ∃ key : StorageKey, key.inSegment = true ∧ r.key = key.serialize

theorem InSegment.getElem?_put (h : InSegment records) (storage : Storage) (key : StorageKey)
    (hkey : key.inSegment = false) :
    (storage.put records)[key.serialize]? = storage[key.serialize]? := by
  apply Storage.getElem?_put_of_ne
  intro r hr heq
  obtain ⟨key', hkey', hser⟩ := h r hr
  rw [serialize_inj.mp (hser.symm.trans heq), hkey] at hkey'
  cases hkey'

variable {a : LogSegment}

theorem InSegment.hasSegment_put (h : InSegment records) :
    HasSegment (storage.put records) a ↔ HasSegment storage a := by
  unfold HasSegment
  have hsame := h.getElem?_put storage (.segmentMeta a.id) rfl
  rw [show a.record.key = (segmentMeta a.id).serialize from rfl, hsame]

theorem Typed.put (h : Typed storage)
    (hrecords : ∀ r ∈ records, ∃ key : StorageKey, r.key = key.serialize) :
    Typed (storage.put records) := by
  intro k v hk
  rcases Storage.getElem?_put_cases hk with ⟨r, hr, hrk, -⟩ | hold
  · obtain ⟨key, hkey⟩ := hrecords r hr
    exact ⟨key, hrk.symm.trans hkey⟩
  · exact h k v hold

theorem Layout.put_inSegment (h : Layout storage block) (hkind : InSegment records)
    (hnew : ∀ r ∈ records, ∀ segmentId key relativeSeq, r.key = entryKey segmentId key relativeSeq →
      Anchored (storage.put records) (blockEnd block) segmentId key relativeSeq) :
    Layout (storage.put records) block where
  typed := by
    refine h.typed.put fun r hr => ?_
    obtain ⟨key, -, hkey⟩ := hkind r hr
    exact ⟨key, hkey⟩
  block_eq := (hkind.getElem?_put storage .seqBlock rfl).trans h.block_eq
  fits := h.fits
  decode := by
    intro id v hv
    exact h.decode id v ((hkind.getElem?_put storage (.segmentMeta id) rfl).symm.trans hv)
  started := fun a ha => h.started a (hkind.hasSegment_put.mp ha)
  ids := fun a ha => h.ids a (hkind.hasSegment_put.mp ha)
  ordered := by
    intro a b ha hb
    exact h.ordered a b (hkind.hasSegment_put.mp ha) (hkind.hasSegment_put.mp hb)
  entries := by
    intro segmentId key relativeSeq hmem
    rcases Storage.mem_put.mp hmem with ⟨r, hr, hrk⟩ | hold
    · exact hnew r hr segmentId key relativeSeq hrk
    · exact (h.entries _ _ _ hold).mono (fun a ha => hkind.hasSegment_put.mpr ha)
        (fun k hk => mem_put_of_mem hk) (Nat.le_refl _)

/-! ### The block and the segments -/

theorem hasSegment_put_of_ne {r} {key : StorageKey} (hkey : r.key = key.serialize)
    (hne : key ≠ .segmentMeta a.id) :
    HasSegment (storage.put [r]) a ↔ HasSegment storage a := by
  unfold HasSegment
  rw [Storage.getElem?_put_of_ne]
  intro r' hr' heq
  obtain rfl := List.mem_singleton.mp hr'
  exact hne (serialize_inj.mp (hkey.symm.trans heq))

theorem mem_of_mem_put_singleton {r} {key k : StorageKey} (hkey : r.key = key.serialize)
    (hne : key ≠ k) (h : k.serialize ∈ storage.put [r]) : k.serialize ∈ storage := by
  rcases Storage.mem_put.mp h with ⟨r', hr', heq⟩ | hold
  · obtain rfl := List.mem_singleton.mp hr'
    exact absurd (serialize_inj.mp (hkey.symm.trans heq)) hne
  · exact hold

theorem Layout.put_block (h : Layout storage block) {b : SeqBlock}
    (hle : blockEnd block ≤ blockEnd (some b)) (hfits : blockEnd (some b) < 2 ^ 64) :
    Layout (storage.put [{ key := seqBlockKey, value := b.serialize }]) (some b) := by
  have hkey : seqBlockKey = seqBlock.serialize := rfl
  have hseg : ∀ a, HasSegment (storage.put [{ key := seqBlockKey, value := b.serialize }]) a ↔
      HasSegment storage a := fun a => hasSegment_put_of_ne hkey (by simp)
  exact {
    typed := h.typed.put (by simpa using ⟨_, hkey⟩)
    block_eq := Storage.getElem?_put_singleton_self _ _
    fits := hfits
    decode := by
      intro id v hv
      rcases Storage.getElem?_put_cases hv with ⟨r, hr, hrk, -⟩ | hold
      · obtain rfl := List.mem_singleton.mp hr
        have heq : seqBlock = .segmentMeta id := serialize_inj.mp hrk
        cases heq
      · exact h.decode id v hold
    started := fun a ha => Nat.lt_of_lt_of_le (h.started a ((hseg a).mp ha)) hle
    ids := fun a ha => h.ids a ((hseg a).mp ha)
    ordered := fun a a' ha ha' => h.ordered a a' ((hseg a).mp ha) ((hseg a').mp ha')
    entries := by
      intro segmentId key relativeSeq hmem
      have hold : (entry segmentId key relativeSeq).serialize ∈ storage :=
        mem_of_mem_put_singleton hkey (by simp) hmem
      exact (h.entries _ _ _ hold).mono (fun a ha => (hseg a).mpr ha)
        (fun k hk => mem_put_of_mem hk) hle }

variable {segment : LogSegment}

theorem hasSegment_put_record (hfresh : ∀ a, HasSegment storage a → a.id ≠ segment.id) :
    HasSegment (storage.put [segment.record]) a ↔ a = segment ∨ HasSegment storage a := by
  by_cases hid : a.id = segment.id
  · have hself : HasSegment (storage.put [segment.record]) segment :=
      Storage.getElem?_put_singleton_self _ _
    constructor
    · intro ha
      exact Or.inl (ha.eq_of_id hself hid)
    · rintro (rfl | ha)
      · exact hself
      · exact absurd hid (hfresh a ha)
  · have hkey : segment.record.key = (segmentMeta segment.id).serialize := rfl
    rw [hasSegment_put_of_ne hkey (by simpa using fun heq => hid heq.symm)]
    constructor
    · exact Or.inr
    · rintro (rfl | ha)
      · exact absurd rfl hid
      · exact ha

theorem Layout.put_segment (h : Layout storage block)
    (hfresh : ∀ a, HasSegment storage a → a.id < segment.id ∧
      a.segmentMeta.startSeq < segment.segmentMeta.startSeq)
    (hstart : segment.segmentMeta.startSeq.toNat < blockEnd block)
    (hid : segment.id < 0xFFFFFFFF) : Layout (storage.put [segment.record]) block := by
  have hkey : segment.record.key = (segmentMeta segment.id).serialize := rfl
  have hseg : ∀ a, HasSegment (storage.put [segment.record]) a ↔
      a = segment ∨ HasSegment storage a :=
    fun a => hasSegment_put_record fun a ha => UInt32.ne_of_lt (hfresh a ha).1
  exact {
    typed := h.typed.put (by simpa using ⟨_, hkey⟩)
    block_eq := by
      rw [Storage.getElem?_put_of_ne, h.block_eq]
      intro r hr heq
      obtain rfl := List.mem_singleton.mp hr
      have heq : segmentMeta segment.id = .seqBlock := serialize_inj.mp heq
      cases heq
    fits := h.fits
    decode := by
      intro id v hv
      rcases Storage.getElem?_put_cases hv with ⟨r, hr, -, rfl⟩ | hold
      · obtain rfl := List.mem_singleton.mp hr
        exact ⟨segment.segmentMeta, rfl⟩
      · exact h.decode id v hold
    started := by
      intro a ha
      rcases (hseg a).mp ha with rfl | ha
      · exact hstart
      · exact h.started a ha
    ids := by
      intro a ha
      rcases (hseg a).mp ha with rfl | ha
      · exact hid
      · exact h.ids a ha
    ordered := by
      intro a b ha hb hlt
      rcases (hseg a).mp ha with rfl | ha' <;> rcases (hseg b).mp hb with rfl | hb'
      · exact absurd hlt (UInt32.lt_irrefl _)
      · exact absurd (UInt32.lt_trans hlt (hfresh b hb').1) (UInt32.lt_irrefl _)
      · exact (hfresh a ha').2
      · exact h.ordered a b ha' hb' hlt
    entries := by
      intro segmentId key relativeSeq hmem
      have hold : (entry segmentId key relativeSeq).serialize ∈ storage :=
        mem_of_mem_put_singleton hkey (by simp) hmem
      exact (h.entries _ _ _ hold).mono (fun a ha => (hseg a).mpr (Or.inr ha))
        (fun k hk => mem_put_of_mem hk) (Nat.le_refl _) }

/-! ### Opening the log -/

theorem layout_empty : Layout ∅ none where
  typed := by simp [Typed]
  block_eq := by simp
  fits := by decide
  decode := by simp [SegmentsDecode]
  started := by simp [HasSegment]
  ids := by simp [HasSegment]
  ordered := by simp [HasSegment]
  entries := by simp

theorem Layout.openStorage (h : Layout storage block) (config : SegmentConfig) :
    ∃ cache, SegmentCache.openStorage storage config = .ok cache ∧ cache.Knows storage :=
  SegmentCache.openStorage_spec h.typed h.decode h.ids (fun _ _ => h.eq_of_start) config

end OpenData.Log

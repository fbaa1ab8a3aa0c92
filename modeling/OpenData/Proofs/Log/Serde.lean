import Mathlib.Data.Set.List
import OpenData.Log.Writer
import OpenData.Proofs.Common.Serde

/-!
# The keys of the log in one store

The four kinds of records live in one store. `StorageKey` is the type of their keys, and
`StorageKey.serialize_inj` says that no two of them have the same bytes: the store is a table over
`StorageKey`. The bytes of a key are the three bytes of its prefix, of which the third one tells
the kinds apart, and a body (`StorageKey.serialize_eq`).
-/

namespace OpenData.Log

open Lib Common List SegmentMetaKey

/-- The keys of the store, by the record type. -/
inductive StorageKey where
  | entry (segmentId : UInt32) (key : Bytes) (relativeSeq : UInt64)
  | seqBlock
  | segmentMeta (segmentId : UInt32)
  | listing (segmentId : UInt32) (key : Bytes)
deriving DecidableEq

namespace StorageKey

def serialize : StorageKey → Bytes
  | .entry segmentId key relativeSeq => entryKey segmentId key relativeSeq
  | .seqBlock => seqBlockKey
  | .segmentMeta segmentId => (SegmentMetaKey.mk segmentId).serialize
  | .listing segmentId key => (ListingEntryKey.mk segmentId key).serialize

def tag : StorageKey → UInt8
  | .entry .. => 0x10
  | .seqBlock => 0x20
  | .segmentMeta _ => 0x30
  | .listing .. => 0x40

def body : StorageKey → Bytes
  | .entry segmentId key relativeSeq =>
    toBe 4 segmentId.toNat ++ (TerminatedBytes.serialize key ++ VarU64.serialize relativeSeq)
  | .seqBlock => []
  | .segmentMeta segmentId => toBe 4 segmentId.toNat
  | .listing segmentId key => toBe 4 segmentId.toNat ++ key

theorem serialize_eq (k : StorageKey) :
    k.serialize = subsystem :: keyVersion :: k.tag :: k.body := by
  cases k with
  | entry => simp only [serialize, entryKey, append_assoc]; rfl
  | seqBlock | segmentMeta => rfl
  | listing => simp only [serialize, ListingEntryKey.serialize, append_assoc]; rfl

theorem toNat_lt_pow (x : UInt32) : x.toNat < 256 ^ 4 := x.toNat_lt

theorem segmentId_append_inj {x y : UInt32} {r s}
    (h : toBe 4 x.toNat ++ r = toBe 4 y.toNat ++ s) : x = y ∧ r = s :=
  orderedCode_uint32.append_inj.mp h

theorem serialize_inj {k k' : StorageKey} : k.serialize = k'.serialize ↔ k = k' := by
  constructor
  · intro h
    rw [serialize_eq, serialize_eq] at h
    simp only [List.cons.injEq, true_and] at h
    obtain ⟨htag, hbody⟩ := h
    -- Keys of different kinds differ in the tag.
    cases k <;> cases k' <;> first | (simp [tag] at htag; done) | skip
    case entry.entry =>
      obtain ⟨rfl, hrest⟩ := segmentId_append_inj hbody
      obtain ⟨rfl, hseq⟩ := TerminatedBytes.serialize_append_inj hrest
      rw [(VarU64.orderedCode.append_inj.mp (congrArg (· ++ []) hseq)).1]
    case seqBlock.seqBlock => rfl
    case segmentMeta.segmentMeta =>
      have hbody : toBe 4 _ ++ [] = toBe 4 _ ++ [] := congrArg (· ++ []) hbody
      rw [(segmentId_append_inj hbody).1]
    case listing.listing =>
      obtain ⟨rfl, rfl⟩ := segmentId_append_inj hbody
      rfl
  · rintro rfl
    rfl

variable {k : StorageKey}

theorem segmentMeta_range {start stop} : (SegmentMetaKey.mk start).serialize ≤ k.serialize ∧
      k.serialize < (SegmentMetaKey.mk stop).serialize ↔
    ∃ id, k = .segmentMeta id ∧ start ≤ id ∧ id < stop := by
  show (StorageKey.segmentMeta start).serialize ≤ k.serialize ∧
    k.serialize < (StorageKey.segmentMeta stop).serialize ↔ _
  rw [← List.not_lt, serialize_eq, serialize_eq, serialize_eq]
  simp only [List.cons_lt_cons_iff, UInt8.lt_irrefl, true_and, false_or]
  cases k with
  | entry | seqBlock | listing => simp [tag]
  | segmentMeta id =>
    simp only [tag, body, UInt8.lt_irrefl, true_and, false_or,
      toBe_lt_toBe (toNat_lt_pow _) (toNat_lt_pow _), StorageKey.segmentMeta.injEq,
      exists_eq_left', UInt32.lt_iff_toNat_lt, UInt32.le_iff_toNat_le, Nat.not_lt]

theorem entry_range {segmentId : UInt32} {key start stop} :
    entryKey segmentId key start ≤ k.serialize ∧ k.serialize < entryKey segmentId key stop ↔
      ∃ relativeSeq, k = .entry segmentId key relativeSeq ∧ start ≤ relativeSeq ∧
        relativeSeq < stop := by
  -- All keys in between share everything but the sequence.
  rw [entryKey, entryKey, range_append]
  have hle : ∀ x y : UInt64, VarU64.serialize x ≤ VarU64.serialize y ↔ x ≤ y := by
    intro x y
    rw [← List.not_lt, VarU64.orderedCode.lt_iff, UInt64.not_lt]
  constructor
  · rintro ⟨z, hz, hstart, hstop⟩
    rw [serialize_eq] at hz
    simp only [List.append_assoc] at hz
    obtain ⟨htag, hbody⟩ : k.tag = 0x10 ∧ k.body = toBe 4 segmentId.toNat ++
        (TerminatedBytes.serialize key ++ z) := by
      have htag : RecordType.logEntry.tag = 0x10 := rfl
      simpa [KeyPrefix.toBytes, RecordType.keyPrefix, htag] using hz
    cases k with
    | entry segmentId' key' relativeSeq =>
      obtain ⟨rfl, hrest⟩ := segmentId_append_inj hbody
      obtain ⟨rfl, rfl⟩ := TerminatedBytes.serialize_append_inj hrest
      exact ⟨relativeSeq, rfl, (hle _ _).mp hstart, VarU64.orderedCode.lt_iff.mp hstop⟩
    | seqBlock | segmentMeta | listing => simp [tag] at htag
  · rintro ⟨relativeSeq, rfl, hstart, hstop⟩
    exact ⟨VarU64.serialize relativeSeq, rfl, (hle _ _).mpr hstart,
      VarU64.orderedCode.lt_iff.mpr hstop⟩

theorem listing_range {start stop} : ListingEntryKey.segmentPrefix start ≤ k.serialize ∧
      k.serialize < ListingEntryKey.segmentPrefix stop ↔
    ∃ id key, k = .listing id key ∧ start ≤ id ∧ id < stop := by
  have hhead : ∀ id, ListingEntryKey.segmentPrefix id
      = subsystem :: keyVersion :: 0x40 :: toBe 4 id.toNat := fun _ => rfl
  rw [← List.not_lt, serialize_eq, hhead, hhead]
  simp only [List.cons_lt_cons_iff, UInt8.lt_irrefl, true_and, false_or]
  cases k with
  | entry | seqBlock | segmentMeta => simp [tag]
  | listing id key =>
    have hlt : ∀ bound : UInt32, toBe 4 id.toNat ++ key < toBe 4 bound.toNat ↔ id < bound := by
      intro bound
      simpa using orderedCode_uint32.append_lt_append_iff (a := id) (b := bound) (r := key)
        (s := [])
    simp only [tag, body, UInt8.lt_irrefl, true_and, false_or]
    rw [hlt, hlt]
    simp

end StorageKey

/-! ### Decoders -/

theorem deserializeSegmentId_append (t : RecordType) (what : String) (segmentId : UInt32)
    (rest : Bytes) :
    deserializeSegmentId t what (t.keyPrefix.toBytes ++ toBe 4 segmentId.toNat ++ rest)
      = .ok segmentId := by
  generalize hdata : t.keyPrefix.toBytes ++ toBe 4 segmentId.toNat ++ rest = data
  have hid : UInt32.ofNat (ofBe ((data.drop 3).take 4)) = segmentId := by
    have hbody : (data.drop 3).take 4 = toBe 4 segmentId.toNat := by
      rw [← hdata]
      show (toBe 4 segmentId.toNat ++ rest).take 4 = _
      simp
    rw [hbody, ofBe_toBe_uint32]
  have hlength : ¬ data.length < 7 := by
    rw [← hdata]
    simp [KeyPrefix.toBytes]
  have hhead : KeyPrefix.fromBytesWithValidation data subsystem keyVersion = .ok t.keyPrefix := by
    rw [← hdata]
    cases t <;> rfl
  have htype : RecordType.fromPrefix t.keyPrefix = .ok t := by cases t <;> rfl
  simp only [deserializeSegmentId, hhead, htype, ne_eq, not_true_eq_false, if_false, hlength, hid]

theorem drop_segmentId (t : RecordType) (segmentId : UInt32) (rest : Bytes) :
    (t.keyPrefix.toBytes ++ toBe 4 segmentId.toNat ++ rest).drop 7 = rest := by
  have hlength : (t.keyPrefix.toBytes ++ toBe 4 segmentId.toNat).length = 7 := by
    simp [KeyPrefix.toBytes]
  rw [← hlength, drop_left]

theorem LogEntryKey.deserialize_entryKey (segmentId : UInt32) (key : Bytes)
    (relativeSeq segmentStartSeq : UInt64) :
    LogEntryKey.deserialize (entryKey segmentId key relativeSeq) segmentStartSeq
      = .ok { segmentId, key, sequence := segmentStartSeq + relativeSeq } := by
  have hread := VarU64.deserialize_serialize relativeSeq []
  rw [append_nil] at hread
  rw [LogEntryKey.deserialize, entryKey, append_assoc, deserializeSegmentId_append, drop_segmentId]
  simp only [TerminatedBytes.deserialize_serialize, hread]

theorem ListingEntryKey.deserialize_serialize (k : ListingEntryKey) :
    ListingEntryKey.deserialize k.serialize = .ok k := by
  rw [ListingEntryKey.deserialize, ListingEntryKey.serialize, deserializeSegmentId_append,
    drop_segmentId]

theorem SegmentMetaKey.deserialize_serialize (k : SegmentMetaKey) :
    deserialize k.serialize = .ok k := by
  have hread := deserializeSegmentId_append .segmentMeta "SegmentMeta key" k.segmentId []
  rw [append_nil] at hread
  rw [deserialize, serialize, hread]

/-! ### Segments -/

theorem SegmentMeta.deserialize_serialize (m : SegmentMeta) :
    SegmentMeta.deserialize m.serialize = .ok m := by
  have htake : m.serialize.take 8 = toBe 8 m.startSeq.toNat := by
    simp [SegmentMeta.serialize]
  have hdrop : (m.serialize.drop 8).take 8 = toBe 8 m.startTimeMs.toUInt64.toNat := by
    simp [SegmentMeta.serialize, take_of_length_le]
  have hlength : ¬ m.serialize.length < 16 := by simp [SegmentMeta.serialize]
  unfold SegmentMeta.deserialize
  rw [if_neg hlength, htake, hdrop, ofBe_toBe_uint64, ofBe_toBe_uint64, Int64.toInt64_toUInt64]

def LogSegment.record (segment : LogSegment) : Record :=
  { key := (SegmentMetaKey.mk segment.id).serialize, value := segment.segmentMeta.serialize }

theorem LogSegment.record_injective : Function.Injective LogSegment.record := by
  intro a b h
  have hkey := congrArg Record.key h
  have hvalue := congrArg (fun r => SegmentMeta.deserialize r.value) h
  have hid : StorageKey.segmentMeta a.id = .segmentMeta b.id := StorageKey.serialize_inj.mp hkey
  simp only [LogSegment.record, SegmentMeta.deserialize_serialize, Except.ok.injEq] at hvalue
  cases a
  cases b
  simp_all

def HasSegment (storage : Storage) (segment : LogSegment) : Prop :=
  storage[segment.record.key]? = some segment.record.value

def Typed (storage : Storage) : Prop :=
  ∀ k v, storage[k]? = some v → ∃ key : StorageKey, k = key.serialize

def SegmentsDecode (storage : Storage) : Prop :=
  ∀ id v, storage[(SegmentMetaKey.mk id).serialize]? = some v → ∃ m : SegmentMeta, v = m.serialize

theorem scanSegments_spec {storage} (htyped : Typed storage)
    (hdecode : SegmentsDecode storage) (start stop : UInt32) :
    ∃ segments, scanSegments storage start stop = .ok segments ∧ ∀ segment, segment ∈ segments ↔
        HasSegment storage segment ∧ start ≤ segment.id ∧ segment.id < stop := by
  -- The records in the range are the metadata records of some segments.
  have hrange : ∀ r ∈ storage.scan (SegmentMetaKey.mk start).serialize
      (SegmentMetaKey.mk stop).serialize, r ∈ Set.range LogSegment.record := by
    intro r hr
    obtain ⟨hstored, hkeys⟩ := Storage.mem_scan.mp hr
    obtain ⟨key, hkey⟩ := htyped _ _ hstored
    rw [hkey] at hkeys
    obtain ⟨id, rfl, -⟩ := StorageKey.segmentMeta_range.mp hkeys
    rw [hkey] at hstored
    obtain ⟨m, hm⟩ := hdecode id _ hstored
    have hkey : (SegmentMetaKey.mk id).serialize = r.key := hkey.symm
    exact ⟨⟨id, m⟩, by rw [LogSegment.record, ← hm, hkey]⟩
  obtain ⟨segments, hsegments⟩ : storage.scan (SegmentMetaKey.mk start).serialize
      (SegmentMetaKey.mk stop).serialize ∈ Set.range (List.map LogSegment.record) := by
    rw [Set.range_list_map]
    exact hrange
  have hdecoded : ∀ segment : LogSegment, (do
      let key ← deserialize segment.record.key
      let segmentMeta ← SegmentMeta.deserialize segment.record.value
      pure { id := key.segmentId, segmentMeta } : Except Error LogSegment) = pure segment := by
    intro segment
    rw [LogSegment.record, deserialize_serialize, SegmentMeta.deserialize_serialize]
    rfl
  refine ⟨segments, ?_, ?_⟩
  · rw [scanSegments, ← hsegments, mapM_map]
    simp only [Function.comp_def, hdecoded]
    show segments.mapM (fun segment => pure (id segment)) = _
    rw [mapM_pure, map_id]
    rfl
  · intro segment
    rw [← mem_map_of_injective LogSegment.record_injective, hsegments, Storage.mem_scan]
    refine and_congr_right fun _ => ?_
    show (SegmentMetaKey.mk start).serialize ≤ (StorageKey.segmentMeta segment.id).serialize ∧
      (StorageKey.segmentMeta segment.id).serialize < (SegmentMetaKey.mk stop).serialize ↔ _
    rw [StorageKey.segmentMeta_range]
    simp

end OpenData.Log

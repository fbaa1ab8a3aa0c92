import OpenData.Log.Reader
import OpenData.Proofs.Log.Layout

/-!
# What a scan and a listing return

`Stored storage e` says that the entry `e` is stored in one of the stored segments. A scan of a view
whose cache knows the stored segments yields exactly the stored entries of its key and range, in the
order of their sequences (`LogIterator.openRange_spec`, `log_keys_ordered`).
-/

namespace OpenData.Log

open Lib Common List StorageKey LogEntry
open OpenData.Sequence (SeqBlock)

/-! ### Stored entries -/

def LogEntry.record (segment : LogSegment) (e : LogEntry) : Record where
  key := (LogEntryKey.mk segment.id e.key e.sequence).serialize segment.segmentMeta.startSeq
  value := e.value

/-- The entry is stored in the segment. -/
structure StoredIn (storage : Storage) (segment : LogSegment) (e : LogEntry) : Prop where
  started : segment.segmentMeta.startSeq ≤ e.sequence
  stored : storage[(e.record segment).key]? = some (e.record segment).value

def Stored (storage : Storage) (e : LogEntry) : Prop :=
  ∃ segment, HasSegment storage segment ∧ StoredIn storage segment e

def Separated (storage : Storage) : Prop :=
  ∀ a b e, HasSegment storage a → HasSegment storage b → StoredIn storage a e →
    a.segmentMeta.startSeq < b.segmentMeta.startSeq → e.sequence < b.segmentMeta.startSeq

/-- The entry is one of the key and the range. -/
structure InRange (key : Bytes) (start stop : UInt64) (e : LogEntry) : Prop where
  key_eq : e.key = key
  lower : start ≤ e.sequence
  upper : e.sequence < stop

variable {storage : Storage} {segment : LogSegment} {key : Bytes} {start stop : UInt64}

theorem LogEntry.record_injective (segment : LogSegment) : Function.Injective (record segment) := by
  intro e e' h
  have hkey : entry segment.id e.key (e.sequence - segment.segmentMeta.startSeq)
      = .entry segment.id e'.key (e'.sequence - segment.segmentMeta.startSeq) :=
    serialize_inj.mp (congrArg Record.key h)
  obtain ⟨-, hkey, hseq⟩ := entry.inj hkey
  have hseq : e.sequence = e'.sequence := by
    rw [← UInt64.sub_add_cancel e.sequence segment.segmentMeta.startSeq, hseq,
      UInt64.sub_add_cancel]
  have hvalue : e.value = e'.value := congrArg Record.value h
  cases e
  cases e'
  simp_all

/-! ### One segment -/

theorem relative_range {segStart seq} (hseq : segStart ≤ seq) :
    (if segStart ≤ start then start - segStart else 0) ≤ seq - segStart ∧
      seq - segStart < (if segStart ≤ stop then stop - segStart else 0) ↔
    start ≤ seq ∧ seq < stop := by
  have hle := UInt64.le_iff_toNat_le.mp hseq
  have hrelative : ∀ bound : UInt64, (if segStart ≤ bound then bound - segStart else 0).toNat =
      bound.toNat - segStart.toNat := by
    intro bound
    split
    next h => exact UInt64.toNat_sub_of_le _ _ h
    next h =>
      rw [UInt64.not_le, UInt64.lt_iff_toNat_lt] at h
      exact (Nat.sub_eq_zero_of_le h.le).symm
  simp only [UInt64.le_iff_toNat_le, UInt64.lt_iff_toNat_lt] at hrelative ⊢
  rw [hrelative, hrelative, UInt64.toNat_sub_of_le _ _ hseq]
  omega

theorem StorageKey.contains_entry_scanRange {k : StorageKey} :
    (LogEntryKey.scanRange segment key start stop).contains k.serialize = true ↔
      ∃ relativeSeq, k = .entry segment.id key relativeSeq ∧
        (if segment.segmentMeta.startSeq ≤ start then start - segment.segmentMeta.startSeq else 0)
          ≤ relativeSeq ∧
        relativeSeq <
          if segment.segmentMeta.startSeq ≤ stop then stop - segment.segmentMeta.startSeq
          else 0 := by
  rw [← entry_range]
  simp [BytesRange.contains, LogEntryKey.scanRange, LogEntryKey.buildScanKey]

theorem StorageKey.contains_listing_scanRange {k : StorageKey} {start stop} :
    (ListingEntryKey.scanRange start stop).contains k.serialize = true ↔
      ∃ id key, k = .listing id key ∧ start ≤ id ∧ id < stop := by
  rw [← listing_range]
  simp [BytesRange.contains, ListingEntryKey.scanRange]

theorem entryKey_lt_entryKey {id id' key key' seq seq'} :
    entryKey id key seq < entryKey id' key' seq' ↔
      id < id' ∨ id = id' ∧ (key < key' ∨ key = key' ∧ seq < seq') := by
  simp only [entryKey, append_assoc, append_lt_append_left]
  rw [← VarU64.orderedCode.lt_iff, ← TerminatedBytes.orderedCode.append_lt_append_iff]
  exact orderedCode_uint32.append_lt_append_iff

/-- Keys of log entries sort by segment, user key and relative sequence, and a scan range holds the
keys of its segment and user key and no key of another record type. -/
theorem log_keys_ordered (startSeq : UInt32 → UInt64) :
    -- Every key is read back.
    (∀ k : LogEntryKey, LogEntryKey.deserialize (k.serialize (startSeq k.segmentId))
      (startSeq k.segmentId) = .ok k) ∧
    (∀ k : SegmentMetaKey, SegmentMetaKey.deserialize k.serialize = .ok k) ∧
    (∀ k : ListingEntryKey, ListingEntryKey.deserialize k.serialize = .ok k) ∧
    -- The bytes of entries are in the order of segment, user key and relative sequence.
    (∀ k k' : LogEntryKey,
      k.serialize (startSeq k.segmentId) < k'.serialize (startSeq k'.segmentId) ↔
        k.segmentId < k'.segmentId ∨ k.segmentId = k'.segmentId ∧ (k.key < k'.key ∨ k.key = k'.key ∧
            k.sequence - startSeq k.segmentId < k'.sequence - startSeq k'.segmentId)) ∧
    -- The ranges hold the keys they are for, and none of another record type.
    (∀ (m : Int64) (id : UInt32) key start stop, ∀ k : LogEntryKey,
      startSeq k.segmentId ≤ k.sequence →
      ((LogEntryKey.scanRange ⟨id, startSeq id, m⟩ key start stop).contains
          (k.serialize (startSeq k.segmentId)) = true ↔
        k.segmentId = id ∧ k.key = key ∧ start ≤ k.sequence ∧ k.sequence < stop)) ∧
    (∀ start stop, ∀ k : ListingEntryKey,
      (ListingEntryKey.scanRange start stop).contains k.serialize = true ↔
        start ≤ k.segmentId ∧ k.segmentId < stop) ∧
    (∀ segment key start stop, ∀ k : StorageKey,
      (LogEntryKey.scanRange segment key start stop).contains k.serialize = true →
        k.tag = RecordType.logEntry.tag) ∧
    ∀ start stop, ∀ k : StorageKey,
      (ListingEntryKey.scanRange start stop).contains k.serialize = true →
        k.tag = RecordType.listingEntry.tag := by
  refine ⟨fun k => ?_, SegmentMetaKey.deserialize_serialize, ListingEntryKey.deserialize_serialize,
    fun k k' => entryKey_lt_entryKey, fun m id key start stop k hk => ?_, fun start stop k => ?_,
    fun segment key start stop k hk => ?_, fun start stop k hk => ?_⟩
  · rw [LogEntryKey.serialize, LogEntryKey.deserialize_entryKey, UInt64.add_comm,
      UInt64.sub_add_cancel]
  · show BytesRange.contains _ (entry k.segmentId k.key _).serialize = true ↔ _
    rw [contains_entry_scanRange, ← relative_range hk]
    constructor
    · rintro ⟨relativeSeq, hentry, hrange⟩
      obtain ⟨rfl, rfl, rfl⟩ := entry.inj hentry
      exact ⟨rfl, rfl, hrange⟩
    · rintro ⟨rfl, rfl, hrange⟩
      exact ⟨_, rfl, hrange⟩
  · show BytesRange.contains _ (listing k.segmentId k.key).serialize = true ↔ _
    rw [contains_listing_scanRange]
    simp
  · obtain ⟨relativeSeq, rfl, -⟩ := contains_entry_scanRange.mp hk
    rfl
  · obtain ⟨id, key, rfl, -⟩ := contains_listing_scanRange.mp hk
    rfl

/-- The records that a scan of one segment reads are the records of the stored entries in its
range. -/
theorem mem_scanEntries (htyped : Typed storage) {r}
    (hr : r ∈ (scanEntries storage segment key start stop).inner) :
    ∃ e : LogEntry, e.record segment = r := by
  obtain ⟨hstored, hrange⟩ := Storage.mem_scan.mp hr
  obtain ⟨k, hk⟩ := htyped _ _ hstored
  rw [hk] at hrange
  obtain ⟨relativeSeq, rfl, -, hlt⟩ := entry_range.mp hrange
  refine ⟨⟨key, relativeSeq + segment.segmentMeta.startSeq, r.value⟩, ?_⟩
  simp only [record, LogEntryKey.serialize, UInt64.add_sub_cancel]
  cases r
  simp_all [serialize]

theorem record_mem_scanEntries (hstop : segment.segmentMeta.startSeq < stop) {e} :
    e.record segment ∈ (scanEntries storage segment key start stop).inner ↔
      InRange key start stop e ∧ StoredIn storage segment e := by
  have hle := UInt64.le_of_lt hstop
  have hkey : (e.record segment).key = (entry segment.id e.key
      (e.sequence - segment.segmentMeta.startSeq)).serialize := rfl
  rw [scanEntries, Storage.mem_scan, LogEntryKey.buildScanKey, LogEntryKey.buildScanKey, if_pos hle,
    hkey, entry_range]
  constructor
  · rintro ⟨hstored, relativeSeq, hentry, hlower, hupper⟩
    obtain ⟨-, rfl, rfl⟩ := entry.inj hentry
    -- A relative sequence below the end of the range did not wrap.
    have hstarted : segment.segmentMeta.startSeq ≤ e.sequence := by
      rw [UInt64.lt_iff_toNat_lt, UInt64.toNat_sub_of_le _ _ hle, UInt64.toNat_sub] at hupper
      have h1 := e.sequence.toNat_lt
      have h2 := stop.toNat_lt
      have h3 := UInt64.le_iff_toNat_le.mp hle
      rw [UInt64.le_iff_toNat_le]
      omega
    obtain ⟨hstart, hend⟩ := (relative_range hstarted).mp ⟨hlower, by rwa [if_pos hle]⟩
    exact ⟨⟨rfl, hstart, hend⟩, hstarted, hstored⟩
  · rintro ⟨⟨rfl, hstart, hend⟩, hstarted, hstored⟩
    obtain ⟨hlower, hupper⟩ := (relative_range hstarted).mpr ⟨hstart, hend⟩
    exact ⟨hstored, _, rfl, hlower, by rwa [if_pos hle] at hupper⟩

theorem scanEntries_spec (htyped : Typed storage) (hstop : segment.segmentMeta.startSeq < stop)
    (key : Bytes) (start : UInt64) : ∃ es : List LogEntry,
      (scanEntries storage segment key start stop).inner = es.map (record segment) ∧
      (∀ e, e ∈ es ↔ InRange key start stop e ∧ StoredIn storage segment e) ∧
      es.Pairwise fun e e' => e.sequence < e'.sequence := by
  obtain ⟨es, hes⟩ : (scanEntries storage segment key start stop).inner ∈
      Set.range (List.map (record segment)) := by
    rw [Set.range_list_map]
    exact fun r hr => mem_scanEntries htyped hr
  have hmem : ∀ e, e ∈ es ↔ InRange key start stop e ∧ StoredIn storage segment e := by
    intro e
    rw [← record_mem_scanEntries hstop, ← hes, mem_map_of_injective (record_injective segment)]
  refine ⟨es, hes.symm, hmem, ?_⟩
  -- The storage returns the records in the order of their keys.
  have hordered := Storage.pairwise_scan storage
    (LogEntryKey.buildScanKey segment key start) (LogEntryKey.buildScanKey segment key stop)
  have hscan : storage.scan (LogEntryKey.buildScanKey segment key start)
      (LogEntryKey.buildScanKey segment key stop) = es.map (record segment) := hes.symm
  rw [hscan, pairwise_map] at hordered
  refine hordered.imp_of_mem ?_
  intro e e' he he' hlt
  obtain ⟨hrange, hstarted, -⟩ := (hmem e).mp he
  obtain ⟨hrange', hstarted', -⟩ := (hmem e').mp he'
  simp only [record, LogEntryKey.serialize, entryKey, hrange.key_eq, hrange'.key_eq,
    append_lt_append_left, VarU64.orderedCode.lt_iff, UInt64.lt_iff_toNat_lt,
    UInt64.toNat_sub_of_le _ _ hstarted, UInt64.toNat_sub_of_le _ _ hstarted'] at hlt
  rw [UInt64.lt_iff_toNat_lt]
  omega

/-! ### The iterator -/

theorem nextFrom_records {es : List LogEntry} (h : ∀ e ∈ es, InRange key start stop e) :
    SegmentIterator.nextFrom start stop segment.segmentMeta.startSeq (es.map (record segment))
      = .ok (es.head?, es.tail.map (record segment)) := by
  cases es with
  | nil => rfl
  | cons e =>
    obtain ⟨-, hlower, hupper⟩ := h e mem_cons_self
    have hread : LogEntryKey.deserialize (e.record segment).key segment.segmentMeta.startSeq
        = .ok { segmentId := segment.id, key := e.key, sequence := e.sequence } := by
      show LogEntryKey.deserialize (entryKey _ _ _) _ = _
      rw [LogEntryKey.deserialize_entryKey, UInt64.add_comm, UInt64.sub_add_cancel]
    rw [map_cons, SegmentIterator.nextFrom, hread]
    simp only [UInt64.not_lt.mpr hlower, UInt64.not_le.mpr hupper, if_false]
    rfl

namespace LogIterator

theorem Yields.of_next_eq {it it' : LogIterator} {es} (h : it'.Yields es)
    (heq : it.next = it'.next) : it.Yields es := by
  cases h with
  | done hnext => exact .done (heq.trans hnext)
  | entry hnext hrest => exact .entry (heq.trans hnext) hrest

theorem nextSegment_congr (it : LogIterator) (old : List LogSegment)
    (iter : Option SegmentIterator) (segments : List LogSegment) :
    nextSegment { it with segments := old, currentIter := iter } segments
      = it.nextSegment segments := by
  induction segments with
  | nil => rfl
  | cons segment rest ih => simp only [nextSegment, ih]

variable {rest : List LogSegment} {es es' : List LogEntry}

theorem yields_current (segment : LogSegment) (it : LogIterator)
    (hiter : it.currentIter = some ⟨es.map (record segment), it.start, it.stop,
      segment.segmentMeta.startSeq⟩)
    (hsegments : it.segments.tail = rest) (hes : ∀ e ∈ es, InRange key it.start it.stop e)
    (hrest : Yields { it with segments := rest, currentIter := none } es') :
    it.Yields (es ++ es') := by
  induction es generalizing it with
  | nil =>
    refine hrest.of_next_eq ?_
    simp only [next, hiter, SegmentIterator.next, nextFrom_records hes, hsegments, List.head?_nil]
    exact (nextSegment_congr it rest none rest).symm
  | cons e es ih =>
    have hnext : it.next = .ok (some e, { it with
        currentIter := some ⟨es.map (record segment), it.start, it.stop,
          segment.segmentMeta.startSeq⟩ }) := by
      simp only [next, hiter, SegmentIterator.next, nextFrom_records hes]
      rfl
    refine .entry hnext (ih _ rfl hsegments ?_ hrest)
    exact fun e' he' => hes e' (mem_cons_of_mem _ he')

theorem yields_segment {it : LogIterator}
    (hiter : it.currentIter = none) (hsegments : it.segments = segment :: rest)
    (hscan : (scanEntries it.storage segment it.key it.start it.stop).inner
      = es.map (record segment))
    (hes : ∀ e ∈ es, InRange key it.start it.stop e)
    (hrest : Yields { it with segments := rest, currentIter := none } es') :
    it.Yields (es ++ es') := by
  -- Opening the segment first makes no difference.
  have hopened : Yields { it with
      currentIter := some (scanEntries it.storage segment it.key it.start it.stop) }
      (es ++ es') := by
    refine yields_current segment _ ?_ (congrArg List.tail hsegments) hes hrest
    show some (scanEntries it.storage segment it.key it.start it.stop) = _
    rw [← hscan]
    rfl
  refine hopened.of_next_eq ?_
  simp only [next, hiter, hsegments, nextSegment, tail_cons]
  rw [nextSegment_congr it (segment :: rest) (some _) rest]

end LogIterator

theorem yields_segments (htyped : Typed storage) (hsep : Separated storage)
    (it : LogIterator) (hstorage : it.storage = storage) (segments : List LogSegment)
    (hstored : ∀ a ∈ segments, HasSegment storage a)
    (hstop : ∀ a ∈ segments, a.segmentMeta.startSeq < it.stop)
    (hordered : segments.Pairwise fun a b => a.segmentMeta.startSeq < b.segmentMeta.startSeq) :
    ∃ es, LogIterator.Yields { it with segments, currentIter := none } es ∧
      (∀ e, e ∈ es ↔ InRange it.key it.start it.stop e ∧ ∃ a ∈ segments, StoredIn storage a e) ∧
      es.Pairwise fun e e' => e.sequence < e'.sequence := by
  induction segments with
  | nil => exact ⟨[], .done rfl, by simp, .nil⟩
  | cons segment rest ih =>
    rw [pairwise_cons] at hordered
    obtain ⟨hbefore, hordered⟩ := hordered
    obtain ⟨es', hrest, hmem', hsorted'⟩ := ih (fun a ha => hstored a (mem_cons_of_mem _ ha))
      (fun a ha => hstop a (mem_cons_of_mem _ ha)) hordered
    obtain ⟨es, hscan, hmem, hsorted⟩ := scanEntries_spec htyped
      (hstop segment mem_cons_self) it.key it.start
    have hrange : ∀ e ∈ es, InRange it.key it.start it.stop e := fun e he => ((hmem e).mp he).1
    refine ⟨es ++ es', ?_, ?_, ?_⟩
    · exact LogIterator.yields_segment rfl rfl (hstorage ▸ hscan) hrange hrest
    · intro e
      simp only [mem_append, hmem, hmem', mem_cons, exists_eq_or_imp, and_or_left]
    · refine pairwise_append.mpr ⟨hsorted, hsorted', ?_⟩
      -- The entries of this segment lie before the segments that follow.
      intro e he e' he'
      obtain ⟨-, a, ha, hin⟩ := (hmem' e').mp he'
      have hlt := hsep segment a e (hstored _ mem_cons_self)
        (hstored a (mem_cons_of_mem _ ha)) ((hmem e).mp he).2 (hbefore a ha)
      exact UInt64.lt_of_lt_of_le hlt hin.started

/-! ### The segments of a range -/

theorem getLast?_eq_some_iff_of_sorted {β : Type} {l : List (UInt64 × β)}
    (h : l.Pairwise fun p q => p.1 < q.1) {p} :
    l.getLast? = some p ↔ p ∈ l ∧ ∀ q ∈ l, q.1 ≤ p.1 := by
  induction l using List.reverseRecOn with
  | nil => simp
  | append_singleton front last =>
    obtain ⟨-, -, hbefore⟩ := pairwise_append.mp h
    have hlast : ∀ q ∈ front, q.1 < last.1 := fun q hq => hbefore q hq last (by simp)
    simp only [List.getLast?_concat, Option.some.injEq, mem_append, mem_singleton]
    constructor
    · rintro rfl
      refine ⟨Or.inr rfl, ?_⟩
      rintro q (hq | rfl)
      · exact UInt64.le_of_lt (hlast q hq)
      · exact UInt64.le_refl _
    · rintro ⟨hp | rfl, hmax⟩
      · exact absurd (hlast p hp) (UInt64.not_lt.mpr (hmax last (Or.inr rfl)))
      · rfl

theorem saturatingSucc64_le (hlt : start < stop) (x : UInt64) :
    saturatingSucc64 start ≤ x ↔ start < x := by
  have hmax : start ≠ 0xFFFFFFFFFFFFFFFF := by
    rintro rfl
    have hstop := stop.toNat_lt
    have hlt := UInt64.lt_iff_toNat_lt.mp hlt
    have hvalue : (0xFFFFFFFFFFFFFFFF : UInt64).toNat = 2 ^ 64 - 1 := rfl
    omega
  have hnat : start.toNat ≠ 2 ^ 64 - 1 := fun heq => hmax (UInt64.toNat_inj.mp heq)
  have hone : (1 : UInt64).toNat = 1 := rfl
  have hlimit := start.toNat_lt
  rw [saturatingSucc64, if_neg hmax, UInt64.le_iff_toNat_le, UInt64.lt_iff_toNat_lt,
    UInt64.toNat_add, hone]
  omega

namespace SegmentCache

variable {cache : SegmentCache} {a : LogSegment}

theorem Knows.mem_toList (h : cache.Knows storage) {k} :
    (k, a) ∈ cache.segments.toList ↔ a.segmentMeta.startSeq = k ∧ HasSegment storage a := by
  rw [Std.TreeMap.mem_toList_iff_getElem?_eq_some, h k a]

theorem pairwise_toList (cache : SegmentCache) :
    cache.segments.toList.Pairwise fun p q => p.1 < q.1 :=
  Std.TreeMap.ordered_keys_toList.imp fun h => Std.compare_eq_lt.mp h

/-- The segments that a scan visits: the last one that starts at or before the range, and the ones
that start within the range. -/
theorem Knows.mem_findCovering (h : cache.Knows storage) (hlt : start < stop) :
    a ∈ cache.findCovering start stop ↔ HasSegment storage a ∧ a.segmentMeta.startSeq < stop ∧
      ∀ b, HasSegment storage b → b.segmentMeta.startSeq ≤ start →
        b.segmentMeta.startSeq ≤ a.segmentMeta.startSeq := by
  have hsorted := (pairwise_toList cache).filter fun p => p.1 ≤ start
  have hstart := saturatingSucc64_le hlt
  simp only [findCovering, UInt64.not_le.mpr hlt, if_false, mem_map, mem_append,
    Option.mem_toList, getLast?_eq_some_iff_of_sorted hsorted, mem_filter,
    decide_eq_true_eq, Bool.and_eq_true, hstart, Prod.exists, exists_eq_right, h.mem_toList]
  constructor
  · rintro ⟨k, ⟨⟨⟨rfl, ha⟩, hle⟩, hmax⟩ | ⟨⟨rfl, ha⟩, hafter, hbefore⟩⟩
    · refine ⟨ha, UInt64.lt_of_le_of_lt hle hlt, ?_⟩
      intro b hb hbstart
      exact hmax (b.segmentMeta.startSeq, b) ⟨⟨rfl, hb⟩, hbstart⟩
    · refine ⟨ha, hbefore, ?_⟩
      exact fun b _ hbstart => UInt64.le_of_lt (UInt64.lt_of_le_of_lt hbstart hafter)
  · rintro ⟨ha, hbefore, hmax⟩
    refine ⟨a.segmentMeta.startSeq, ?_⟩
    rcases UInt64.lt_or_le start a.segmentMeta.startSeq with hafter | hle
    · exact Or.inr ⟨⟨rfl, ha⟩, hafter, hbefore⟩
    · refine Or.inl ⟨⟨⟨rfl, ha⟩, hle⟩, ?_⟩
      rintro ⟨k, b⟩ ⟨⟨hk, hb⟩, hbstart⟩
      have hk : b.segmentMeta.startSeq = k := hk
      subst hk
      exact hmax b hb hbstart

theorem Knows.pairwise_findCovering (h : cache.Knows storage) (start stop : UInt64) :
    (cache.findCovering start stop).Pairwise
      fun a b => a.segmentMeta.startSeq < b.segmentMeta.startSeq := by
  have hsorted := (pairwise_toList cache).filter fun p => p.1 ≤ start
  unfold findCovering
  split
  next => exact .nil
  next hlt =>
    have hstart := saturatingSucc64_le (UInt64.not_le.mp hlt)
    rw [pairwise_map]
    -- The keys of the cache are the starts of the segments.
    have hkeys : ∀ p ∈ (cache.segments.toList.filter fun p => p.1 ≤ start).getLast?.toList ++
        (cache.segments.toList.filter fun p => saturatingSucc64 start ≤ p.1 && p.1 < stop),
        p.2.segmentMeta.startSeq = p.1 := by
      intro p hp
      refine (h.mem_toList.mp ?_).1
      rw [mem_append, Option.mem_toList, getLast?_eq_some_iff_of_sorted hsorted,
        mem_filter, mem_filter] at hp
      rcases hp with ⟨⟨hmem, -⟩, -⟩ | ⟨hmem, -⟩ <;> exact hmem
    have hpairs : ((cache.segments.toList.filter fun p => p.1 ≤ start).getLast?.toList ++
        (cache.segments.toList.filter fun p => saturatingSucc64 start ≤ p.1 && p.1 < stop)).Pairwise
        fun p q => p.1 < q.1 := by
      refine pairwise_append.mpr ⟨?_, (pairwise_toList cache).filter _, ?_⟩
      · cases (cache.segments.toList.filter fun p => p.1 ≤ start).getLast? <;> simp
      · intro p hp q hq
        rw [Option.mem_toList, getLast?_eq_some_iff_of_sorted hsorted, mem_filter] at hp
        rw [mem_filter, Bool.and_eq_true, decide_eq_true_eq, hstart] at hq
        exact UInt64.lt_of_le_of_lt (of_decide_eq_true hp.1.2) hq.2.1
    refine hpairs.imp_of_mem ?_
    intro p q hp hq hlt
    rw [hkeys p hp, hkeys q hq]
    exact hlt

end SegmentCache

/-! ### The whole scan -/

/-- A scan with a cache that knows the stored segments yields the stored entries of the key and the
range, each once, in the order of their sequences. -/
theorem LogIterator.openRange_spec {block} (hlayout : Layout storage block)
    (hsep : Separated storage) {cache} (hknows : cache.Knows storage) (key : Bytes)
    (start stop : UInt64) : ∃ es, (LogIterator.openRange storage cache key start stop).Yields es ∧
      (∀ e, e ∈ es ↔ InRange key start stop e ∧ Stored storage e) ∧
      es.Pairwise fun e e' => e.sequence < e'.sequence := by
  rcases UInt64.lt_or_le start stop with hlt | hle
  · have hcovering := fun a => hknows.mem_findCovering hlt (a := a)
    obtain ⟨es, hyields, hmem, hsorted⟩ := yields_segments hlayout.typed hsep
      (LogIterator.openRange storage cache key start stop) rfl (cache.findCovering start stop)
      (fun a ha => ((hcovering a).mp ha).1) (fun a ha => ((hcovering a).mp ha).2.1)
      (hknows.pairwise_findCovering start stop)
    refine ⟨es, hyields, ?_, hsorted⟩
    intro e
    rw [hmem]
    refine and_congr_right fun hrange => ⟨?_, ?_⟩
    · rintro ⟨a, ha, hin⟩
      exact ⟨a, ((hcovering a).mp ha).1, hin⟩
    · rintro ⟨a, ha, hin⟩
      refine ⟨a, (hcovering a).mpr ⟨ha, UInt64.lt_of_le_of_lt hin.started hrange.upper, ?_⟩, hin⟩
      -- A later segment at or before the range would start behind the entry.
      intro b hb hbstart
      refine UInt64.not_lt.mp fun hbefore => ?_
      have hafter := hsep a b e ha hb hin hbefore
      exact UInt64.lt_irrefl _ (UInt64.lt_of_le_of_lt (UInt64.le_trans hbstart hrange.lower) hafter)
  · -- The range is empty.
    have hnext : (LogIterator.openRange storage cache key start stop).next
        = .ok (none, LogIterator.openRange storage cache key start stop) := by
      simp only [LogIterator.next, LogIterator.openRange, SegmentCache.findCovering, hle, if_true]
      rfl
    refine ⟨[], .done hnext, ?_, .nil⟩
    · intro e
      simp only [not_mem_nil, false_iff]
      rintro ⟨hrange, -⟩
      exact UInt64.lt_irrefl _
        (UInt64.lt_of_lt_of_le (UInt64.lt_of_le_of_lt hrange.lower hrange.upper) hle)

/-! ### Keys -/

theorem foldlM_listings {records : List Record} (keys : Std.TreeSet Bytes)
    (h : ∀ r ∈ records, ∃ id key, r.key = (ListingEntryKey.mk id key).serialize) :
    ∃ keys', records.foldlM (fun keys record => do
        let entryKey ← ListingEntryKey.deserialize record.key
        pure (keys.insert entryKey.key)) keys = (.ok keys' : Except Error _) ∧
      ∀ key, key ∈ keys' ↔ key ∈ keys ∨
        ∃ r ∈ records, ∃ id, r.key = (ListingEntryKey.mk id key).serialize := by
  induction records generalizing keys with
  | nil => exact ⟨keys, rfl, by simp⟩
  | cons r records ih =>
    obtain ⟨id, key, hkey⟩ := h r mem_cons_self
    obtain ⟨keys', hfold, hmem⟩ := ih (keys.insert key) fun r' hr' => h r' (mem_cons_of_mem _ hr')
    refine ⟨keys', ?_, ?_⟩
    · rw [foldlM_cons, hkey, ListingEntryKey.deserialize_serialize]
      exact hfold
    · intro key'
      have hsame : (∃ id', r.key = (ListingEntryKey.mk id' key').serialize) ↔ key = key' := by
        constructor
        · rintro ⟨id', hkey'⟩
          have heq : listing id key = .listing id' key' := serialize_inj.mp (hkey.symm.trans hkey')
          exact (listing.inj heq).2
        · rintro rfl
          exact ⟨id, hkey⟩
      simp only [hmem, Std.TreeSet.mem_insert, Std.compare_eq_iff_eq, mem_cons,
        exists_eq_or_imp, hsame, or_assoc, or_left_comm]

theorem listKeys_spec (htyped : Typed storage) (start stop : UInt32) :
    ∃ keys, listKeys storage start stop = .ok keys ∧
      ∀ key, key ∈ keys ↔ ∃ id, start ≤ id ∧ id < stop ∧
        (ListingEntryKey.mk id key).serialize ∈ storage := by
  unfold listKeys
  split
  next hle =>
    refine ⟨∅, rfl, ?_⟩
    intro key
    simp only [Std.TreeSet.not_mem_emptyc, false_iff]
    rintro ⟨id, hlower, hupper, -⟩
    exact UInt32.lt_irrefl _ (UInt32.lt_of_lt_of_le (UInt32.lt_of_le_of_lt hlower hupper) hle)
  next =>
    -- The records in the range are listings.
    have hkind : ∀ r ∈ storage.scan (ListingEntryKey.segmentPrefix start)
        (ListingEntryKey.segmentPrefix stop), ∃ id key,
        r.key = (ListingEntryKey.mk id key).serialize := by
      intro r hr
      obtain ⟨hstored, hrange⟩ := Storage.mem_scan.mp hr
      obtain ⟨k, hk⟩ := htyped _ _ hstored
      rw [hk] at hrange
      obtain ⟨id, key, rfl, -⟩ := listing_range.mp hrange
      exact ⟨id, key, hk⟩
    obtain ⟨keys, hfold, hmem⟩ := foldlM_listings ∅ hkind
    refine ⟨keys, hfold, ?_⟩
    intro key
    simp only [hmem, Std.TreeSet.not_mem_emptyc, false_or]
    constructor
    · rintro ⟨r, hr, id, hkey⟩
      obtain ⟨hstored, hrange⟩ := Storage.mem_scan.mp hr
      rw [hkey] at hrange hstored
      obtain ⟨id', key', heq, hlower, hupper⟩ := (listing_range (k := .listing id key)).mp hrange
      obtain ⟨rfl, rfl⟩ := listing.inj heq
      exact ⟨id, hlower, hupper, Storage.mem_of_getElem? hstored⟩
    · rintro ⟨id, hlower, hupper, hmem⟩
      obtain ⟨v, hv⟩ := Option.isSome_iff_exists.mp (Std.TreeMap.mem_iff_isSome_getElem?.mp hmem)
      refine ⟨⟨_, v⟩, Storage.mem_scan.mpr ⟨hv, ?_⟩, id, rfl⟩
      exact (listing_range (k := .listing id key)).mpr ⟨id, key, rfl, hlower, hupper⟩

end OpenData.Log

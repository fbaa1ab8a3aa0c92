import OpenData.Proofs.Log.Serde

/-!
# What the caches of the writer know

`SegmentCache.Knows` says that a cache holds exactly the segments whose metadata is stored. A cache
that is loaded from the storage has this property (`SegmentCache.openStorage_spec`), and the latest
segment is then the stored one with the highest start (`SegmentCache.Knows.latest_some`).
-/

namespace OpenData.Log

open Lib Common List

/-! ### Segments -/

namespace SegmentCache

def Knows (cache : SegmentCache) (storage : Storage) : Prop :=
  ∀ start segment, cache.segments[start]? = some segment ↔
    segment.segmentMeta.startSeq = start ∧ HasSegment storage segment

variable {cache : SegmentCache} {storage : Storage} {segment : LogSegment} {start : UInt64}

theorem getElem?_insert : (cache.insert segment).segments[start]? =
      if segment.segmentMeta.startSeq = start then some segment else cache.segments[start]? := by
  rw [insert, Std.TreeMap.getElem?_insert]
  simp only [Std.compare_eq_iff_eq]

theorem getElem?_foldl_insert {loaded : List LogSegment} (hinj : ∀ a ∈ loaded, ∀ b ∈ loaded,
      a.segmentMeta.startSeq = b.segmentMeta.startSeq → a = b) :
    (loaded.foldl insert cache).segments[start]? = some segment ↔
      (segment ∈ loaded ∧ segment.segmentMeta.startSeq = start) ∨
      (cache.segments[start]? = some segment ∧ ∀ a ∈ loaded, a.segmentMeta.startSeq ≠ start) := by
  induction loaded generalizing cache with
  | nil => simp
  | cons a loaded ih =>
    have hrest : ∀ b ∈ loaded, ∀ c ∈ loaded,
        b.segmentMeta.startSeq = c.segmentMeta.startSeq → b = c :=
      fun b hb c hc => hinj b (mem_cons_of_mem _ hb) c (mem_cons_of_mem _ hc)
    rw [foldl_cons, ih hrest, getElem?_insert]
    by_cases ha : a.segmentMeta.startSeq = start
    · -- The first segment is found, unless it comes again.
      simp only [ha, if_true, Option.some.injEq, mem_cons, forall_eq_or_imp, ne_eq,
        not_true_eq_false, false_and, and_false, or_false]
      constructor
      · rintro (⟨hmem, hstart⟩ | ⟨rfl, -⟩)
        · exact ⟨Or.inr hmem, hstart⟩
        · exact ⟨Or.inl rfl, ha⟩
      · rintro ⟨rfl | hmem, hstart⟩
        · by_cases hagain : ∃ b ∈ loaded, b.segmentMeta.startSeq = start
          · obtain ⟨b, hb, hbstart⟩ := hagain
            have hbs : b = segment := hinj b (mem_cons_of_mem _ hb) segment
              mem_cons_self (hbstart.trans hstart.symm)
            exact Or.inl ⟨hbs ▸ hb, hstart⟩
          · exact Or.inr ⟨rfl, fun b hb hbstart => hagain ⟨b, hb, hbstart⟩⟩
        · exact Or.inl ⟨hmem, hstart⟩
    · simp only [ha, if_false, mem_cons, forall_eq_or_imp, ne_eq, not_false_eq_true, true_and]
      constructor
      · rintro (⟨hmem, hstart⟩ | hold)
        · exact Or.inl ⟨Or.inr hmem, hstart⟩
        · exact Or.inr hold
      · rintro (⟨rfl | hmem, hstart⟩ | hold)
        · exact absurd hstart ha
        · exact Or.inl ⟨hmem, hstart⟩
        · exact Or.inr hold

theorem openStorage_spec (htyped : Typed storage) (hdecode : SegmentsDecode storage)
    (hid : ∀ a, HasSegment storage a → a.id < 0xFFFFFFFF)
    (hinj : ∀ a b, HasSegment storage a → HasSegment storage b →
      a.segmentMeta.startSeq = b.segmentMeta.startSeq → a = b) (config : SegmentConfig) :
    ∃ cache, openStorage storage config = .ok cache ∧ cache.Knows storage := by
  obtain ⟨loaded, hload, hmem⟩ := scanSegments_spec htyped hdecode 0 0xFFFFFFFF
  have hloaded : ∀ a, a ∈ loaded ↔ HasSegment storage a := by
    intro a
    rw [hmem]
    exact ⟨fun h => h.1, fun h => ⟨h, UInt32.zero_le, hid a h⟩⟩
  refine ⟨loaded.foldl insert { segments := ∅, config }, ?_, ?_⟩
  · rw [openStorage, hload]
    rfl
  · intro start segment
    rw [getElem?_foldl_insert fun a ha b hb => hinj a b ((hloaded a).mp ha) ((hloaded b).mp hb)]
    simp [hloaded, and_comm]

theorem Knows.latest_none (h : cache.Knows storage) (hlatest : cache.latest = none)
    (segment : LogSegment) : ¬ HasSegment storage segment := by
  intro hsegment
  have hcached := (h segment.segmentMeta.startSeq segment).mpr ⟨rfl, hsegment⟩
  rw [← Std.TreeMap.mem_toList_iff_getElem?_eq_some] at hcached
  have hnil : cache.segments.toList = [] := by simpa [latest] using hlatest
  simp [hnil] at hcached

theorem Knows.latest_some (h : cache.Knows storage) (hlatest : cache.latest = some segment) :
    HasSegment storage segment ∧ ∀ a, HasSegment storage a →
      a.segmentMeta.startSeq ≤ segment.segmentMeta.startSeq := by
  obtain ⟨⟨start, seg⟩, hlast, rfl⟩ := Option.map_eq_some_iff.mp hlatest
  obtain ⟨front, hfront⟩ := getLast?_eq_some_iff.mp hlast
  have hmem : (start, seg) ∈ cache.segments.toList := by simp [hfront]
  obtain ⟨rfl, hstored⟩ := (h start seg).mp (Std.TreeMap.mem_toList_iff_getElem?_eq_some.mp hmem)
  refine ⟨hstored, fun a ha => ?_⟩
  -- Every other segment stands before the last one in the order of the starts.
  have hcached := (h a.segmentMeta.startSeq a).mpr ⟨rfl, ha⟩
  rw [← Std.TreeMap.mem_toList_iff_getElem?_eq_some, hfront, mem_append, mem_singleton] at hcached
  rcases hcached with hbefore | heq
  · have hordered := Std.TreeMap.ordered_keys_toList (t := cache.segments)
    rw [hfront, pairwise_append] at hordered
    have hlt := hordered.2.2 _ hbefore _ (mem_singleton_self _)
    exact UInt64.le_of_lt (Std.compare_eq_lt.mp hlt)
  · rw [(Prod.mk.inj heq).1]
    exact UInt64.le_refl _

end SegmentCache

/-! ### Listings -/

namespace ListingCache

/-- The known keys after an assignment: the ones before and the fresh ones. Every key of the batch
is among them, and the fresh ones are keys of the batch. -/
theorem newKeys_spec (known : Std.TreeSet Bytes) (keys : List Bytes) :
    (∀ k, k ∈ (newKeys known keys).2 ↔ k ∈ (newKeys known keys).1 ∨ k ∈ known) ∧
      (∀ k ∈ keys, k ∈ (newKeys known keys).2) ∧ ∀ k ∈ (newKeys known keys).1, k ∈ keys := by
  induction keys generalizing known with
  | nil => simp [newKeys]
  | cons key keys ih =>
    unfold newKeys
    by_cases hknown : known.contains key = true
    · rw [if_pos hknown]
      obtain ⟨hiff, hall, hfresh⟩ := ih known
      refine ⟨hiff, ?_, fun k hk => mem_cons_of_mem _ (hfresh k hk)⟩
      intro k hk
      rcases mem_cons.mp hk with rfl | hk
      · exact (hiff k).mpr (Or.inr (Std.TreeSet.contains_iff_mem.mp hknown))
      · exact hall k hk
    · rw [if_neg hknown]
      obtain ⟨hiff, hall, hfresh⟩ := ih (known.insert key)
      simp only [Std.TreeSet.mem_insert, Std.compare_eq_iff_eq] at hiff
      refine ⟨?_, ?_, ?_⟩
      · intro k
        show k ∈ (newKeys (known.insert key) keys).2 ↔
          k ∈ key :: (newKeys (known.insert key) keys).1 ∨ k ∈ known
        rw [hiff, mem_cons, or_assoc, eq_comm]
        exact or_left_comm
      · intro k hk
        rcases mem_cons.mp hk with rfl | hk
        · exact (hiff k).mpr (Or.inr (Or.inl rfl))
        · exact hall k hk
      · intro k hk
        rcases mem_cons.mp hk with rfl | hk
        · exact mem_cons_self
        · exact mem_cons_of_mem _ (hfresh k hk)

end ListingCache

end OpenData.Log

import OpenData.Log.Db
import OpenData.Proofs.Log.Contents

/-!
# What the views of a writer hold

Every append that succeeds shows a view under a new epoch. `Views log w views flushed` relates the
views that the running writer has shown to the storage and to the history of appends.
-/

namespace OpenData.Log

open Lib Common List
open OpenData.Sequence (SeqBlock SequenceAllocator)

/-! ### The last segment -/

/-- The id is that of the last stored segment. -/
structure LastSegment (storage : Storage) (last : Option UInt32) : Prop where
  stored : ∀ id ∈ last, ∃ a, HasSegment storage a ∧ a.id = id
  bound : ∀ a, HasSegment storage a → ∃ id ∈ last, a.id ≤ id

def SegmentsUpTo (storage snapshot : Storage) (last : Option UInt32) : Prop :=
  ∀ a, HasSegment snapshot a ↔ HasSegment storage a ∧ ∃ id ∈ last, a.id ≤ id

/-- Segments stay, and new ones have greater ids. -/
structure Grows (storage storage' : Storage) : Prop where
  keeps : ∀ a, HasSegment storage a → HasSegment storage' a
  adds : ∀ a, HasSegment storage' a →
    HasSegment storage a ∨ ∀ b, HasSegment storage b → b.id < a.id

def LastLe (last last' : Option UInt32) : Prop := ∀ id ∈ last, ∃ id' ∈ last', id ≤ id'

section
variable {storage storage' snapshot snapshot' : Storage} {last last' : Option UInt32}

theorem Grows.refl (storage : Storage) : Grows storage storage :=
  ⟨fun _ ha => ha, fun _ ha => Or.inl ha⟩

theorem LastLe.refl (last : Option UInt32) : LastLe last last :=
  fun id hid => ⟨id, hid, UInt32.le_refl id⟩

theorem LastSegment.segmentsUpTo (h : LastSegment storage last) :
    SegmentsUpTo storage storage last :=
  fun a => ⟨fun ha => ⟨ha, h.bound a ha⟩, fun ha => ha.1⟩

section

variable (h : SegmentsUpTo storage snapshot last)
include h

theorem SegmentsUpTo.grow (hlast : ∀ id ∈ last, ∃ a, HasSegment storage a ∧ a.id = id)
    (hgrows : Grows storage storage') : SegmentsUpTo storage' snapshot last := by
  intro a
  rw [h a]
  constructor
  · intro ⟨ha, hid⟩
    exact ⟨hgrows.keeps a ha, hid⟩
  · intro ⟨ha, id, hid, hle⟩
    refine ⟨?_, id, hid, hle⟩
    rcases hgrows.adds a ha with ha | hnew
    · exact ha
    · -- A new segment would lie behind the last one.
      obtain ⟨b, hb, rfl⟩ := hlast id hid
      exact absurd (hnew b hb) (UInt32.not_lt.mpr hle)

theorem SegmentsUpTo.hasSegment_iff (h' : SegmentsUpTo storage snapshot' last) (a : LogSegment) :
    HasSegment snapshot a ↔ HasSegment snapshot' a := by
  rw [h a, h' a]

theorem SegmentsUpTo.later
    (h' : SegmentsUpTo storage snapshot' last') (hle : LastLe last last') (a : LogSegment) :
    HasSegment snapshot' a ↔
      HasSegment snapshot a ∨ (HasSegment snapshot' a ∧ ∀ id ∈ last, id < a.id) := by
  constructor
  · intro ha
    by_cases hafter : ∀ id ∈ last, id < a.id
    · exact Or.inr ⟨ha, hafter⟩
    · -- Some last segment is not before `a`, so the first snapshot has `a`.
      simp only [not_forall, UInt32.not_lt] at hafter
      obtain ⟨id, hid, hbefore⟩ := hafter
      exact Or.inl ((h a).mpr ⟨((h' a).mp ha).1, id, hid, hbefore⟩)
  · rintro (ha | ⟨ha, -⟩)
    · obtain ⟨hstored, id, hid, hbefore⟩ := (h a).mp ha
      obtain ⟨id', hid', hmono⟩ := hle id hid
      exact (h' a).mpr ⟨hstored, id', hid', UInt32.le_trans hbefore hmono⟩
    · exact ha

end

end

/-! ### Loading new segments -/

variable {cache : SegmentCache} {block : Option SeqBlock}

section
variable {storage snapshot snapshot' : Storage} {last last' : Option UInt32}

theorem saturatingSucc32_le {id} (hid : id < 0xFFFFFFFF) (x : UInt32) :
    saturatingSucc32 id ≤ x ↔ id < x := by
  have hlt := UInt32.lt_iff_toNat_lt.mp hid
  have hmax : (0xFFFFFFFF : UInt32).toNat = 2 ^ 32 - 1 := rfl
  have hone : (1 : UInt32).toNat = 1 := rfl
  rw [saturatingSucc32, if_neg (UInt32.ne_of_lt hid), UInt32.le_iff_toNat_le,
    UInt32.lt_iff_toNat_lt, UInt32.toNat_add, hone]
  omega

theorem SegmentCache.Knows.refresh (hknows : cache.Knows snapshot)
    (hlayout : Layout snapshot' block) (h : SegmentsUpTo storage snapshot last)
    (h' : SegmentsUpTo storage snapshot' last') (hle : LastLe last last')
    (hids : ∀ id ∈ last, id < 0xFFFFFFFF) :
    ∃ cache', cache.refresh snapshot' last = .ok cache' ∧ cache'.Knows snapshot' := by
  cases last with
  | none => exact hlayout.openStorage cache.config
  | some id =>
    obtain ⟨loaded, hload, hmem⟩ := scanSegments_spec hlayout.typed hlayout.decode
      (saturatingSucc32 id) 0xFFFFFFFF
    -- What is loaded are the segments behind `id`.
    have hloaded : ∀ a, a ∈ loaded ↔ HasSegment snapshot' a ∧ id < a.id := by
      intro a
      rw [hmem, saturatingSucc32_le (hids id rfl)]
      exact ⟨fun ha => ⟨ha.1, ha.2.1⟩, fun ha => ⟨ha.1, ha.2, hlayout.ids a ha.1⟩⟩
    have hstarts : ∀ a ∈ loaded, ∀ b ∈ loaded,
        a.segmentMeta.startSeq = b.segmentMeta.startSeq → a = b :=
      fun a ha b hb => hlayout.eq_of_start ((hloaded a).mp ha).1 ((hloaded b).mp hb).1
    refine ⟨loaded.foldl SegmentCache.insert cache, ?_, ?_⟩
    · show (scanSegments snapshot' _ _ >>= _) = _
      rw [hload]
      rfl
    · intro start a
      have hlater : HasSegment snapshot' a ↔
          HasSegment snapshot a ∨ (HasSegment snapshot' a ∧ id < a.id) := by
        simpa using h.later h' hle a
      rw [SegmentCache.getElem?_foldl_insert hstarts, hknows, hloaded]
      constructor
      · rintro (⟨hnew, hstart⟩ | ⟨⟨hstart, hold⟩, -⟩)
        · exact ⟨hstart, hnew.1⟩
        · exact ⟨hstart, hlater.mpr (Or.inl hold)⟩
      · intro ⟨hstart, ha⟩
        rcases hlater.mp ha with hold | hnew
        · by_cases hagain : ∃ b ∈ loaded, b.segmentMeta.startSeq = start
          · -- A loaded segment with the same start is the same segment.
            obtain ⟨b, hb, hbstart⟩ := hagain
            obtain rfl : b = a := hlayout.eq_of_start ((hloaded b).mp hb).1 ha
              (hbstart.trans hstart.symm)
            exact Or.inl ⟨(hloaded b).mp hb, hstart⟩
          · exact Or.inr ⟨⟨hstart, hold⟩, fun b hb hbstart => hagain ⟨b, hb, hbstart⟩⟩
        · exact Or.inl ⟨hnew, hstart⟩

end

/-! ### Segments and appends -/

section
variable {storage : Storage} {block block' : Option SeqBlock} {last : Option UInt32}
  {w : LogWriter} {write : LogWrite} {p : Prepared} {metadata : List Record}

theorem Layout.id_le (hlayout : Layout storage block) {a b}
    (ha : HasSegment storage a) (hb : HasSegment storage b)
    (hstart : a.segmentMeta.startSeq ≤ b.segmentMeta.startSeq) : a.id ≤ b.id := by
  apply UInt32.not_lt.mp
  intro hlt
  exact absurd (hlayout.ordered b a hb ha hlt) (UInt64.not_lt.mpr hstart)

theorem SegmentCache.Knows.lastSegment (hlayout : Layout storage block)
    (hknows : cache.Knows storage) : LastSegment storage (cache.latest.map fun s => s.id) := by
  cases hlatest : cache.latest with
  | none => exact ⟨by simp, fun a ha => absurd ha (hknows.latest_none hlatest a)⟩
  | some latest =>
    obtain ⟨hstored, hmax⟩ := hknows.latest_some hlatest
    refine ⟨?_, fun a ha => ⟨latest.id, rfl, hlayout.id_le ha hstored (hmax a ha)⟩⟩
    intro id hid
    exact ⟨latest, hstored, Option.some.inj hid⟩

section

variable (hspec : PreparedSpec storage block w write p block' metadata)
  (hstep : InStep storage block w)
include hspec hstep

theorem PreparedSpec.id_lt (hnew : p.assignment.isNew = true) {a}
    (ha : HasSegment storage a) : a.id < p.assignment.segment.id := by
  have hbefore : a.segmentMeta.startSeq < p.assignment.segment.segmentMeta.startSeq := by
    rw [hspec.fresh hnew, hspec.base_eq, UInt64.lt_iff_toNat_lt]
    exact hstep.before a ha
  have ha' := (hspec.segments a).mpr (Or.inl ha)
  have hle := hspec.layout.id_le ha' hspec.stored (UInt64.le_of_lt hbefore)
  refine UInt32.lt_of_le_of_ne hle fun heq => ?_
  obtain rfl := ha'.eq_of_id hspec.stored heq
  exact UInt64.lt_irrefl _ hbefore

theorem PreparedSpec.grows : Grows storage (storage.put p.records) where
  keeps := fun a ha => (hspec.hasSegment a).mpr (Or.inl ha)
  adds := by
    intro a ha
    rcases (hspec.hasSegment a).mp ha with ha | ⟨hnew, rfl⟩
    · exact Or.inl ha
    · exact Or.inr fun b hb => hspec.id_lt hstep hnew hb

end

theorem PreparedSpec.lastSegment (hspec : PreparedSpec storage block w write p block' metadata)
    (hstep : InStep storage block w) (hlast : LastSegment storage last) :
    LastSegment (storage.put p.records)
      (if p.assignment.isNew then some p.assignment.segment.id else last) := by
  cases hnew : p.assignment.isNew with
  | false =>
    have hsame : ∀ a, HasSegment (storage.put p.records) a ↔ HasSegment storage a := by
      intro a
      simp [hspec.hasSegment, hnew]
    refine ⟨?_, fun a ha => hlast.bound a ((hsame a).mp ha)⟩
    intro id hid
    obtain ⟨a, ha, heq⟩ := hlast.stored id hid
    exact ⟨a, (hsame a).mpr ha, heq⟩
  | true =>
    refine ⟨?_, ?_⟩
    · intro id hid
      exact ⟨_, (hspec.hasSegment _).mpr (Or.inr ⟨hnew, rfl⟩), Option.some.inj hid⟩
    · intro a ha
      refine ⟨_, rfl, ?_⟩
      rcases (hspec.hasSegment a).mp ha with ha | ⟨-, rfl⟩
      · exact UInt32.le_of_lt (hspec.id_lt hstep hnew ha)
      · exact UInt32.le_refl _

end

/-! ### The views of a writer -/

/-- The view `v` was shown after `n` appends. -/
structure Holds (log : State) (v : WrittenView) (n : Nat) : Prop where
  le : n ≤ log.appends.length
  contents : Contents v.snapshot (log.appends.take n)
  layout : ∃ block, Layout v.snapshot block
  segments : SegmentsUpTo log.storage v.snapshot v.lastSegmentId
  last : ∀ id ∈ v.lastSegmentId, ∃ a, HasSegment log.storage a ∧ a.id = id

def AckedWithin (appends : List Append) (limit n : Nat) : Prop :=
  ∀ i < limit, ∀ a, appends[i]? = some a → a.acknowledged = true → i < n

/-- The written views are snapshots of the past, in order, and the durable one is flushed. -/
structure Views (log : State) (w : LogWriter) (views : List (WrittenView × Nat)) (flushed : Nat) :
    Prop where
  length_eq : views.length = w.epoch + 1
  epochs : ∀ (e : Nat) (v : WrittenView) (n : Nat), views[e]? = some (v, n) → v.epoch = e
  holds : ∀ p ∈ views, Holds log p.1 p.2
  ordered : views.Pairwise fun p q =>
    p.2 ≤ q.2 ∧ LastLe p.1.lastSegmentId q.1.lastSegmentId
  written : ∃ n, views[w.epoch]? = some (w.written, n) ∧
    AckedWithin log.appends log.appends.length n
  watermark : w.watermarks.written = w.epoch
  last_eq : w.written.lastSegmentId = w.lastSegmentId
  last : LastSegment log.storage w.lastSegmentId
  durable : ∃ v n, views[w.watermarks.durable]? = some (v, n) ∧
    AckedWithin log.appends flushed n
  flushed_le : flushed ≤ log.appends.length

/-- The two writers have shown the same to readers. -/
structure SameView (w w' : LogWriter) : Prop where
  epoch : w'.epoch = w.epoch
  written : w'.written = w.written
  watermarks : w'.watermarks = w.watermarks
  last : w'.lastSegmentId = w.lastSegmentId

variable {as : List Append} {n : Nat}

variable {log log' : State} {w w' : LogWriter} {views : List (WrittenView × Nat)} {flushed : Nat}
  {v : WrittenView}

theorem Holds.grow (h : Holds log v n)
    (happends : log'.appends = log.appends ++ as) (hgrows : Grows log.storage log'.storage) :
    Holds log' v n where
  le := by
    rw [happends, length_append]
    exact Nat.le_add_right_of_le h.le
  contents := by
    rw [happends, take_append_of_le_length h.le]
    exact h.contents
  layout := h.layout
  segments := h.segments.grow h.last hgrows
  last := by
    intro id hid
    obtain ⟨a, ha, heq⟩ := h.last id hid
    exact ⟨a, hgrows.keeps a ha, heq⟩

variable {appends : List Append}

theorem AckedWithin.append {limit} (h : AckedWithin appends limit n)
    (hle : limit ≤ appends.length) : AckedWithin (appends ++ as) limit n := by
  intro i hi a ha
  rw [getElem?_append_left (Nat.lt_of_lt_of_le hi hle)] at ha
  exact h i hi a ha

theorem AckedWithin.append_unacknowledged
    (h : AckedWithin appends appends.length n) (has : ∀ a ∈ as, a.acknowledged = false) :
    AckedWithin (appends ++ as) (appends ++ as).length n := by
  intro i _ a ha hacked
  rcases Nat.lt_or_ge i appends.length with hlt | hge
  · rw [getElem?_append_left hlt] at ha
    exact h i hlt a ha hacked
  · rw [getElem?_append_right hge] at ha
    rw [has a (mem_of_getElem? ha)] at hacked
    cases hacked

theorem getElem?_of_isPrefix {α : Type} {l l'} (h : l <+: l') {i : Nat} {x : α}
    (hx : l[i]? = some x) : l'[i]? = some x := by
  obtain ⟨t, rfl⟩ := h
  obtain ⟨hlt, -⟩ := List.getElem?_eq_some_iff.mp hx
  rwa [List.getElem?_append_left hlt]

theorem Holds.id_lt (h : Holds log v n) : ∀ id ∈ v.lastSegmentId, id < 0xFFFFFFFF := by
  intro id hid
  obtain ⟨a, ha, rfl⟩ := h.last id hid
  obtain ⟨block, hlayout⟩ := h.layout
  exact hlayout.ids a ((h.segments a).mpr ⟨ha, a.id, hid, UInt32.le_refl _⟩)

theorem Views.mono (h : Views log w views flushed) {e e' n' : Nat} {v'}
    (hv : views[e]? = some (v, n)) (hv' : views[e']? = some (v', n')) (hle : e ≤ e') :
    n ≤ n' ∧ LastLe v.lastSegmentId v'.lastSegmentId := by
  rcases Nat.eq_or_lt_of_le hle with rfl | hlt
  · obtain ⟨rfl, rfl⟩ := Prod.mk.inj (Option.mem_unique hv hv')
    exact ⟨Nat.le_refl _, LastLe.refl _⟩
  · obtain ⟨hi, hvi⟩ := List.getElem?_eq_some_iff.mp hv
    obtain ⟨hj, hvj⟩ := List.getElem?_eq_some_iff.mp hv'
    have hordered := List.pairwise_iff_getElem.mp h.ordered e e' hi hj hlt
    rwa [hvi, hvj] at hordered

theorem views_new (hlayout : Layout log.storage block)
    (hcontents : Contents log.storage log.appends) (hknows : cache.Knows log.storage)
    (allocator : SequenceAllocator) :
    Views log (LogWriter.new log.storage allocator cache ListingCache.new)
      [((LogWriter.new log.storage allocator cache ListingCache.new).written, log.appends.length)]
      log.appends.length := by
  have hlast := hknows.lastSegment hlayout
  have hacked : AckedWithin log.appends log.appends.length log.appends.length :=
    fun i hi _ _ _ => hi
  exact {
    length_eq := rfl
    epochs := by
      intro e v n he
      cases e with
      | zero =>
        obtain ⟨rfl, -⟩ := Prod.mk.inj (Option.some.inj he)
        rfl
      | succ => simp at he
    holds := by
      intro p hp
      obtain rfl := mem_singleton.mp hp
      refine ⟨Nat.le_refl _, ?_, ⟨block, hlayout⟩, hlast.segmentsUpTo, hlast.stored⟩
      rw [take_length]
      exact hcontents
    ordered := pairwise_singleton _ _
    written := ⟨_, rfl, hacked⟩
    watermark := rfl
    last_eq := rfl
    last := hlast
    durable := ⟨_, _, rfl, hacked⟩
    flushed_le := Nat.le_refl _ }

theorem Views.grow (h : Views log w views flushed) (hview : SameView w w')
    (happends : log'.appends = log.appends ++ as) (has : ∀ a ∈ as, a.acknowledged = false)
    (hgrows : Grows log.storage log'.storage) (hlast : LastSegment log'.storage w.lastSegmentId) :
    Views log' w' views flushed where
  length_eq := hview.epoch ▸ h.length_eq
  __ := h
  holds := fun p hp => (h.holds p hp).grow happends hgrows
  written := by
    obtain ⟨n, hn, hacked⟩ := h.written
    rw [hview.epoch, hview.written, happends]
    exact ⟨n, hn, hacked.append_unacknowledged has⟩
  watermark := by
    rw [hview.watermarks, hview.epoch]
    exact h.watermark
  last_eq := by
    rw [hview.written, hview.last]
    exact h.last_eq
  last := hview.last ▸ hlast
  durable := by
    obtain ⟨v, n, hn, hacked⟩ := h.durable
    rw [hview.watermarks, happends]
    exact ⟨v, n, hn, hacked.append h.flushed_le⟩
  flushed_le := by
    rw [happends, length_append]
    exact Nat.le_add_right_of_le h.flushed_le

theorem Views.append (h : Views log w views flushed) {a : Append}
    (happends : log'.appends = log.appends ++ [a]) (hgrows : Grows log.storage log'.storage)
    (hepoch : w'.epoch = w.epoch + 1) (hwritten : w'.written.epoch = w.epoch + 1)
    (hsnapshot : w'.written.snapshot = log'.storage)
    (hwatermark : w'.watermarks.written = w.epoch + 1)
    (hdurable : w'.watermarks.durable = w.watermarks.durable)
    (hlast_eq : w'.written.lastSegmentId = w'.lastSegmentId)
    (hlast : LastSegment log'.storage w'.lastSegmentId)
    (hcontents : Contents log'.storage log'.appends)
    (hlayout : ∃ block, Layout log'.storage block) :
    Views log' w' (views ++ [(w'.written, log'.appends.length)]) flushed := by
  have hlength := h.length_eq
  have hnew : (views ++ [(w'.written, log'.appends.length)])[w'.epoch]?
      = some (w'.written, log'.appends.length) := by
    rw [hepoch, ← hlength]
    simp
  exact {
    length_eq := by simp [hlength, hepoch]
    epochs := by
      intro e v n he
      rcases Nat.lt_or_ge e views.length with hlt | hge
      · rw [List.getElem?_append_left hlt] at he
        exact h.epochs e v n he
      · obtain ⟨hlt, -⟩ := List.getElem?_eq_some_iff.mp he
        rw [List.length_append, List.length_singleton] at hlt
        obtain rfl : e = w'.epoch := by omega
        obtain ⟨rfl, -⟩ := Prod.mk.inj (Option.mem_unique he hnew)
        rw [hwritten, hepoch]
    holds := by
      refine forall_mem_snoc (fun p hp => (h.holds p hp).grow happends hgrows) ?_
      refine ⟨Nat.le_refl _, ?_, ?_, ?_, ?_⟩
      · rw [hsnapshot, List.take_length]
        exact hcontents
      · rw [hsnapshot]
        exact hlayout
      · rw [hsnapshot, hlast_eq]
        exact hlast.segmentsUpTo
      · rw [hlast_eq]
        exact hlast.stored
    ordered := by
      refine List.pairwise_append.mpr ⟨h.ordered, List.pairwise_singleton _ _, ?_⟩
      intro p hp q hq
      obtain rfl := List.mem_singleton.mp hq
      refine ⟨((h.holds p hp).grow happends hgrows).le, ?_⟩
      -- The last segment of an old view is stored, so the new last segment is no lower.
      rw [hlast_eq]
      intro id hid
      obtain ⟨b, hb, rfl⟩ := (h.holds p hp).last id hid
      exact hlast.bound b (hgrows.keeps b hb)
    written := ⟨_, hnew, fun i hi _ _ _ => hi⟩
    watermark := by rw [hwatermark, hepoch]
    last_eq := hlast_eq
    last := hlast
    durable := by
      obtain ⟨v, n, hn, hacked⟩ := h.durable
      refine ⟨v, n, hdurable ▸ getElem?_of_isPrefix (List.prefix_append _ _) hn, ?_⟩
      rw [happends]
      exact hacked.append h.flushed_le
    flushed_le := by
      rw [happends, List.length_append]
      exact Nat.le_add_right_of_le h.flushed_le }

theorem Views.flush (h : Views log w views flushed) (hlog : log'.appends = log.appends)
    (hstorage : log'.storage = log.storage) :
    Views log' (w.handleFlush none).2 views log.appends.length where
  __ := h
  holds := by
    intro p hp
    have happends : log'.appends = log.appends ++ [] := by rw [hlog, append_nil]
    exact (h.holds p hp).grow happends (hstorage ▸ Grows.refl _)
  written := hlog ▸ h.written
  last := hstorage ▸ h.last
  durable := by
    obtain ⟨n, hn, hacked⟩ := h.written
    exact ⟨w.written, n, hn, hlog ▸ hacked⟩
  flushed_le := Nat.le_of_eq (congrArg List.length hlog.symm)

end OpenData.Log

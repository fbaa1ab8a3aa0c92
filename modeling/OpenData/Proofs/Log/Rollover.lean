import OpenData.Proofs.Log.Scan

/-!
# The segment with the last id

Segment ids run up to `u32::MAX`, and `assign_segment` hands out the last one like every other. The
ranges of ids that a reader scans are half-open and end at `u32::MAX`, so the last segment is never
loaded. `last_segment_is_skipped` is the run that gets there: with a seal interval of zero every
append starts a segment, and after `2 ^ 32` appends the entry of the last one is stored and cannot
be read.
-/

namespace OpenData.Log

open Lib Common List Option SegmentCache
open OpenData.Sequence (SeqBlock SequenceAllocator blockEnd)

/-! ### The records of a batch -/

def StorageKey.segmentId : StorageKey → Option UInt32
  | .seqBlock => none
  | .segmentMeta id | .entry id _ _ | .listing id _ => some id

variable {storage : Storage}

section
variable {w : LogWriter} {write : LogWrite}

theorem allocate_record_key {a : SequenceAllocator} {count r}
    (hr : r ∈ (a.allocate count).2.1) : r.key = a.key := by
  simp only [SequenceAllocator.allocate] at hr
  split at hr
  · cases hr
  · cases hr
    rfl

theorem mem_prepare_records (hkey : w.sequenceAllocator.key = seqBlockKey) {r : Record}
    (hr : r ∈ (w.prepare write).records) : ∃ k : StorageKey, r.key = k.serialize ∧
      (∀ id ∈ k.segmentId, id = (w.prepare write).assignment.segment.id) ∧
      ∀ id, k = .segmentMeta id → ∃ m : SegmentMeta, r.value = m.serialize := by
  simp only [LogWriter.prepare, mem_append, mem_toList] at hr
  rcases hr with ((hr | hr) | hr) | hr
  · exact ⟨.seqBlock, (allocate_record_key hr).trans hkey, by simp [StorageKey.segmentId], by simp⟩
  · -- The metadata of a new segment.
    simp only [assignSegment] at hr
    split at hr
    next hnew =>
      obtain rfl := mem_singleton.mp hr
      refine ⟨.segmentMeta _, rfl, ?_, fun _ _ => ⟨_, rfl⟩⟩
      intro id hid
      cases hid
      simp only [LogWriter.prepare, assignSegment, hnew, if_true]
    next => cases hr
  · obtain ⟨key, -, rfl⟩ := mem_map.mp hr
    refine ⟨.listing _ key, rfl, ?_, by simp⟩
    intro id hid
    exact (Option.some.inj hid).symm
  · obtain ⟨i, userRecord, -, -, hentry⟩ := mem_addEntries hr
    refine ⟨.entry _ userRecord.key _, hentry, ?_, by simp⟩
    intro id hid
    exact (Option.some.inj hid).symm

theorem getElem?_put_prepare (hkey : w.sequenceAllocator.key = seqBlockKey) (storage : Storage)
    (write : LogWrite) {k : StorageKey} {id} (hid : k.segmentId = some id)
    (hne : id ≠ (w.prepare write).assignment.segment.id) :
    (storage.put (w.prepare write).records)[k.serialize]? = storage[k.serialize]? := by
  apply Storage.getElem?_put_of_ne
  intro r hr heq
  obtain ⟨k', hk', hsegment, -⟩ := mem_prepare_records hkey hr
  obtain rfl := StorageKey.serialize_inj.mp (hk'.symm.trans heq)
  exact hne (hsegment id hid)

theorem Typed.put_prepare (h : Typed storage)
    (hkey : w.sequenceAllocator.key = seqBlockKey) (write : LogWrite) :
    Typed (storage.put (w.prepare write).records) := by
  refine h.put fun r hr => ?_
  obtain ⟨k, hk, -⟩ := mem_prepare_records hkey hr
  exact ⟨k, hk⟩

theorem SegmentsDecode.put_prepare (h : SegmentsDecode storage)
    (hkey : w.sequenceAllocator.key = seqBlockKey) (write : LogWrite) :
    SegmentsDecode (storage.put (w.prepare write).records) := by
  intro id v hv
  rcases Storage.getElem?_put_cases hv with ⟨r, hr, hrkey, rfl⟩ | hold
  · obtain ⟨k, hk, -, hvalue⟩ := mem_prepare_records hkey hr
    exact hvalue id (StorageKey.serialize_inj.mp (hk.symm.trans hrkey))
  · exact h id v hold

end

/-! ### Many appends -/

def rollingWrite : LogWrite := { records := [⟨[107], [1]⟩], timestampMs := 0 }

def rollingAppends (n : Nat) : List Db.Label :=
  .openDb { sealInterval := some 0 } .memory :: List.replicate n (.append rollingWrite (.ok 0))

theorem rollingAppends_succ (n : Nat) :
    rollingAppends (n + 1) = rollingAppends n ++ [.append rollingWrite (.ok 0)] := by
  simp [rollingAppends, replicate_succ']

/-- Every append has started a segment. -/
structure Rolled (n : Nat) (w : LogWriter) : Prop where
  config : w.segmentCache.config.sealInterval = some 0
  next : w.sequenceAllocator.peekNextSequence.toNat = n
  latest : ∀ a ∈ w.segmentCache.latest, a.id.toNat + 1 = n ∧ a.segmentMeta.startTimeMs = 0
  empty : w.segmentCache.latest = none → n = 0

section
variable {n : Nat} {w : LogWriter}

theorem Rolled.shouldRoll (h : Rolled n w) :
    shouldRoll w.segmentCache.config.sealInterval rollingWrite.timestampMs
      w.segmentCache.latest = true := by
  rw [h.config]
  cases hlatest : w.segmentCache.latest with
  | none => rfl
  | some a =>
    obtain ⟨-, htime⟩ := h.latest a hlatest
    simp only [SegmentCache.shouldRoll, htime]
    decide

theorem Rolled.segment (h : Rolled n w) (hn : n < 2 ^ 32) :
    (w.prepare rollingWrite).assignment.segment.id.toNat = n ∧
      (w.prepare rollingWrite).assignment.segment.segmentMeta.startTimeMs = 0 := by
  simp only [LogWriter.prepare, assignSegment, Bool.false_or, h.shouldRoll, if_true]
  refine ⟨?_, rfl⟩
  cases hlatest : w.segmentCache.latest with
  | none => exact (h.empty hlatest).symm
  | some a =>
    obtain ⟨hid, -⟩ := h.latest a hlatest
    have hone : (1 : UInt32).toNat = 1 := rfl
    show (a.id + 1).toNat = n
    rw [UInt32.toNat_add, hone]
    omega

section

variable (h : Rolled n w) (hwf : w.sequenceAllocator.block.WF)
include h hwf

theorem Rolled.fits_allocator (hn : n < 2 ^ 32) : w.sequenceAllocator.Fits 1 := by
  intro hempty
  have hremaining := hwf.toNat_remaining
  have hbase := hwf.toNat_nextBase
  have hle := hwf.next
  have hnext : w.sequenceAllocator.block.nextSequence.toNat = n := h.next
  -- Nothing is left, so the block ends at the next sequence.
  have hone : (1 : UInt64).toNat = 1 := rfl
  have hdefault : OpenData.Sequence.defaultBlockSize.toNat = 4096 := rfl
  have hzero := UInt64.lt_iff_toNat_lt.mp hempty
  have hsub : (1 - w.sequenceAllocator.block.remaining).toNat
      = 1 - w.sequenceAllocator.block.remaining.toNat :=
    UInt64.toNat_sub_of_le _ _ (UInt64.le_of_lt hempty)
  rw [OpenData.Sequence.toNat_max, hdefault, hsub, hbase]
  omega

theorem Rolled.base (hn : n < 2 ^ 32) : (w.prepare rollingWrite).baseSeq.toNat = n := by
  obtain ⟨base, record, allocator, halloc⟩ : ∃ base record allocator,
      w.sequenceAllocator.allocate 1 = (base, record, allocator) := ⟨_, _, _, rfl⟩
  have hspec := OpenData.Sequence.allocate_spec hwf (h.fits_allocator hwf hn) halloc
  show (w.sequenceAllocator.allocate 1).1.toNat = n
  rw [halloc, hspec.base_eq]
  exact h.next

theorem Rolled.fits (hn : n < 2 ^ 32 - 1) : w.Fits rollingWrite := by
  refine ⟨by decide, h.fits_allocator hwf (by omega), ?_⟩
  intro _ latest hlatest
  have hid := (h.latest latest hlatest).1
  omega

end

theorem prepare_config (w : LogWriter) (write : LogWrite) :
    (w.prepare write).writer.segmentCache.config = w.segmentCache.config := by
  simp only [LogWriter.prepare, assignSegment]
  split <;> rfl

variable {block : Option SeqBlock}

theorem SegmentCache.Knows.latest_eq
    (hlayout : Layout storage block) {cache : SegmentCache} (hknows : cache.Knows storage)
    {a} (ha : HasSegment storage a) (hmax : ∀ b, HasSegment storage b →
      b.segmentMeta.startSeq ≤ a.segmentMeta.startSeq) : cache.latest = some a := by
  cases hlatest : cache.latest with
  | none => exact absurd ha (hknows.latest_none hlatest a)
  | some b =>
    obtain ⟨hb, hmax'⟩ := hknows.latest_some hlatest
    exact congrArg some (hlayout.eq_of_start hb ha (UInt64.le_antisymm (hmax b hb) (hmax' a ha)))

theorem Rolled.append (h : Rolled n w)
    (hlayout : Layout storage block) (hstep : InStep storage block w) (hn : n < 2 ^ 32 - 1)
    {w' : LogWriter} (hsame : SameCaches (w.prepare rollingWrite).writer w') :
    Rolled (n + 1) w' := by
  obtain ⟨block', metadata, hspec⟩ := prepare_spec hlayout hstep (by decide) (h.fits hstep.wf hn)
  have hlatest := hspec.inStep.segments.latest_eq hspec.layout hspec.stored hspec.latest
  obtain ⟨hid, htime⟩ := h.segment (by omega)
  rw [← hsame.segments] at hlatest
  refine ⟨?_, ?_, ?_, ?_⟩
  · rw [hsame.segments, prepare_config]
    exact h.config
  · rw [hsame.allocator, hspec.next, hspec.base_eq, h.next]
    rfl
  · intro a ha
    obtain rfl := Option.mem_unique hlatest ha
    exact ⟨congrArg (· + 1) hid, htime⟩
  · intro hnone
    rw [hlatest] at hnone
    cases hnone

end

theorem step_rollingAppend {s : Db.State} {w} (hw : s.log.writer = some w) :
    ∃ s', s.step (.append rollingWrite (.ok 0)) = some s' ∧ s'.log = { s.log with
      storage := s.log.storage.put (w.prepare rollingWrite).records
      writer := some ((w.prepare rollingWrite).writer.writeAndBroadcast s.log.storage
        (w.prepare rollingWrite).records (w.prepare rollingWrite).assignment (.ok 0)).2.2
      appends := s.log.appends ++ [appendOf (w.prepare rollingWrite) rollingWrite true true] } := by
  obtain ⟨log, hlog⟩ : ∃ log, s.log.step (.append rollingWrite (.ok 0)) = some log := by
    simp [State.step, hw, rollingWrite]
  obtain ⟨w1, hw1, hmove⟩ := appendMove_of_step hlog
  obtain rfl := Option.mem_unique hw hw1
  refine ⟨{ s with log, views := s.recordView log }, by simp [Db.State.step, hlog], ?_⟩
  cases hmove with
  | nothing hnil => cases hnil
  | shown => rfl

def Db.smooth (s : Db.State) (l : Db.Label) : Prop := Db.failureFree l ∧ Db.noWrap s l

theorem Db.logInvariant_smooth {ls s} (hrun : Run Db.State.step Db.smooth Db.State.init ls s) :
    ∃ block, Contents s.log.storage s.log.appends ∧
      (∀ a ∈ s.log.appends, a.range.stop = a.range.start + a.records.length) ∧
      LogInvariant block s.log ∧ ∀ w ∈ s.log.writer, Running s.log block w := by
  obtain ⟨ks, hlog⟩ := Db.log_run (Db.showsSegments_of_failureFree hrun)
  obtain ⟨block, hinv⟩ := logInvariant_run hlog
  have hstored := Db.allStored_run (fun _ _ hok => hok.1) hrun
  obtain ⟨hcontents, hfull⟩ := contents_run hlog
  exact ⟨block, hcontents, hfull, hinv, hinv.running hstored.ahead⟩

theorem rolling_run (n : Nat) (hn : n ≤ 2 ^ 32 - 1) :
    ∃ s w, Run Db.State.step Db.smooth Db.State.init (rollingAppends n) s ∧
      s.log.writer = some w ∧ Rolled n w := by
  induction n with
  | zero =>
    have heval : (Db.State.init.step (.openDb { sealInterval := some 0 } .memory)).any
        (fun s => s.log.writer.any fun w => decide (w.segmentCache.config.sealInterval = some 0 ∧
          w.sequenceAllocator.peekNextSequence.toNat = 0 ∧ w.segmentCache.latest = none))
        = true := by
      decide +kernel
    simp only [Option.any_eq_true, decide_eq_true_eq] at heval
    obtain ⟨s, hs, w, hw, hconfig, hnext, hlatest⟩ := heval
    refine ⟨s, w, Run.single ⟨trivial, trivial⟩ hs, hw, hconfig, hnext, ?_, fun _ => rfl⟩
    intro a ha
    rw [hlatest] at ha
    cases ha
  | succ n ih =>
    obtain ⟨s, w, hrun, hw, hrolled⟩ := ih (by omega)
    obtain ⟨block, -, -, hinv, hrunning⟩ := Db.logInvariant_smooth hrun
    have hstep := (hrunning w hw).inStep
    obtain ⟨s', hs', hlog⟩ := step_rollingAppend hw
    have hfits : Db.noWrap s (.append rollingWrite (.ok 0)) := by
      intro _ w1 hw1
      obtain rfl := Option.mem_unique hw hw1
      exact hrolled.fits hstep.wf (by omega)
    refine ⟨s', _, ?_, congrArg State.writer hlog,
      hrolled.append hinv.layout hstep (by omega) ⟨rfl, rfl, rfl⟩⟩
    rw [rollingAppends_succ]
    exact hrun.snoc ⟨trivial, hfits⟩ hs'

/-! ### The last append -/

namespace LogIterator

theorem nextSegment_empty (it : LogIterator) (segments : List LogSegment)
    (h : ∀ a ∈ segments, (scanEntries it.storage a it.key it.start it.stop).inner = []) :
    it.nextSegment segments = .ok (none, { it with segments := [], currentIter := none }) := by
  induction segments with
  | nil => rfl
  | cons a segments ih =>
    have hempty := h a mem_cons_self
    have hnext : (scanEntries it.storage a it.key it.start it.stop).next
        = .ok (none, scanEntries it.storage a it.key it.start it.stop) := by
      rw [SegmentIterator.next, hempty, SegmentIterator.nextFrom, ← hempty]
    rw [nextSegment, hnext]
    exact ih fun b hb => h b (mem_cons_of_mem _ hb)

theorem Yields.unique {it : LogIterator} {es es'} (h : it.Yields es)
    (h' : it.Yields es') : es = es' := by
  induction h generalizing es' with
  | done hnext =>
    cases h' with
    | done => rfl
    | entry hnext' =>
      rw [hnext] at hnext'
      simp at hnext'
  | entry hnext _ ih =>
    cases h' with
    | done hnext' =>
      rw [hnext] at hnext'
      simp at hnext'
    | entry hnext' hrest =>
      rw [hnext] at hnext'
      obtain ⟨he, rfl⟩ := Prod.mk.inj (Except.ok.inj hnext')
      cases he
      exact congrArg _ (ih hrest)

end LogIterator

section
variable {storage : Storage} {block : Option SeqBlock} {w : LogWriter} {write : LogWrite}

section

variable (hlayout : Layout storage block) (hstep : InStep storage block w)
  (hid : (w.prepare write).assignment.segment.id = 0xFFFFFFFF)
include hlayout hstep hid

theorem openStorage_last : ∃ cache, openStorage (storage.put (w.prepare write).records)
      { sealInterval := none } = .ok cache ∧ cache.Knows storage := by
  have htyped := hlayout.typed.put_prepare hstep.key_eq write
  have hdecode := hlayout.decode.put_prepare hstep.key_eq write
  obtain ⟨loaded, hload, hmem⟩ := scanSegments_spec htyped hdecode 0 0xFFFFFFFF
  -- Below the last id nothing has changed.
  have hloaded : ∀ a, a ∈ loaded ↔ HasSegment storage a := by
    intro a
    rw [hmem]
    have hsame : a.id < 0xFFFFFFFF → (HasSegment (storage.put (w.prepare write).records) a ↔
        HasSegment storage a) := by
      intro hlt
      have hlookup := getElem?_put_prepare hstep.key_eq storage write
        (k := .segmentMeta a.id) rfl (hid ▸ UInt32.ne_of_lt hlt)
      unfold HasSegment
      rw [show a.record.key = (StorageKey.segmentMeta a.id).serialize from rfl, hlookup]
    constructor
    · intro ⟨ha, _, hlt⟩
      exact (hsame hlt).mp ha
    · intro ha
      have hlt := hlayout.ids a ha
      exact ⟨(hsame hlt).mpr ha, UInt32.zero_le, hlt⟩
  refine ⟨loaded.foldl insert ⟨∅, ⟨none⟩⟩, ?_, ?_⟩
  · rw [openStorage, hload]
    rfl
  · intro start a
    rw [getElem?_foldl_insert fun a ha b hb =>
      hlayout.eq_of_start ((hloaded a).mp ha) ((hloaded b).mp hb)]
    simp [hloaded, and_comm]

theorem scanEntries_last
    {start stop : UInt64}
    (hbefore : ∀ e, Stored storage e → e.sequence < start) {a}
    (ha : HasSegment storage a) (hstop : a.segmentMeta.startSeq < stop) (key : Bytes) :
    (scanEntries (storage.put (w.prepare write).records) a key start stop).inner = [] := by
  apply eq_nil_iff_forall_not_mem.mpr
  intro r hr
  obtain ⟨e, rfl⟩ := mem_scanEntries (hlayout.typed.put_prepare hstep.key_eq write) hr
  obtain ⟨hrange, hin⟩ := (record_mem_scanEntries hstop).mp hr
  -- The entry was there before the append.
  have hlookup := getElem?_put_prepare hstep.key_eq storage write
    (k := .entry a.id e.key (e.sequence - a.segmentMeta.startSeq)) rfl
    (hid ▸ UInt32.ne_of_lt (hlayout.ids a ha))
  have hold : Stored storage e := ⟨a, ha, hin.started, hlookup.symm.trans hin.stored⟩
  exact absurd (hbefore e hold) (UInt64.not_lt.mpr hrange.lower)

end

end

/-- With a seal interval of zero the `2 ^ 32`-th append goes to the segment `u32::MAX`. It is stored
and acknowledged, and a scan does not find it. -/
theorem last_segment_is_skipped :
    ∃ s view, Run Db.State.step (fun _ l => Db.failureFree l) Db.State.init
        (rollingAppends (2 ^ 32)) s ∧ LogReadView.openStorage s.log.storage = .ok view ∧
      Appended s.log.appends ⟨[107], 0xFFFFFFFF, [1]⟩ ∧
      (view.scan [107] (.included 0xFFFFFFFF) .unbounded).Yields [] ∧
      ¬ Returns view s.log.appends := by
  obtain ⟨s, w, hrun, hw, hrolled⟩ := rolling_run (2 ^ 32 - 1) (Nat.le_refl _)
  obtain ⟨block, hcontents, hfull, hinv, hrunning⟩ := Db.logInvariant_smooth hrun
  have hrunning := hrunning w hw
  have hstep := hrunning.inStep
  obtain ⟨s', hs', hlog⟩ := step_rollingAppend hw
  have hid : (w.prepare rollingWrite).assignment.segment.id = 0xFFFFFFFF :=
    UInt32.toNat_inj.mp (hrolled.segment (by decide)).1
  obtain ⟨cache, hopen, hknows⟩ := openStorage_last hinv.layout hstep hid
  -- The run, with one more append.
  have hrun' : Run Db.State.step (fun _ l => Db.failureFree l) Db.State.init
      (rollingAppends (2 ^ 32)) s' := by
    rw [show 2 ^ 32 = (2 ^ 32 - 1) + 1 from rfl, rollingAppends_succ]
    exact (hrun.mono fun _ _ hok => hok.1).snoc trivial hs'
  -- The entry of the last append has the next sequence.
  have happended : Appended s'.log.appends ⟨[107], 0xFFFFFFFF, [1]⟩ := by
    rw [hlog]
    refine ⟨_, mem_append_right _ (mem_singleton_self _), rfl, 0, rfl, ?_⟩
    show (0xFFFFFFFF : UInt64).toNat = (w.prepare rollingWrite).baseSeq.toNat + 0
    rw [hrolled.base hstep.wf (by decide)]
    rfl
  have hyields : (LogReadView.scan ⟨s'.log.storage, cache⟩ [107] (.included 0xFFFFFFFF)
      .unbounded).Yields [] := by
    rw [hlog]
    have hlt : (0xFFFFFFFF : UInt64) < 0xFFFFFFFFFFFFFFFF := by decide
    refine .done (LogIterator.nextSegment_empty _ _ fun a ha => ?_)
    have hcovering := (hknows.mem_findCovering hlt).mp ha
    refine scanEntries_last hinv.layout hstep hid ?_ hcovering.1 hcovering.2.1 [107]
    intro e he
    have hlt := ((hcontents.entries e).mp he).sequence_lt hrunning.past hfull
    rw [hrolled.next] at hlt
    exact UInt64.lt_iff_toNat_lt.mpr hlt
  refine ⟨s', ⟨s'.log.storage, cache⟩, hrun', ?_, happended, hyields, ?_⟩
  · rw [hlog]
    simp only [LogReadView.openStorage, hopen]
    rfl
  · intro hreturns
    obtain ⟨es, hyields', hmem, -⟩ := hreturns.scan [107] (.included 0xFFFFFFFF) .unbounded
    obtain rfl := hyields.unique hyields'
    have hin := (hmem ⟨[107], 0xFFFFFFFF, [1]⟩).mpr ⟨rfl, ⟨UInt64.le_refl _, trivial⟩, happended⟩
    cases hin

end OpenData.Log

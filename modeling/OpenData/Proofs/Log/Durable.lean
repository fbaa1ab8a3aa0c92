import OpenData.Proofs.Log.Writer

/-!
# Entries that a restart finds again

A writer whose batch was lost goes on with caches that are ahead of the storage: it takes the block,
the segment and the listings of the lost batch for stored. The next append then stores entries
without them (`lost_metadata`), and after a restart their sequences are handed out again. A restart
in between prevents that (`log_durable`).
-/

namespace OpenData.Log

open Lib Common List State
open OpenData.Sequence (SeqBlock SequenceAllocator blockEnd load_spec)

/-! ### What a step does -/

/-- The two writers agree but for what they have shown to readers. -/
structure SameCaches (w w' : LogWriter) : Prop where
  allocator : w'.sequenceAllocator = w.sequenceAllocator
  segments : w'.segmentCache = w.segmentCache
  listings : w'.listingCache = w.listingCache

def appendOf (p : Prepared) (write : LogWrite) (stored acknowledged : Bool) : Append where
  range := { start := p.baseSeq.toNat, stop := p.baseSeq.toNat + write.records.length }
  records := write.records
  stored := stored
  acknowledged := acknowledged

/-- What an append does, by its outcome. -/
inductive AppendMove (s : State) (w : LogWriter) (write : LogWrite) : PutOutcome → State → Prop
  | nothing {outcome} : write.records = [] →
      AppendMove s w write outcome { s with writer := some w }
  | lost {error} : write.records ≠ [] → AppendMove s w write (.putErr error) { s with
      writer := some (w.prepare write).writer
      appends := s.appends ++ [appendOf (w.prepare write) write false false]
      ahead := s.ahead || (w.prepare write).records.any fun r => !isEntry r }
  | hidden {error} : write.records ≠ [] → AppendMove s w write (.snapshotErr error) { s with
      storage := s.storage.put (w.prepare write).records
      writer := some (w.prepare write).writer
      appends := s.appends ++ [appendOf (w.prepare write) write true false] }
  | shown {seqnum} : write.records ≠ [] → AppendMove s w write (.ok seqnum) { s with
      storage := s.storage.put (w.prepare write).records
      writer := some ((w.prepare write).writer.writeAndBroadcast s.storage
        (w.prepare write).records (w.prepare write).assignment (.ok seqnum)).2.2
      appends := s.appends ++ [appendOf (w.prepare write) write true true] }

theorem appendMove_of_step {s s' write outcome} (h : s.step (.append write outcome) = some s') :
    ∃ w, s.writer = some w ∧ AppendMove s w write outcome s' := by
  simp only [step] at h
  cases hwriter : s.writer with
  | none => simp [hwriter] at h
  | some w =>
    refine ⟨w, rfl, ?_⟩
    simp only [hwriter] at h
    by_cases hnil : write.records = []
    · simp only [hnil, LogWriter.handleAppend, if_true, Option.some.injEq] at h
      exact h ▸ .nothing hnil
    · simp only [hnil, LogWriter.handleAppend, if_false, Option.some.injEq] at h
      subst h
      cases outcome with
      | putErr error =>
        have hmove : AppendMove s w write (.putErr error) _ := .lost hnil
        simpa [record, LogWriter.writeAndBroadcast, appendOf] using hmove
      | snapshotErr error =>
        have hmove : AppendMove s w write (.snapshotErr error) _ := .hidden hnil
        simpa [record, LogWriter.writeAndBroadcast, appendOf] using hmove
      | ok seqnum =>
        have hmove : AppendMove s w write (.ok seqnum) _ := .shown hnil
        simpa [record, LogWriter.writeAndBroadcast, appendOf] using hmove

/-- What a step of the log can do. -/
inductive Move (s : State) : Label → State → Prop
  | start {config allocator cache} :
      s.writer = none → SequenceAllocator.load s.storage seqBlockKey = .ok allocator →
      SegmentCache.openStorage s.storage config = .ok cache →
      Move s (.start config) { s with
        writer := some (LogWriter.new s.storage allocator cache ListingCache.new)
        ahead := false }
  | nothing {w write outcome} : s.writer = some w →
      write.records = [] → Move s (.append write outcome) { s with writer := some w }
  | lost {w write error} : s.writer = some w →
      write.records ≠ [] → Move s (.append write (.putErr error)) { s with
        writer := some (w.prepare write).writer
        appends := s.appends ++ [appendOf (w.prepare write) write false false]
        ahead := s.ahead || (w.prepare write).records.any fun r => !isEntry r }
  | stored {w w' write outcome} (acknowledged : Bool) :
      s.writer = some w → write.records ≠ [] → SameCaches (w.prepare write).writer w' →
      Move s (.append write outcome) { s with
        storage := s.storage.put (w.prepare write).records
        writer := some w'
        appends := s.appends ++ [appendOf (w.prepare write) write true acknowledged] }
  | flush {w w' error} : s.writer = some w → SameCaches w w' →
      Move s (.flush error) { s with writer := some w' }
  | stop : Move s .stop { s with writer := none }

theorem move_of_step {s s' l} (h : s.step l = some s') : Move s l s' := by
  cases l with
  | start =>
    simp only [step] at h
    split at h
    next allocator cache hnone hload hopen =>
      cases h
      exact .start hnone hload hopen
    next => cases h
  | append =>
    obtain ⟨w, hw, hmove⟩ := appendMove_of_step h
    cases hmove with
    | nothing hnil => exact .nothing hw hnil
    | lost hne => exact .lost hw hne
    | hidden hne => exact .stored false hw hne ⟨rfl, rfl, rfl⟩
    | shown hne => exact .stored true hw hne ⟨rfl, rfl, rfl⟩
  | flush error =>
    simp only [step] at h
    cases hwriter : s.writer with
    | none => simp [hwriter] at h
    | some =>
      simp only [hwriter, Option.some.injEq] at h
      subst h
      refine .flush hwriter ?_
      cases error <;> exact ⟨rfl, rfl, rfl⟩
  | stop =>
    simp only [step, Option.some.injEq] at h
    exact h ▸ .stop

/-! ### The invariant -/

section
variable {s : State} {block : Option SeqBlock}

/-- The writer knows the store, and its next sequence is after all that is stored. -/
structure Running (s : State) (block : Option SeqBlock) (w : LogWriter) : Prop where
  inStep : InStep s.storage block w
  past : ∀ a ∈ s.appends, a.stored = true →
    a.range.stop ≤ w.sequenceAllocator.peekNextSequence.toNat

/-- The store is well formed, and stored appends have different sequences. -/
structure LogInvariant (block : Option SeqBlock) (s : State) : Prop where
  layout : Layout s.storage block
  below : ∀ a ∈ s.appends, a.stored = true → a.range.stop ≤ blockEnd block
  acknowledged : ∀ a ∈ s.appends, a.acknowledged = true → a.stored = true
  unique : s.appends.Pairwise fun a b => a.stored = true → a.range.stop ≤ b.range.start
  running : s.ahead = false → ∀ w ∈ s.writer, Running s block w

/-- No value of an append wraps. -/
def noWrap (s : State) : Label → Prop
  | .append write _ => write.records ≠ [] → ∀ w ∈ s.writer, w.Fits write
  | _ => True

/-- After a lost batch with other records than entries the writer is restarted before the next
append. -/
def restarted (s : State) : Label → Prop
  | .append write _ => write.records ≠ [] → s.ahead = false
  | _ => True

instance (s : State) : (l : Label) → Decidable (noWrap s l)
  | .append write _ =>
    inferInstanceAs (Decidable (write.records ≠ [] → ∀ w ∈ s.writer, w.Fits write))
  | .start _ | .flush _ | .stop => isTrue trivial

instance (s : State) : (l : Label) → Decidable (restarted s l)
  | .append write _ => inferInstanceAs (Decidable (write.records ≠ [] → s.ahead = false))
  | .start _ | .flush _ | .stop => isTrue trivial

def keepsUp (s : State) (l : Label) : Prop := noWrap s l ∧ restarted s l

instance (s : State) (l : Label) : Decidable (keepsUp s l) :=
  inferInstanceAs (Decidable (_ ∧ _))

theorem InStep.congr {storage w w'} (h : InStep storage block w)
    (hsame : SameCaches w w') : InStep storage block w' where
  key_eq := hsame.allocator ▸ h.key_eq
  wf := hsame.allocator ▸ h.wf
  current := hsame.allocator ▸ h.current
  segments := hsame.segments ▸ h.segments
  before := hsame.allocator ▸ h.before
  listings := hsame.listings ▸ h.listings

theorem logInvariant_init : LogInvariant none init where
  layout := layout_empty
  below := by simp [init]
  acknowledged := by simp [init]
  unique := List.Pairwise.nil
  running := by simp [init]

theorem LogInvariant.start (h : LogInvariant block s) {config allocator cache}
    (hload : SequenceAllocator.load s.storage seqBlockKey = .ok allocator)
    (hopen : SegmentCache.openStorage s.storage config = .ok cache) :
    LogInvariant block { s with
      writer := some (LogWriter.new s.storage allocator cache ListingCache.new)
      ahead := false } where
  __ := h
  running := by
    intro _ w hw
    obtain rfl : LogWriter.new s.storage allocator cache ListingCache.new = w := Option.some.inj hw
    obtain ⟨a, ha, hkey, hwf, hcurrent, hnext⟩ := load_spec h.layout.block_eq h.layout.fits
    obtain ⟨c, hc, hknows⟩ := h.layout.openStorage config
    obtain rfl : allocator = a := Except.ok.inj (hload.symm.trans ha)
    obtain rfl : cache = c := Except.ok.inj (hopen.symm.trans hc)
    have hnext : allocator.peekNextSequence.toNat = blockEnd block := hnext
    refine ⟨⟨hkey, hwf, hcurrent, hknows, ?_, ?_⟩, ?_⟩
    · exact fun a ha => Nat.lt_of_lt_of_eq (h.layout.started a ha) hnext.symm
    · intro id hid
      cases hid
    · exact fun a ha hstored => (h.below a ha hstored).trans_eq hnext.symm

theorem pairwise_appends {appends} {a : Append}
    (h : appends.Pairwise fun a b => a.stored = true → a.range.stop ≤ b.range.start)
    (hpast : ∀ b ∈ appends, b.stored = true → b.range.stop ≤ a.range.start) :
    (appends ++ [a]).Pairwise fun a b => a.stored = true → a.range.stop ≤ b.range.start := by
  refine pairwise_append.mpr ⟨h, pairwise_singleton _ _, ?_⟩
  intro b hb c hc
  obtain rfl := mem_singleton.mp hc
  exact hpast b hb

theorem forall_mem_snoc {α : Type} {P : α → Prop} {l x} (h : ∀ a ∈ l, P a)
    (hx : P x) : ∀ a ∈ l ++ [x], P a := by
  intro a ha
  rcases mem_append.mp ha with ha | ha
  · exact h a ha
  · exact mem_singleton.mp ha ▸ hx

section
variable {w : LogWriter} {write : LogWrite}

/-- A batch that was lost. The writer still agrees with the storage when all its records were
entries. -/
theorem LogInvariant.lost (h : LogInvariant block s) (hw : s.writer = some w)
    (hne : write.records ≠ []) (hahead : s.ahead = false) (hfits : w.Fits write) :
    ∃ block', LogInvariant block' { s with
      writer := some (w.prepare write).writer
      appends := s.appends ++ [appendOf (w.prepare write) write false false]
      ahead := s.ahead || (w.prepare write).records.any fun r => !isEntry r } := by
  have hrunning := h.running hahead w hw
  obtain ⟨block', metadata, hspec⟩ := prepare_spec h.layout hrunning.inStep hne hfits
  have hunique := pairwise_appends (a := appendOf (w.prepare write) write false false) h.unique
    fun b hb hstored => (hrunning.past b hb hstored).trans_eq
      (congrArg UInt64.toNat hspec.base_eq).symm
  have hacked := forall_mem_snoc (x := appendOf (w.prepare write) write false false) h.acknowledged
    (by simp [appendOf])
  by_cases hany : (w.prepare write).records.any (fun r => !isEntry r) = true
  · refine ⟨block, h.layout, forall_mem_snoc h.below (by simp [appendOf]), hacked, hunique, ?_⟩
    intro hfalse
    simp [hany] at hfalse
  · -- Nothing but entries: the caches remember nothing of the batch.
    have hmetadata : metadata = [] := by
      apply List.eq_nil_iff_forall_not_mem.mpr
      intro r hr
      apply hany
      rw [hspec.records_eq, List.any_append, Bool.or_eq_true, List.any_eq_true]
      exact Or.inl ⟨r, hr, by simp [hspec.metadata_kind r hr]⟩
    have hlayout : Layout s.storage block' := by simpa [hmetadata] using hspec.layout
    have hinStep : InStep s.storage block' (w.prepare write).writer := by
      simpa [hmetadata] using hspec.inStep
    refine ⟨block', hlayout, ?_, hacked, hunique, ?_⟩
    · exact forall_mem_snoc (fun a ha hs => Nat.le_trans (h.below a ha hs) hspec.le)
        (by simp [appendOf])
    · intro _ w' hw'
      obtain rfl : (w.prepare write).writer = w' := Option.some.inj hw'
      refine ⟨hinStep, forall_mem_snoc (fun a ha hs => ?_) (by simp [appendOf])⟩
      have hpast := hrunning.past a ha hs
      have hnext := hspec.next
      rw [hspec.base_eq] at hnext
      omega

theorem LogInvariant.stored (h : LogInvariant block s) {w' : LogWriter} (acknowledged : Bool)
    (hw : s.writer = some w) (hne : write.records ≠ []) (hahead : s.ahead = false)
    (hfits : w.Fits write) (hsame : SameCaches (w.prepare write).writer w') :
    ∃ block', LogInvariant block' { s with
      storage := s.storage.put (w.prepare write).records
      writer := some w'
      appends := s.appends ++ [appendOf (w.prepare write) write true acknowledged] } := by
  have hrunning := h.running hahead w hw
  obtain ⟨block', metadata, hspec⟩ := prepare_spec h.layout hrunning.inStep hne hfits
  have hinStep : InStep (s.storage.put (w.prepare write).records) block' w' := by
    rw [hspec.records_eq, Storage.put_append]
    exact (hspec.inStep.put_inSegment hspec.entries_kind).congr hsame
  have hnext := hspec.next
  rw [← hsame.allocator] at hnext
  have hpast : ∀ a ∈ s.appends, a.stored = true →
      a.range.stop ≤ (w.prepare write).baseSeq.toNat := fun a ha hs => by
    rw [hspec.base_eq]
    exact hrunning.past a ha hs
  refine ⟨block', hspec.layout_entries, ?_, ?_, ?_, ?_⟩
  · refine forall_mem_snoc (fun a ha hs => Nat.le_trans (h.below a ha hs) hspec.le) ?_
    intro _
    show (w.prepare write).baseSeq.toNat + write.records.length ≤ blockEnd block'
    rw [← hnext, ← hinStep.current]
    exact hinStep.wf.next
  · exact forall_mem_snoc h.acknowledged fun _ => rfl
  · exact pairwise_appends h.unique hpast
  · intro _ w'' hw''
    obtain rfl : w' = w'' := Option.some.inj hw''
    refine ⟨hinStep, forall_mem_snoc (fun a ha hs => ?_) fun _ => ?_⟩
    · exact Nat.le_trans (hpast a ha hs) (hnext ▸ Nat.le_add_right _ _)
    · exact Nat.le_of_eq hnext.symm

end

theorem logInvariant_run {ls} (hrun : Run step keepsUp init ls s) :
    ∃ block, LogInvariant block s := by
  refine hrun.invariant (I := fun s => ∃ block, LogInvariant block s) ⟨none, logInvariant_init⟩ ?_
  rintro s l s' ⟨block, h⟩ hok hstep
  cases move_of_step hstep with
  | start _ hload hopen => exact ⟨block, h.start hload hopen⟩
  | nothing hw =>
    exact ⟨block, h.layout, h.below, h.acknowledged, h.unique, fun hahead => hw ▸ h.running hahead⟩
  | lost hw hne => exact h.lost hw hne (hok.2 hne) (hok.1 hne _ hw)
  | stored acknowledged hw hne hsame =>
    exact h.stored acknowledged hw hne (hok.2 hne) (hok.1 hne _ hw) hsame
  | flush hw hsame =>
    refine ⟨block, h.layout, h.below, h.acknowledged, h.unique, fun hahead w' hw' => ?_⟩
    cases hw'
    have hrunning := h.running hahead _ hw
    exact ⟨hrunning.inStep.congr hsame, hsame.allocator ▸ hrunning.past⟩
  | stop => exact ⟨block, h.layout, h.below, h.acknowledged, h.unique, by simp⟩

end

/-! ### The main result -/

/-- Every stored entry has a segment, a sequence in the stored block, and a listing. -/
structure Durable (s : State) : Prop where
  segment : ∀ segmentId key relativeSeq, entryKey segmentId key relativeSeq ∈ s.storage →
    ∃ m : SegmentMeta, s.storage[(SegmentMetaKey.mk segmentId).serialize]? = some m.serialize
  covered : ∀ segmentId key relativeSeq, entryKey segmentId key relativeSeq ∈ s.storage →
    ∀ m : SegmentMeta, s.storage[(SegmentMetaKey.mk segmentId).serialize]? = some m.serialize →
      ∃ block : SeqBlock, s.storage[seqBlockKey]? = some block.serialize ∧
        m.startSeq.toNat + relativeSeq.toNat < block.nextBase.toNat
  listed : ∀ segmentId key relativeSeq, entryKey segmentId key relativeSeq ∈ s.storage →
    (ListingEntryKey.mk segmentId key).serialize ∈ s.storage
  unique : s.appends.Pairwise fun a b => a.acknowledged = true → a.range.stop ≤ b.range.start

/-- In every run with lost batches and restarts at any moment, in which the writer is restarted
after it lost a block, a segment or a listing and in which no value wraps: the stored entries are
covered by the stored block, belong to stored segments and are listed, and no sequence of an
acknowledged append is given to another entry. -/
theorem log_durable {ls : List Label} {s : State}
    (hrun : Run step keepsUp init ls s) : Durable s := by
  obtain ⟨block, h⟩ := logInvariant_run hrun
  refine ⟨?_, ?_, ?_, ?_⟩
  · intro segmentId key relativeSeq hmem
    obtain ⟨a, rfl, ha, -⟩ := (h.layout.entries _ _ _ hmem).segment
    exact ⟨a.segmentMeta, ha⟩
  · intro segmentId key relativeSeq hmem m hm
    obtain ⟨a, rfl, ha, hlt⟩ := (h.layout.entries _ _ _ hmem).segment
    have hsame : (⟨a.id, m⟩ : LogSegment) = a := HasSegment.eq_of_id hm ha rfl
    have hm : m = a.segmentMeta := congrArg LogSegment.segmentMeta hsame
    -- A stored entry has a sequence, so the block cannot be empty.
    cases hblock : block with
    | none => rw [hblock] at hlt; cases hlt
    | some b =>
      subst hblock
      refine ⟨b, h.layout.block_eq, ?_⟩
      rw [SeqBlock.toNat_nextBase h.layout.fits, hm]
      exact hlt
  · intro segmentId key relativeSeq hmem
    exact (h.layout.entries _ _ _ hmem).listed
  · exact h.unique.imp_of_mem fun ha _ hab hacked => hab (h.acknowledged _ ha hacked)

def appendOne (key : Bytes) (v : UInt8) (outcome : PutOutcome) : Label :=
  .append { records := [{ key, value := [v] }], timestampMs := 0 } outcome

/-- The second batch is lost and held an entry only. The fourth one is lost with the listing of a
new key, and the log is opened again. -/
def reopenedAfterLoss : List Label :=
  [.start { sealInterval := none }, appendOne [107] 1 (.ok 1), appendOne [107] 2 (.putErr "io"),
    appendOne [107] 3 (.ok 2), appendOne [108] 4 (.putErr "io"), .stop,
    .start { sealInterval := none }, appendOne [108] 5 (.ok 3)]

theorem log_durable_reopenedAfterLoss : ∃ s, Run step keepsUp init reopenedAfterLoss s ∧
      s.appends.map (fun a => (a.range.start, a.acknowledged)) =
        [(0, true), (1, false), (2, true), (3, false), (4096, true)] ∧ Durable s := by
  obtain ⟨s, hrun, happends⟩ : ∃ s, Run step keepsUp init reopenedAfterLoss s ∧
      s.appends.map (fun a => (a.range.start, a.acknowledged)) =
        [(0, true), (1, false), (2, true), (3, false), (4096, true)] :=
    Run.exists_of_check (by decide +kernel)
  exact ⟨s, hrun, happends, log_durable hrun⟩

/-! ### A lost batch -/

def lostThenStored : List Label :=
  [.start { sealInterval := none }, appendOne [107] 1 (.putErr "io"), appendOne [107] 2 (.ok 1)]

def lostThenReopened : List Label :=
  lostThenStored ++ [.stop, .start { sealInterval := none },
    .append { records := [⟨[107], [3]⟩, ⟨[107], [4]⟩], timestampMs := 0 } (.ok 2)]

/-- Without a restart an acknowledged entry is stored without block, segment and listing. After the
next start its sequence is given to another entry, which takes its place in the storage. -/
theorem lost_metadata : ∃ s s', Run step noWrap init lostThenStored s ∧
      Run step noWrap init lostThenReopened s' ∧
      s.storage.toList = [(entryKey 0 [107] 1, [2])] ∧
      s.appends.map (fun a => (a.range.start, a.range.stop, a.acknowledged)) =
        [(0, 1, false), (1, 2, true)] ∧ s'.storage[entryKey 0 [107] 1]? = some [4] ∧
      s'.appends.map (fun a => (a.range.start, a.range.stop, a.acknowledged)) =
        [(0, 1, false), (1, 2, true), (0, 2, true)] ∧ ¬ Durable s ∧ ¬ Durable s' := by
  obtain ⟨s, hrun, hstorage, happends, hentry, hmeta⟩ : ∃ s, Run step noWrap init lostThenStored s ∧
      s.storage.toList = [(entryKey 0 [107] 1, [2])] ∧
      s.appends.map (fun a => (a.range.start, a.range.stop, a.acknowledged)) =
        [(0, 1, false), (1, 2, true)] ∧ entryKey 0 [107] 1 ∈ s.storage ∧
      s.storage[(SegmentMetaKey.mk 0).serialize]? = none := Run.exists_of_check (by decide +kernel)
  obtain ⟨s', hrun', hoverwritten, happends', hreused⟩ : ∃ s',
      Run step noWrap init lostThenReopened s' ∧
      s'.storage[entryKey 0 [107] 1]? = some [4] ∧
      s'.appends.map (fun a => (a.range.start, a.range.stop, a.acknowledged)) =
        [(0, 1, false), (1, 2, true), (0, 2, true)] ∧
      ¬ s'.appends.Pairwise fun a b => a.acknowledged = true → a.range.stop ≤ b.range.start :=
    Run.exists_of_check (by decide +kernel)
  refine ⟨s, s', hrun, hrun', hstorage, happends, hoverwritten, happends', ?_, ?_⟩
  · intro hdurable
    obtain ⟨m, hm⟩ := hdurable.segment 0 [107] 1 hentry
    rw [hmeta] at hm
    cases hm
  · exact fun hdurable => hreused hdurable.unique

end OpenData.Log

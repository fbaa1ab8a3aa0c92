import OpenData.Proofs.Common.Flow

/-!
# What the watermarks of a coordinator promise

The flush task publishes the view before it moves the written watermark, and a view update after a
failed flush panics. So the written watermark is never ahead of the snapshot of the view
(`Marked.published`), whatever calls of the flusher fail. The durable watermark follows the written
one after a `flush_storage`, and `Synced` says what that call came after (`watermark_promises`).
-/

namespace OpenData.Coordinator

open Lib List

variable {drain : Bool}

variable {D W R F : Type} {ops : DeltaOps D W R F} {threshold : Nat} {s s' : State D R F}
  {ls : List (Label W)} {n : Nat}

/-! ### The snapshot and the written watermark -/

def State.published (s : State D R F) : Nat :=
  match s.flusher with
  | .marking _ => s.lastFlushedEpoch
  | _ => s.watermarks.written

def FlushPc.settled : FlushPc F → Bool
  | .waiting => true
  | .flushing _ _ => true
  | .syncing _ => true
  | .recording _ => true
  | .draining => true
  | _ => false

@[simp] theorem settled_nextEvent (drain : Bool) :
    (nextEvent drain : FlushPc F).settled = true := by
  cases drain <;> rfl

theorem published_of_ne_marking (h : ∀ drain, s.flusher ≠ .marking drain) :
    s.published = s.watermarks.written := by
  rw [State.published]
  split
  · rename_i drain hf
    exact absurd hf (h drain)
  · rfl

/-- A call of `flush_storage` returned `Ok` after `flush_delta` did so for every delta with epochs
up to `n`. -/
def Synced (s : State D R F) (n : Nat) : Prop :=
  ∃ before after, s.calls = before ++ .storage true :: after ∧
    ∀ frozen ∈ s.frozenLog, frozen.epochRange.start ≤ n → .delta frozen true ∈ before

theorem Synced.mono {calls frozen} (h : Synced s n) (hcalls : s'.calls = s.calls ++ calls)
    (hlog : s'.frozenLog = s.frozenLog ++ frozen)
    (hlater : ∀ f ∈ frozen, n < f.epochRange.start) : Synced s' n := by
  obtain ⟨before, after, hsplit, hflushed⟩ := h
  refine ⟨before, after ++ calls, ?_, ?_⟩
  · rw [hcalls, hsplit, append_assoc, cons_append]
  · intro f hf hle
    rw [hlog] at hf
    rcases mem_append.mp hf with hf | hf
    · exact hflushed f hf hle
    · have hlt := hlater f hf
      omega

/-- The watermarks are in order, and each is below what was flushed or synced. -/
structure Marked (s : State D R F) : Prop where
  published : Spans 1 (s.view.snapshot.map EpochStamped.epochRange) (s.published + 1)
  written_le : s.watermarks.written ≤ s.published
  settled : s.flusher.settled = true → s.lastFlushedEpoch = s.watermarks.written
  durable_le : s.watermarks.durable ≤ s.watermarks.written
  flushed : ∀ frozen ∈ s.view.snapshot, .delta frozen true ∈ s.calls
  publishing : ∀ frozen snapshot drain, s.flusher = .publishing frozen snapshot drain →
    .delta frozen true ∈ s.calls ∧ s.lastFlushedEpoch + 1 = frozen.epochRange.stop
  durable : s.watermarks.durable = 0 ∨ Synced s s.watermarks.durable
  recording : ∀ drain, s.flusher = .recording drain → Synced s s.lastFlushedEpoch

theorem marked_init (delta : D) : Marked (State.init delta : State D R F) where
  published := rfl
  written_le := Nat.le_refl 0
  settled := fun _ => rfl
  durable_le := Nat.le_refl 0
  flushed := nofun
  publishing := nofun
  durable := Or.inl rfl
  recording := nofun

theorem Marked.frozen_spans (h : Marked s) (hseq : Sequenced s) (hflow : Flow s) :
    Spans (s.published + 1) (s.view.frozen.reverse.map EpochStamped.epochRange)
      s.deltaStartEpoch := by
  have hchain := hseq.chain
  rw [← hflow.view, map_append] at hchain
  obtain ⟨m, hsnapshot, hfrozen⟩ := spans_append.mp hchain
  obtain rfl := hsnapshot.unique h.published
  exact hfrozen

variable {frozen : EpochStamped F}

section

variable (h : Marked s) (hseq : Sequenced s) (hflow : Flow s)
include h hseq hflow

theorem Marked.lt_start_of_frozen
    (hmem : frozen ∈ s.view.frozen) : s.published < frozen.epochRange.start := by
  have hmem' : frozen.epochRange ∈ s.view.frozen.reverse.map EpochStamped.epochRange :=
    mem_map_of_mem (mem_reverse.mpr hmem)
  exact ((h.frozen_spans hseq hflow).bounds hmem').1

theorem Marked.mem_snapshot
    (hmem : frozen ∈ s.frozenLog) (hle : frozen.epochRange.start ≤ s.published) :
    frozen ∈ s.view.snapshot := by
  rw [← hflow.view] at hmem
  rcases mem_append.mp hmem with hmem | hmem
  · exact hmem
  · have hlt := h.lt_start_of_frozen hseq hflow (mem_reverse.mp hmem)
    omega

theorem Marked.published_lt : s.published < s.deltaStartEpoch := (h.frozen_spans hseq hflow).le

end

theorem Marked.writerMove (h : Marked s) (hseq : Sequenced s) (hflow : Flow s)
    (hmove : WriterMove ops s s') : Marked s' := by
  cases hmove with
  | @freeze next delta frozen hw hwrites hrange =>
    -- The new delta starts behind the published epochs.
    have hlt := h.published_lt hseq hflow
    have hlater : ∀ m ≤ s.published, ∀ f ∈ [frozen], m < f.epochRange.start := by
      intro m hm f hf
      rw [mem_singleton.mp hf, hrange]
      exact Nat.lt_of_le_of_lt hm hlt
    have hle := h.durable_le
    have hle' := h.written_le
    refine ⟨h.published, h.written_le, h.settled, h.durable_le, h.flushed, h.publishing, ?_, ?_⟩
    · rcases h.durable with hzero | hsynced
      · exact Or.inl hzero
      · exact Or.inr (hsynced.mono (append_nil s.calls).symm rfl (hlater _ (Nat.le_trans hle hle')))
    · intro drain hf
      have hf' : s.flusher = .recording drain := hf
      have hlast := h.settled (by rw [hf']; rfl)
      exact (h.recording drain hf').mono (append_nil s.calls).symm rfl (hlater _ (by omega))
  | freezePanics hw hpoisoned =>
    exact absurd hpoisoned (hflow.not_poisoned (by rw [hw]; rfl))
  | _ =>
    exact ⟨h.published, h.written_le, h.settled, h.durable_le, h.flushed, h.publishing,
      h.durable, h.recording⟩

theorem Marked.setFlusher {flusher channel poisoned calls more} (h : Marked s)
    (hcalls : calls = s.calls ++ more)
    (hold : ∀ drain, s.flusher ≠ .marking drain) (hnew : ∀ drain, flusher ≠ .marking drain)
    (hpublishing : ∀ frozen snapshot drain, flusher ≠ .publishing frozen snapshot drain)
    (hsettled : flusher.settled = true → s.flusher.settled = true)
    (hrecording : ∀ drain, flusher = .recording drain →
      Synced { s with flusher, channel, poisoned, calls } s.lastFlushedEpoch) :
    Marked { s with flusher, channel, poisoned, calls } := by
  subst hcalls
  have hsame : State.published { s with flusher, channel, poisoned, calls := s.calls ++ more }
      = s.published := by
    rw [published_of_ne_marking hold]
    exact published_of_ne_marking hnew
  refine ⟨?_, ?_, fun hs => h.settled (hsettled hs), h.durable_le, ?_, ?_, ?_, hrecording⟩
  · rw [hsame]
    exact h.published
  · rw [hsame]
    exact h.written_le
  · intro frozen hmem
    exact mem_append_left _ (h.flushed frozen hmem)
  · intro frozen snapshot drain hf
    exact absurd hf (hpublishing frozen snapshot drain)
  · exact h.durable.imp id (fun hsynced => hsynced.mono rfl (append_nil s.frozenLog).symm nofun)

theorem Flow.held_mem (h : Flow s) (hsound : s.flusher.sound = true)
    (hheld : frozen ∈ s.flusher.held) : frozen ∈ s.frozenLog := by
  have hmem : frozen ∈ s.view.frozen.reverse := by
    rw [h.queue hsound, State.inFlight]
    simp [hheld]
  rw [← h.view]
  exact mem_append_right _ hmem

theorem Marked.deltaOk (h : Marked s) (hseq : Sequenced s) (hflow : Flow s)
    (hf : s.flusher = .flushing frozen drain) : Marked (s.deltaDone frozen drain .ok) := by
  have hmem : frozen ∈ s.frozenLog :=
    hflow.held_mem (by rw [hf]; rfl) (by rw [hf]; exact mem_singleton.mpr rfl)
  have hbounds := hseq.chain.bounds (mem_map_of_mem hmem)
  have hpub := published_of_ne_marking (s := s) (by rw [hf]; nofun)
  have hspans := h.published
  rw [hpub] at hspans
  refine ⟨hspans, Nat.le_refl _, nofun, h.durable_le, ?_, ?_, ?_, nofun⟩
  · intro f hmem'
    exact mem_append_left _ (h.flushed f hmem')
  · rintro _ _ _ ⟨⟩
    refine ⟨mem_append_right _ (mem_singleton.mpr rfl), ?_⟩
    show frozen.epochRange.stop - 1 + 1 = frozen.epochRange.stop
    omega
  · exact h.durable.imp id (fun hsynced => hsynced.mono rfl (append_nil s.frozenLog).symm nofun)

theorem Marked.publish {snapshot view} (h : Marked s)
    (hseq : Sequenced s) (hflow : Flow s) (hf : s.flusher = .publishing frozen snapshot drain)
    (hv : s.view.updateFlushFinished snapshot frozen.epochRange = some view) :
    Marked { s with view, flusher := .marking drain } := by
  have hnone := hflow.failed_nil_of_published hseq.chain hf hv
  obtain ⟨rest, hfrozen, -, hsnapshot, hv'⟩ := hflow.publish_eq hnone hf
  obtain rfl := Option.mem_unique hv' hv
  obtain ⟨hcall, hlast⟩ := h.publishing _ _ _ hf
  have hpub := published_of_ne_marking (s := s) (by rw [hf]; nofun)
  have hspans := h.published
  -- The delta starts where the snapshot ends.
  have hnext := h.frozen_spans hseq hflow
  rw [hfrozen, map_cons] at hnext
  obtain ⟨hstart, hlt, -⟩ := hnext
  refine ⟨?_, ?_, nofun, h.durable_le, ?_, nofun, h.durable, nofun⟩
  · show Spans 1 (snapshot.map EpochStamped.epochRange) (s.lastFlushedEpoch + 1)
    rw [hsnapshot, map_append, map_singleton, hlast]
    rw [← hstart] at hspans
    exact hspans.snoc hlt
  · show s.watermarks.written ≤ s.lastFlushedEpoch
    omega
  · intro f hmem
    have hmem' : f ∈ snapshot := hmem
    rw [hsnapshot] at hmem'
    rcases mem_append.mp hmem' with hmem' | hmem'
    · exact h.flushed f hmem'
    · rw [mem_singleton.mp hmem']
      exact hcall

theorem Marked.updateWritten (h : Marked s) (hf : s.flusher = .marking drain) : Marked { s with
      watermarks := { s.watermarks with written := s.lastFlushedEpoch }
      flusher := nextEvent drain } := by
  have hpub : s.published = s.lastFlushedEpoch := by rw [State.published, hf]
  have hspans := h.published
  have hle := h.written_le
  have hdurable := h.durable_le
  rw [hpub] at hspans hle
  have hsame : State.published { s with
      watermarks := { s.watermarks with written := s.lastFlushedEpoch }
      flusher := nextEvent drain } = s.lastFlushedEpoch :=
    published_of_ne_marking (by cases drain <;> nofun)
  refine ⟨?_, ?_, fun _ => rfl, Nat.le_trans hdurable hle, h.flushed, ?_, h.durable, ?_⟩
  · rw [hsame]
    exact hspans
  · exact Nat.le_of_eq hsame.symm
  · cases drain <;> nofun
  · cases drain <;> nofun

theorem Marked.updateDurable (h : Marked s) (hf : s.flusher = .recording drain) : Marked { s with
      watermarks := { s.watermarks with durable := s.lastFlushedEpoch }
      flusher := nextEvent drain } := by
  have hpub := published_of_ne_marking (s := s) (by rw [hf]; nofun)
  have hlast := h.settled (by rw [hf]; rfl)
  have hspans := h.published
  rw [hpub] at hspans
  have hsame : State.published { s with
      watermarks := { s.watermarks with durable := s.lastFlushedEpoch }
      flusher := nextEvent drain } = s.watermarks.written :=
    published_of_ne_marking (by cases drain <;> nofun)
  refine ⟨?_, ?_, fun _ => hlast, Nat.le_of_eq hlast, h.flushed, ?_, ?_, ?_⟩
  · rw [hsame]
    exact hspans
  · exact Nat.le_of_eq hsame.symm
  · cases drain <;> nofun
  · exact Or.inr (h.recording drain hf)
  · cases drain <;> nofun

theorem Marked.storageOk (h : Marked s) (hseq : Sequenced s) (hflow : Flow s)
    (hf : s.flusher = .syncing drain) : Marked (s.storageDone drain .ok) := by
  have hpub := published_of_ne_marking (s := s) (by rw [hf]; nofun)
  have hlast := h.settled (by rw [hf]; rfl)
  refine h.setFlusher rfl (by rw [hf]; nofun) nofun nofun (fun _ => by rw [hf]; rfl) ?_
  intro _ _
  refine ⟨s.calls, [], rfl, ?_⟩
  intro frozen hmem hle
  exact h.flushed frozen (h.mem_snapshot hseq hflow hmem (by omega))

theorem Marked.flushMove {l} (h : Marked s) (hseq : Sequenced s) (hflow : Flow s)
    (hmove : FlushMove s l s') : Marked s' := by
  cases hmove with
  | @take _ drain event channel hf =>
    refine h.setFlusher (append_nil s.calls).symm ?_ ?_ ?_ (fun _ => ?_) ?_
    · rw [hf]
      cases drain <;> nofun
    · cases event <;> nofun
    · cases event <;> nofun
    · rw [hf, settled_nextEvent]
    · cases event <;> nofun
  | leave hf =>
    exact h.setFlusher (append_nil s.calls).symm (by rw [hf]; nofun) nofun nofun
      (fun _ => by rw [hf]; rfl) nofun
  | deltaOk hf => exact h.deltaOk hseq hflow hf
  | @deltaErr _ drain _ hf | @storageErr _ drain _ hf =>
    refine h.setFlusher rfl (by rw [hf]; nofun) ?_ ?_ (fun _ => by rw [hf]; rfl) ?_ <;>
      cases drain <;> nofun
  | deltaPanics hf | storagePanics hf =>
    exact h.setFlusher rfl (by rw [hf]; nofun) nofun nofun nofun nofun
  | publish hf hv => exact h.publish hseq hflow hf hv
  | publishPanics hf | drained hf =>
    exact h.setFlusher (append_nil s.calls).symm (by rw [hf]; nofun) nofun nofun nofun nofun
  | updateWritten hf => exact h.updateWritten hf
  | storageOk hf => exact h.storageOk hseq hflow hf
  | updateDurable hf => exact h.updateDurable hf

variable {ok : State D R F → Label W → Prop}

theorem marked_run {delta} (hrun : Run (State.step ops threshold) ok (State.init delta) ls s) :
    Marked s := by
  refine hrun.invariant_reachable (marked_init delta) ?_
  intro ls s l s' hrun hmarked _ hstep
  obtain ⟨hseq, hflow⟩ := flow_run hrun
  cases l with
  | writer =>
    have hmove : WriterMove ops s s' := writerMove_of_step hstep
    exact hmarked.writerMove hseq hflow hmove
  | flusher => exact hmarked.flushMove hseq hflow (flushMove_of_step hstep)

/-! ### What a waiter can rely on -/

def Numbered (s : State D R F) : Prop :=
  1 ≤ s.epoch ∧ ∀ applied, .ok applied ∈ s.writeResults → 1 ≤ applied.epoch

theorem Numbered.write (h : Numbered s) (w : W) : Numbered (s.write ops w) := by
  refine ⟨Nat.le_succ_of_le h.1, ?_⟩
  intro applied hmem
  rcases mem_append.mp hmem with hmem | hmem
  · exact h.2 applied hmem
  · -- The result of this write carries the epoch before it.
    have hsent := mem_singleton.mp hmem
    split at hsent
    · cases hsent
      exact h.1
    · cases hsent

theorem numbered_run {delta} (hrun : Run (State.step ops threshold) ok (State.init delta) ls s) :
    Numbered s := by
  refine hrun.invariant_reachable ⟨Nat.le_refl 1, nofun⟩ ?_
  intro ls s l s' hrun h _ hstep
  cases l with
  | writer =>
    have hmove : WriterMove ops s s' := writerMove_of_step hstep
    cases hmove with
    | write => exact h.write _
    | freezePanics hw hpoisoned =>
      exact absurd hpoisoned ((flow_run hrun).2.not_poisoned (by rw [hw]; rfl))
    | _ => exact h
  | flusher =>
    cases flushMove_of_step hstep <;> exact h

/-- `calls` has an `Ok` of `flush_delta` for the delta with the epoch, and for every delta with
smaller ones. -/
structure FlushedThrough (s : State D R F) (calls : List (FlushCall F)) (epoch : Nat) : Prop where
  contained : ∃ frozen ∈ s.frozenLog,
    frozen.epochRange.start ≤ epoch ∧ epoch < frozen.epochRange.stop
  flushed : ∀ frozen ∈ s.frozenLog, frozen.epochRange.start ≤ epoch → .delta frozen true ∈ calls

/-- The watermarks are ordered. -/
def EpochWatermarks.Ordered (w : EpochWatermarks) (epoch : Nat) : Prop :=
  w.durable ≤ w.written ∧ w.written ≤ w.applied ∧ w.applied < epoch

theorem Marked.ordered (h : Marked s) (hseq : Sequenced s) (hflow : Flow s) :
    s.watermarks.Ordered s.epoch := by
  have hlt := h.published_lt hseq hflow
  have hle := h.written_le
  have hat := hseq.writer
  refine ⟨h.durable_le, ?_, ?_⟩
  · rw [WriterAt] at hat
    split at hat <;> first | omega | exact hat.elim
  · rw [WriterAt] at hat
    split at hat <;> first | omega | exact hat.elim

theorem Marked.get_le (h : Marked s) (hseq : Sequenced s) (hflow : Flow s) {l}
    (hstep : s.step ops threshold l = some s') (durability : Durability) :
    s.watermarks.get durability ≤ s'.watermarks.get durability := by
  cases l with
  | writer =>
    have hmove : WriterMove ops s s' := writerMove_of_step hstep
    cases hmove with
    | updateApplied hw =>
      have hat := hseq.writer
      rw [WriterAt, hw] at hat
      cases durability with
      | applied => exact Nat.le_of_succ_le (Nat.le_of_eq hat.1)
      | written | durable => exact Nat.le_refl _
    | freezePanics hw hpoisoned =>
      exact absurd hpoisoned (hflow.not_poisoned (by rw [hw]; rfl))
    | _ => exact Nat.le_refl _
  | flusher =>
    cases flushMove_of_step hstep with
    | updateWritten hf =>
      have hle := h.written_le
      rw [State.published, hf] at hle
      cases durability with
      | applied | durable => exact Nat.le_refl _
      | written => exact hle
    | updateDurable hf =>
      have hlast := h.settled (by rw [hf]; rfl)
      have hle := h.durable_le
      cases durability with
      | applied | written => exact Nat.le_refl _
      | durable => exact Nat.le_trans hle (Nat.le_of_eq hlast.symm)
    | _ => exact Nat.le_refl _

theorem Marked.flushedThrough (h : Marked s) (hseq : Sequenced s) (hflow : Flow s) {epoch}
    (hone : 1 ≤ epoch) (hle : epoch ≤ s.watermarks.written) : FlushedThrough s s.calls epoch := by
  have hpub := h.written_le
  refine ⟨?_, ?_⟩
  · obtain ⟨r, hr, hin⟩ := h.published.exists_contains hone (by omega)
    obtain ⟨frozen, hmem, rfl⟩ := mem_map.mp hr
    refine ⟨frozen, ?_, hin⟩
    rw [← hflow.view]
    exact mem_append_left _ hmem
  · intro frozen hmem hstart
    exact h.flushed frozen (h.mem_snapshot hseq hflow hmem (by omega))

/-- In every run, with any calls of the flusher failing: the watermarks are ordered and never go
back. A `wait` for `Written` that resolves with `Ok` comes after the flushes of the delta with the
epoch of the write and of all earlier deltas, and the view does not list that delta as frozen. A
`wait` for `Durable` that resolves with `Ok` comes after a `flush_storage` that came after them. -/
theorem watermark_promises {delta : D}
    (hrun : Run (State.step ops threshold) anyStep (State.init delta) ls s) :
    s.watermarks.Ordered s.epoch ∧ (∀ l s', s.step ops threshold l = some s' →
      ∀ durability, s.watermarks.get durability ≤ s'.watermarks.get durability) ∧
    (∀ applied, .ok applied ∈ s.writeResults →
      s.waitResolves (.ok applied) .written = some applied.result →
        FlushedThrough s s.calls applied.epoch ∧
        ∀ frozen ∈ s.view.frozen, frozen.epochRange.contains applied.epoch = false) ∧
    (∀ applied, .ok applied ∈ s.writeResults →
      s.waitResolves (.ok applied) .durable = some applied.result →
        ∃ before after, s.calls = before ++ .storage true :: after ∧
          FlushedThrough s before applied.epoch) := by
  obtain ⟨hseq, hflow⟩ := flow_run hrun
  have hmarked := marked_run hrun
  have hordered := hmarked.ordered hseq hflow
  have hone := (numbered_run hrun).2
  -- A wait resolves when the watermark has reached the epoch.
  have hreached : ∀ {applied : WriteApplied R} {durability : Durability},
      s.waitResolves (.ok applied) durability = some applied.result →
        applied.epoch ≤ s.watermarks.get durability := by
    intro applied durability hwait
    rw [State.waitResolves] at hwait
    split at hwait
    · assumption
    · cases hwait
  refine ⟨hordered, fun l s' hstep => hmarked.get_le hseq hflow hstep, ?_, ?_⟩
  · intro applied hmem hwait
    have hle : applied.epoch ≤ s.watermarks.written := hreached hwait
    refine ⟨hmarked.flushedThrough hseq hflow (hone applied hmem) hle, ?_⟩
    intro frozen hfrozen
    have hlt := hmarked.lt_start_of_frozen hseq hflow hfrozen
    have hpub := hmarked.written_le
    refine Bool.eq_false_iff.mpr ?_
    intro hin
    have hin' := Span.contains_iff.mp hin
    omega
  · intro applied hmem hwait
    have hle : applied.epoch ≤ s.watermarks.durable := hreached hwait
    have hpos := hone applied hmem
    rcases hmarked.durable with hzero | ⟨before, after, hcalls, hflushed⟩
    · omega
    · have hwritten := hmarked.flushedThrough hseq hflow hpos (Nat.le_trans hle hmarked.durable_le)
      refine ⟨before, after, hcalls, hwritten.contained, ?_⟩
      intro frozen hfrozen hstart
      exact hflushed frozen hfrozen (Nat.le_trans hstart hle)

def countingOps : DeltaOps Nat Unit Unit Nat where
  apply := fun delta _ => (delta + 1, .ok ())
  estimateSize := id
  freezeAndInit := fun delta => (delta, 0)

def durableThenFailed : List (Label Unit) :=
  [.writer (.write ()), .writer .updateApplied, .writer (.flush true), .writer .freeze,
    .writer .send, .writer .send, .flusher .recv, .flusher (.deltaDone .ok), .flusher .publish,
    .flusher .updateWritten, .flusher .recv, .flusher (.storageDone .ok), .flusher .updateDurable,
    .writer (.write ()), .writer .updateApplied, .writer .leave, .writer .freeze, .writer .send,
    .writer .cancelFlush, .flusher .leave, .flusher .tryRecv,
    .flusher (.deltaDone (.err "unavailable"))]

theorem watermark_promises_durableThenFailed :
    ∃ s, Run (State.step countingOps 100) anyStep (State.init 0) durableThenFailed s ∧
      s.watermarks = ⟨2, 1, 1⟩ ∧ .ok ⟨1, ()⟩ ∈ s.writeResults ∧
      s.waitResolves (.ok ⟨1, ()⟩ : EpochResult Unit) .durable = some () ∧
      ∃ before after, s.calls = before ++ .storage true :: after ∧ FlushedThrough s before 1 := by
  obtain ⟨s, hrun, hmarks, hresult⟩ : ∃ s,
      Run (State.step countingOps 100) anyStep (State.init 0) durableThenFailed s ∧
      s.watermarks = ⟨2, 1, 1⟩ ∧
      s.writeResults.head?.map (fun r => r.toOption.map WriteApplied.epoch) = some (some 1) :=
    Run.exists_of_check (by decide +kernel)
  obtain ⟨received, hhead, hepoch⟩ := Option.map_eq_some_iff.mp hresult
  have hmem : .ok ⟨1, ()⟩ ∈ s.writeResults := by
    obtain ⟨applied, hok, hone⟩ := Option.map_eq_some_iff.mp hepoch
    cases received with
    | error => cases hok
    | ok applied' =>
      obtain ⟨epoch, u⟩ := applied'
      cases hok
      obtain rfl : epoch = 1 := hone
      exact mem_of_head? hhead
  have hwait : s.waitResolves (.ok ⟨1, ()⟩ : EpochResult Unit) .durable = some () := by
    rw [State.waitResolves, hmarks]
    rfl
  exact ⟨s, hrun, hmarks, hmem, hwait, (watermark_promises hrun).2.2.2 ⟨1, ()⟩ hmem hwait⟩

end OpenData.Coordinator

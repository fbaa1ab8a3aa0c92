import OpenData.Proofs.Common.Flow

/-!
# The epochs of a write coordinator, and its shutdown

`epoch_partition`: as long as no flush of a delta fails, every assigned epoch is in exactly one of
the flushed snapshot, the frozen deltas of the view and the current delta. Also when flushes fail,
the deltas are those of a task that applies the writes one after the other (`deltas_sequential`).
`stop_ok` is about the shutdown.
-/

namespace OpenData.Coordinator

open Lib List Option State

variable {D W R F : Type} {ops : DeltaOps D W R F} {threshold : Nat} {s s' : State D R F}
  {l : Label W} {ls : List (Label W)}

/-! ### Every epoch is in one place -/

/-- The condition that no call of `flush_delta` fails. -/
def flushDeltaSucceeds (_ : State D R F) : Label W → Prop
  | .flusher (.deltaDone outcome) => outcome = .ok
  | _ => True

/-- The epoch ranges of the snapshot, of the frozen deltas from the last to the first, and of the
current delta. -/
def State.ranges (s : State D R F) : List EpochRange :=
  (s.view.snapshot ++ s.view.frozen.reverse).map EpochStamped.epochRange
    ++ [⟨s.deltaStartEpoch, s.epoch⟩]

/-- The ranges of the frozen deltas partition the epochs, in order. -/
structure EpochPartition (s : State D R F) : Prop where
  consecutive : ∃ flushed, Spans 1 (s.view.snapshot.map EpochStamped.epochRange) flushed ∧
    Spans flushed (s.view.frozen.reverse.map EpochStamped.epochRange) s.deltaStartEpoch
  current : s.deltaStartEpoch ≤ s.epoch
  once : ∀ x, s.ranges.countP (fun r => r.contains x) = if 1 ≤ x ∧ x < s.epoch then 1 else 0
  updates : ∀ frozen snapshot drain, s.flusher = .publishing frozen snapshot drain →
    (s.view.updateFlushFinished snapshot frozen.epochRange).isSome = true
  unpoisoned : s.poisoned = false

theorem Sequenced.current_le (h : Sequenced s) : s.deltaStartEpoch ≤ s.epoch := by
  have hat := h.writer
  rw [WriterAt] at hat
  split at hat
  · exact hat.2
  · omega
  · exact hat.2
  · exact hat.elim
  · exact Nat.le_of_eq hat.2

theorem Sequenced.consecutive (h : Sequenced s) (hflow : Flow s) :
    ∃ flushed, Spans 1 (s.view.snapshot.map EpochStamped.epochRange) flushed ∧
      Spans flushed (s.view.frozen.reverse.map EpochStamped.epochRange) s.deltaStartEpoch := by
  have hchain := h.chain
  rw [← hflow.view, map_append] at hchain
  exact spans_append.mp hchain

theorem Sequenced.once (h : Sequenced s) (hflow : Flow s) (x : Nat) :
    s.ranges.countP (fun r => r.contains x) = if 1 ≤ x ∧ x < s.epoch then 1 else 0 := by
  have hchain := h.chain
  have hle := h.current_le
  have hone := hchain.le
  rw [← hflow.view] at hchain
  rw [State.ranges, countP_append, hchain.countP_contains, countP_singleton]
  -- The epoch is in the current delta, before it, or not assigned.
  by_cases hcur : s.deltaStartEpoch ≤ x ∧ x < s.epoch
  · rw [if_neg (by omega), if_pos (Span.contains_iff.mpr hcur), if_pos (by omega)]
  · rw [if_neg (fun hc => hcur (Span.contains_iff.mp hc)), Nat.add_zero]
    by_cases hin : 1 ≤ x ∧ x < s.deltaStartEpoch
    · rw [if_pos hin, if_pos (by omega)]
    · rw [if_neg hin, if_neg (by omega)]

/-- No flush has failed so far. -/
structure NoFailure (s : State D R F) : Prop where
  failed : s.failed = []
  unpoisoned : s.poisoned = false

theorem NoFailure.flushMove {l} (h : NoFailure s) (hflow : Flow s)
    (hok : flushDeltaSucceeds s (.flusher l : Label W)) (hmove : FlushMove s l s') :
    NoFailure s' := by
  cases hmove with
  | deltaOk => exact ⟨(failed_deltaOk ..).trans h.failed, h.unpoisoned⟩
  | deltaErr | deltaPanics => cases hok
  | publishPanics hf hv =>
    obtain ⟨rest, -, -, -, hv'⟩ := hflow.publish_eq h.failed hf
    rw [hv'] at hv
    cases hv
  | storageOk | storageErr | storagePanics =>
    exact ⟨(failed_storageDone ..).trans h.failed, h.unpoisoned⟩
  | take | leave | publish | updateWritten | updateDurable | drained =>
    exact ⟨h.failed, h.unpoisoned⟩

theorem NoFailure.writerMove (h : NoFailure s) (hmove : WriterMove ops s s') : NoFailure s' := by
  cases hmove with
  | freezePanics hw hpoisoned =>
    rw [h.unpoisoned] at hpoisoned
    cases hpoisoned
  | _ => exact ⟨h.failed, h.unpoisoned⟩

theorem noFailure_run {delta}
    (hrun : Run (step ops threshold) flushDeltaSucceeds (init delta) ls s) :
    NoFailure s := by
  refine hrun.invariant_reachable ⟨rfl, rfl⟩ ?_
  intro ls s l s' hrun hnone hok hstep
  cases l with
  | writer =>
    have hmove : WriterMove ops s s' := writerMove_of_step hstep
    exact hnone.writerMove hmove
  | flusher => exact hnone.flushMove (flow_run hrun).2 hok (flushMove_of_step hstep)

/-- In every run in which no call of `flush_delta` fails: the flushed epochs, the frozen deltas of
the view from the last to the first, and the current delta partition the epochs `1, …, epoch - 1`,
and the view update of the flush task does not panic. -/
theorem epoch_partition {delta : D}
    (hrun : Run (step ops threshold) flushDeltaSucceeds (init delta) ls s) :
    EpochPartition s := by
  obtain ⟨hseq, hflow⟩ := flow_run hrun
  have hnone := noFailure_run hrun
  refine ⟨hseq.consecutive hflow, hseq.current_le, hseq.once hflow, ?_, hnone.unpoisoned⟩
  intro frozen snapshot drain hf
  obtain ⟨rest, -, -, -, hv⟩ := hflow.publish_eq hnone.failed hf
  rw [hv]
  rfl

def sampleOps : DeltaOps (List Nat) Nat Nat (List Nat) where
  apply := fun delta w =>
    if w = 0 then (delta, .error "zero") else (delta ++ [w], .ok delta.length)
  estimateSize := List.length
  freezeAndInit := fun delta => (delta, [])

/-- Two writes are flushed with their storage, the second one rejected. A third write is frozen
while the flush task works. -/
def overlappingFlushes : List (Label Nat) :=
  [.writer (.write 5), .writer .updateApplied, .writer (.write 0), .writer .updateApplied,
    .writer (.flush true), .writer .freeze, .writer .send, .flusher .recv, .writer .send,
    .writer (.write 7), .writer .updateApplied, .flusher (.deltaDone .ok), .writer .tick,
    .writer .freeze, .flusher .publish, .writer .send, .writer (.write 8)]

theorem epoch_partition_overlappingFlushes :
    ∃ s, Run (step sampleOps 100) flushDeltaSucceeds (init []) overlappingFlushes s ∧
      s.ranges = [⟨1, 3⟩, ⟨3, 4⟩, ⟨4, 5⟩] ∧ EpochPartition s := by
  obtain ⟨s, hrun, hranges⟩ : ∃ s, Run (step sampleOps 100) anyStep (init []) overlappingFlushes s ∧
      s.ranges = [⟨1, 3⟩, ⟨3, 4⟩, ⟨4, 5⟩] := Run.exists_of_check (by decide +kernel)
  have hrun : Run (step sampleOps 100) flushDeltaSucceeds (init [])
      overlappingFlushes s := by
    refine hrun.of_labels ?_
    simp [overlappingFlushes, flushDeltaSucceeds]
  exact ⟨s, hrun, hranges, epoch_partition hrun⟩

/-! ### What the deltas hold -/

/-- The writes of a run, in the order of their epochs. -/
def writesOf (ls : List (Label W)) : List W :=
  ls.filterMap fun
    | .writer (.write w) => some w
    | _ => none

def DeltaOps.applyAll (ops : DeltaOps D W R F) (delta : D) (writes : List W) : D :=
  writes.foldl (fun delta w => (ops.apply delta w).1) delta

/-- The frozen deltas, the delta behind them and its first epoch, when the next writes are applied
and frozen. -/
def DeltaOps.freezeNext (ops : DeltaOps D W R F) (r : List (EpochStamped F) × D × Nat)
    (writes : List W) : List (EpochStamped F) × D × Nat :=
  let (frozen, delta) := ops.freezeAndInit (ops.applyAll r.2.1 writes)
  (r.1 ++ [⟨frozen, ⟨r.2.2, r.2.2 + writes.length⟩⟩], delta, r.2.2 + writes.length)

/-- The deltas are those of one task that applies the writes in their order and freezes the delta
behind each chunk of them. -/
def Sequential (ops : DeltaOps D W R F) (delta : D) (writes : List W) (s : State D R F) : Prop :=
  ∃ (chunks : List (List W)) (current : List W) (last : D), writes = chunks.flatten ++ current ∧
    chunks.foldl ops.freezeNext ([], delta, 1) = (s.frozenLog, last, s.deltaStartEpoch) ∧
    s.delta = ops.applyAll last current ∧ s.epoch = s.deltaStartEpoch + current.length

variable {delta : D} {writes : List W}

theorem Sequential.write (h : Sequential ops delta writes s) (w : W) :
    Sequential ops delta (writes ++ [w]) (s.write ops w) := by
  obtain ⟨chunks, current, last, rfl, hchunks, hdelta, hepoch⟩ := h
  refine ⟨chunks, current ++ [w], last, append_assoc .., hchunks, ?_, ?_⟩
  · rw [DeltaOps.applyAll, foldl_append]
    exact congrArg (fun delta => (ops.apply delta w).1) hdelta
  · rw [length_append, ← Nat.add_assoc]
    exact congrArg (· + 1) hepoch

theorem Sequential.freeze (h : Sequential ops delta writes s) (next : AfterFlush) :
    Sequential ops delta writes (s.freeze ops next) := by
  obtain ⟨chunks, current, last, rfl, hchunks, hdelta, hepoch⟩ := id h
  have hfrozen : (chunks ++ [current]).foldl ops.freezeNext ([], delta, 1) =
      (s.frozenLog ++ [⟨(ops.freezeAndInit s.delta).1, ⟨s.deltaStartEpoch, s.epoch⟩⟩],
        (ops.freezeAndInit s.delta).2, s.epoch) := by
    rw [foldl_append, hchunks, hdelta, hepoch]
    rfl
  rw [State.freeze]
  split
  · exact h
  · dsimp only
    split <;> exact ⟨chunks ++ [current], [], _, by simp, hfrozen, rfl, rfl⟩

theorem Sequential.step (h : Sequential ops delta (writesOf ls) s)
    (hstep : s.step ops threshold l = some s') :
    Sequential ops delta (writesOf (ls ++ [l])) s' := by
  have happend : writesOf (ls ++ [l]) = writesOf ls ++ writesOf [l] := filterMap_append ..
  have hsame (hnone : writesOf [l] = []) : Sequential ops delta (writesOf (ls ++ [l])) s := by
    rwa [happend, hnone, append_nil]
  cases l with
  | flusher l => cases flushMove_of_step hstep <;> exact hsame rfl
  | writer l =>
    cases l with
    | write w =>
      simp only [State.step, stepWriter] at hstep
      split at hstep
      · cases hstep
        rw [happend]
        exact h.write w
      · cases hstep
    | freeze =>
      simp only [State.step, stepWriter] at hstep
      split at hstep
      · cases hstep
        exact (hsame rfl).freeze _
      · cases hstep
    | updateApplied | flush | tick | leave | send | cancelFlush | join =>
      -- The other steps leave the deltas as they are.
      simp only [State.step, stepWriter, State.send, State.join] at hstep
      repeat' split at hstep
      all_goals
        cases hstep
        try exact hsame rfl

/-- In every run, with any calls of the flusher failing: the deltas are those of a single task that
applies the writes one after the other and freezes the delta behind each chunk of them. The view has
all frozen deltas, in the snapshot or behind it, and each delta the writes of its epochs. -/
theorem deltas_sequential (hrun : Run (step ops threshold) anyStep (init delta) ls s) :
    Sequential ops delta (writesOf ls) s ∧
      s.view.snapshot ++ s.view.frozen.reverse = s.frozenLog := by
  refine ⟨?_, (flow_run hrun).2.view⟩
  exact hrun.history (I := fun ls s => Sequential ops delta (writesOf ls) s)
    ⟨[], [], delta, rfl, rfl, rfl, rfl⟩ fun ls s l s' h _ hstep => h.step hstep

theorem deltas_sequential_overlappingFlushes :
    ∃ s, Run (step sampleOps 100) anyStep (init []) overlappingFlushes s ∧
      s.view.snapshot ++ s.view.frozen.reverse = [⟨[5], ⟨1, 3⟩⟩, ⟨[7], ⟨3, 4⟩⟩] ∧
      Sequential sampleOps [] [5, 0, 7, 8] s := by
  obtain ⟨s, hrun, hview⟩ : ∃ s, Run (step sampleOps 100) anyStep (init []) overlappingFlushes s ∧
      s.view.snapshot ++ s.view.frozen.reverse = [⟨[5], ⟨1, 3⟩⟩, ⟨[7], ⟨3, 4⟩⟩] :=
    Run.exists_of_check (by decide +kernel)
  exact ⟨s, hrun, hview, (deltas_sequential hrun).1⟩

/-! ### What a successful stop means -/

/-- The condition that no call of `flush_delta` returns an error in the drain of the flush task. -/
def drainSucceeds (s : State D R F) : Label W → Prop
  | .flusher (.deltaDone (.err _)) => ∀ frozen, s.flusher ≠ .flushing frozen true
  | _ => True

/-- A sound flush task has met no error, the deltas of the snapshot were flushed, and a write task
that ended with `Ok` has seen the flush task do so. -/
structure Shutdown (s : State D R F) : Prop where
  sound : s.flusher.sound = true → s.failed = []
  flushed : ∀ frozen ∈ s.storage, .delta frozen true ∈ s.calls
  ended : s.writer = .finished (.ok ()) → s.flusher = .finished (.ok ())

theorem shutdown_init (delta : D) : Shutdown (init delta : State D R F) where
  sound := fun _ => rfl
  flushed := nofun
  ended := nofun

theorem Shutdown.writerMove (h : Shutdown s) (hflow : Flow s) (hmove : WriterMove ops s s') :
    Shutdown s' := by
  have hpc : ∀ next : AfterFlush, (next.pc : WriterPc F) ≠ .finished (.ok ()) := by
    intro next
    cases next <;> nofun
  cases hmove with
  | write | enter | freeze | cancel => exact ⟨h.sound, h.flushed, nofun⟩
  | updateApplied hw hnext =>
    refine ⟨h.sound, h.flushed, ?_⟩
    rcases hnext with rfl | rfl <;> nofun
  | skip | sent | dropped => exact ⟨h.sound, h.flushed, fun hdone => absurd hdone (hpc _)⟩
  | freezePanics hw hpoisoned =>
    exact absurd hpoisoned (hflow.not_poisoned (by rw [hw]; rfl))
  | joined hw hover hresult =>
    refine ⟨h.sound, h.flushed, ?_⟩
    intro hdone
    exact hresult (WriterPc.finished.inj hdone)

theorem Shutdown.recorded (h : Shutdown s) (call : FlushCall F) :
    ∀ frozen ∈ s.storage, .delta frozen true ∈ s.calls ++ [call] := by
  intro frozen hmem
  exact mem_append_left _ (h.flushed frozen hmem)

theorem Shutdown.flushMove {l} (h : Shutdown s)
    (hok : drainSucceeds s (.flusher l : Label W)) (hmove : FlushMove s l s') : Shutdown s' := by
  -- A flush task that moves has not ended, so the write task has not ended with `Ok`.
  have hended : ∀ {pc : FlushPc F} {P : Prop}, s.flusher = pc → pc ≠ .finished (.ok ()) →
      s.writer = .finished (.ok ()) → P := by
    intro pc P hf hne hdone
    exact absurd (hf.symm.trans (h.ended hdone)) hne
  -- After a panic or an error in the loop nothing is claimed about the failed calls.
  have hunsound : ∀ {P : Prop}, false = true → P := fun h => absurd h Bool.false_ne_true
  cases hmove with
  | @take _ drain event channel hf =>
    refine ⟨fun _ => h.sound (by rw [hf, sound_nextEvent]), h.flushed, hended hf ?_⟩
    cases drain <;> simp [nextEvent]
  | leave hf | publish hf | updateWritten hf | updateDurable hf | drained hf =>
    exact ⟨fun _ => h.sound (by rw [hf]; rfl), h.flushed, hended hf (by simp)⟩
  | @deltaOk frozen drain hf =>
    refine ⟨fun _ => ?_, ?_, hended hf (by simp)⟩
    · exact (failed_deltaOk ..).trans (h.sound (by rw [hf]; rfl))
    · intro frozen' hmem
      rcases mem_append.mp hmem with hmem | hmem
      · exact h.recorded _ frozen' hmem
      · obtain rfl := mem_singleton.mp hmem
        exact mem_append_right _ (mem_singleton.mpr rfl)
  | @deltaErr frozen drain msg hf =>
    cases drain with
    | false => exact ⟨hunsound, h.recorded _, hended hf (by simp)⟩
    | true => exact absurd hf (hok frozen)
  | deltaPanics hf | storagePanics hf => exact ⟨hunsound, h.recorded _, hended hf (by simp)⟩
  | publishPanics hf hv => exact ⟨hunsound, h.flushed, hended hf (by simp)⟩
  | storageOk hf | storageErr hf =>
    refine ⟨fun _ => ?_, h.recorded _, hended hf (by simp)⟩
    exact (failed_storageDone ..).trans (h.sound (by rw [hf]; rfl))

theorem shutdown_run {delta}
    (hrun : Run (step ops threshold) drainSucceeds (init delta) ls s) : Shutdown s := by
  refine hrun.invariant_reachable (shutdown_init delta) ?_
  intro ls s l s' hrun hinv hok hstep
  cases l with
  | writer =>
    have hmove : WriterMove ops s s' := writerMove_of_step hstep
    exact hinv.writerMove (flow_run hrun).2 hmove
  | flusher => exact hinv.flushMove hok (flushMove_of_step hstep)

theorem storage_eq_frozenLog (h : Shutdown s) (hflow : Flow s)
    (hdone : s.writer = .finished (.ok ())) : s.storage = s.frozenLog := by
  have hf := h.ended hdone
  have hsound : s.flusher.sound = true := by rw [hf]; rfl
  have hnone := h.sound hsound
  have hqueue := hflow.queue hsound
  have hstorage := hflow.storage hsound hnone
  have hview := hflow.view
  -- Nothing is on its way any more, so the view has no frozen delta.
  rw [hnone, inFlight, hf, hdone, hflow.drained hf] at hqueue
  have hfrozen : s.view.frozen.reverse = [] := hqueue
  rw [hfrozen, append_nil] at hview
  rw [hf] at hstorage
  rw [hstorage, ← hview]
  exact append_nil _

/-- In every run in which no call of `flush_delta` returns an error in the drain: when `stop`
returns `Ok`, no call of `flush_delta` has failed, it returned `Ok` for every frozen delta, and
every epoch that was assigned is in a delta that reached storage. -/
theorem stop_ok {delta : D} (hrun : Run (step ops threshold) drainSucceeds (init delta) ls s)
    (hstop : s.stopResult = some (.ok ())) : (∀ frozen, .delta frozen false ∉ s.calls) ∧
      (∀ frozen ∈ s.frozenLog, .delta frozen true ∈ s.calls) ∧ ∀ x, 1 ≤ x → x < s.epoch →
        ∃ frozen ∈ s.storage, frozen.epochRange.start ≤ x ∧ x < frozen.epochRange.stop := by
  have hdone : s.writer = .finished (.ok ()) := by
    rw [stopResult] at hstop
    split at hstop
    · rename_i result hw
      rw [hw, Option.some.inj hstop]
    · cases hstop
    · cases hstop
  obtain ⟨hseq, hflow⟩ := flow_run hrun
  have hinv := shutdown_run hrun
  have hstorage := storage_eq_frozenLog hinv hflow hdone
  refine ⟨?_, ?_, ?_⟩
  · intro frozen hmem
    have hfailed := hinv.sound (by rw [hinv.ended hdone]; rfl)
    have hmem' : frozen ∈ s.failed := mem_filterMap.mpr ⟨_, hmem, rfl⟩
    rw [hfailed] at hmem'
    cases hmem'
  · intro frozen hmem
    rw [← hstorage] at hmem
    exact hinv.flushed frozen hmem
  · intro x hone hlt
    -- The current delta is empty after the last flush.
    have hat := hseq.writer
    rw [WriterAt, hdone] at hat
    have hchain := hseq.chain
    rw [hat.2, ← hstorage] at hchain
    obtain ⟨r, hr, hx⟩ := hchain.exists_contains hone hlt
    obtain ⟨frozen, hmem, rfl⟩ := mem_map.mp hr
    exact ⟨frozen, hmem, hx⟩

def writeThenStop (outcome : Outcome) : List (Label Nat) :=
  [.writer (.write 5), .writer .updateApplied, .writer .leave, .writer .freeze, .writer .send,
    .writer .cancelFlush, .flusher .leave, .flusher .tryRecv, .flusher (.deltaDone outcome)]

def flushedInDrain : List (Label Nat) :=
  writeThenStop .ok ++
    [.flusher .publish, .flusher .updateWritten, .flusher .tryRecv, .writer .join]

def failedInDrain : List (Label Nat) :=
  writeThenStop (.err "unavailable") ++ [.flusher .tryRecv, .writer .join]

theorem stopResult_eq_ok (h : s.stopResult.map Except.toOption = some (some ())) :
    s.stopResult = some (.ok ()) := by
  obtain ⟨result, hresult, hok⟩ := map_eq_some_iff.mp h
  cases result with
  | error => cases hok
  | ok => exact hresult

theorem stop_ok_flushedInDrain :
    ∃ s, Run (step sampleOps 100) drainSucceeds (init []) flushedInDrain s ∧
      s.stopResult = some (.ok ()) ∧ s.epoch = 2 ∧
      ∃ frozen ∈ s.storage, frozen.epochRange.start ≤ 1 ∧ 1 < frozen.epochRange.stop := by
  obtain ⟨s, hrun, hresult, hepoch⟩ : ∃ s,
      Run (step sampleOps 100) anyStep (init []) flushedInDrain s ∧
      s.stopResult.map Except.toOption = some (some ()) ∧ s.epoch = 2 :=
    Run.exists_of_check (by decide +kernel)
  have hrun : Run (step sampleOps 100) drainSucceeds (init []) flushedInDrain s := by
    refine hrun.of_labels ?_
    simp [flushedInDrain, writeThenStop, drainSucceeds]
  have hstop := stopResult_eq_ok hresult
  exact ⟨s, hrun, hstop, hepoch, (stop_ok hrun hstop).2.2 1 (Nat.le_refl 1) (by omega)⟩

/-- The only delta fails in the drain. Its error is ignored, and `stop` returns `Ok`. -/
theorem drain_error_lost : ∃ s, Run (step sampleOps 100) anyStep (init []) failedInDrain s ∧
      s.epoch = 2 ∧ s.watermarks.applied = 1 ∧ s.storage = [] ∧
      s.frozenLog = [⟨[5], ⟨1, 2⟩⟩] ∧ s.calls = [.delta ⟨[5], ⟨1, 2⟩⟩ false] ∧
      s.stopResult = some (.ok ()) := by
  obtain ⟨s, hrun, hepoch, happlied, hstorage, hlog, hcalls, hresult⟩ : ∃ s,
      Run (step sampleOps 100) anyStep (init []) failedInDrain s ∧ s.epoch = 2 ∧
      s.watermarks.applied = 1 ∧ s.storage = [] ∧ s.frozenLog = [⟨[5], ⟨1, 2⟩⟩] ∧
      s.calls = [.delta ⟨[5], ⟨1, 2⟩⟩ false] ∧
      s.stopResult.map Except.toOption = some (some ()) := Run.exists_of_check (by decide +kernel)
  exact ⟨s, hrun, hepoch, happlied, hstorage, hlog, hcalls, stopResult_eq_ok hresult⟩

end OpenData.Coordinator

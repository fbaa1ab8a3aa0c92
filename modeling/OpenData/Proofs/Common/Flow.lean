import OpenData.Lib.Run
import OpenData.Proofs.Common.CoordinatorSteps

/-!
# Where the frozen deltas are

Two invariants of the write coordinator. `Sequenced` is about the write task alone: the frozen
deltas and the current one cover the epochs without a gap. `Flow` relates the two tasks: as long as
the flush task is sound, the frozen deltas of the view are the ones whose flush failed, then the
ones on their way to storage, oldest first. A delta on its way is in the hands of the flush task,
in the channel, or in the hands of the write task.
-/

namespace OpenData.Coordinator

open Lib List FlushEvent State

variable {watermarks : EpochWatermarks} {next : AfterFlush} {drain : Bool}

variable {D W R F : Type} {ops : DeltaOps D W R F} {threshold : Nat} {s s' : State D R F}
  {l : Label W} {ls : List (Label W)}

/-! ### Where the frozen deltas are -/

def WriterPc.held : WriterPc F → List (EpochStamped F)
  | .sending (.flushDelta frozen) _ => [frozen]
  | _ => []

def WriterPc.stopped : WriterPc F → Bool
  | .joining => true
  | .finished _ => true
  | _ => false

def FlushPc.held : FlushPc F → List (EpochStamped F)
  | .flushing frozen _ => [frozen]
  | .publishing frozen _ _ => [frozen]
  | _ => []

def FlushPc.stored : FlushPc F → List (EpochStamped F)
  | .publishing frozen _ _ => [frozen]
  | _ => []

def FlushPc.sound : FlushPc F → Bool
  | .finished (.error _) => false
  | .panicked => false
  | _ => true

/-- The flush task has left its loop. -/
def FlushPc.left : FlushPc F → Bool
  | .flushing _ drain => drain
  | .publishing _ _ drain => drain
  | .marking drain => drain
  | .syncing drain => drain
  | .recording drain => drain
  | .draining => true
  | .finished (.ok _) => true
  | _ => false

def FlushEvent.delta? : FlushEvent F → Option (EpochStamped F)
  | .flushDelta frozen => some frozen
  | .flushStorage => none

def FlushCall.failed? : FlushCall F → Option (EpochStamped F)
  | .delta frozen false => some frozen
  | _ => none

def State.failed (s : State D R F) : List (EpochStamped F) := s.calls.filterMap FlushCall.failed?

@[simp] theorem failed_deltaOk (s : State D R F) (frozen : EpochStamped F) (drain : Bool) :
    (s.deltaDone frozen drain .ok).failed = s.failed := by
  simp [failed, deltaDone, FlushCall.failed?]

@[simp] theorem failed_deltaErr (s : State D R F) (frozen : EpochStamped F) (drain : Bool)
    (msg : String) : (s.deltaDone frozen drain (.err msg)).failed = s.failed ++ [frozen] := by
  simp [failed, deltaDone, FlushCall.failed?]

@[simp] theorem failed_storageDone (s : State D R F) (drain : Bool) (outcome : Outcome) :
    (s.storageDone drain outcome).failed = s.failed := by
  cases outcome <;> simp [failed, storageDone, FlushCall.failed?]

def State.inFlight (s : State D R F) : List (EpochStamped F) :=
  s.flusher.held ++ s.channel.filterMap delta? ++ s.writer.held

@[simp] theorem held_afterFlush (next : AfterFlush) : (next.pc : WriterPc F).held = [] := by
  cases next <;> rfl

@[simp] theorem stopped_afterFlush (next : AfterFlush) :
    (next.pc : WriterPc F).stopped = false := by
  cases next <;> rfl

@[simp] theorem held_nextEvent (drain : Bool) : (nextEvent drain : FlushPc F).held = [] := by
  cases drain <;> rfl

@[simp] theorem stored_nextEvent (drain : Bool) : (nextEvent drain : FlushPc F).stored = [] := by
  cases drain <;> rfl

@[simp] theorem left_nextEvent (drain : Bool) : (nextEvent drain : FlushPc F).left = drain := by
  cases drain <;> rfl

@[simp] theorem sound_nextEvent (drain : Bool) : (nextEvent drain : FlushPc F).sound = true := by
  cases drain <;> rfl

variable (event : FlushEvent F)

@[simp] theorem held_event (drain : Bool) : (event.pc drain).held = event.delta?.toList := by
  cases event <;> rfl

@[simp] theorem stored_event (drain : Bool) : (event.pc drain).stored = [] := by
  cases event <;> rfl

@[simp] theorem left_event (drain : Bool) : (event.pc drain).left = drain := by
  cases event <;> rfl

/-- A frozen delta is in the snapshot, failed, or on its way, and the order is kept. -/
structure Flow (s : State D R F) : Prop where
  view : s.view.snapshot ++ s.view.frozen.reverse = s.frozenLog
  queue : s.flusher.sound = true → s.view.frozen.reverse = s.failed ++ s.inFlight
  loop : s.flusher.sound = true → s.flusher.left = false → s.failed = []
  left : s.flusher.left = true → s.flushStopped = true
  stopped : s.flushStopped = s.writer.stopped
  poisoned : s.poisoned = true → s.flushStopped = true
  drained : s.flusher = .finished (.ok ()) → s.channel = []
  storage : s.flusher.sound = true → s.failed = [] →
    s.storage = s.view.snapshot ++ s.flusher.stored
  published : ∀ frozen snapshot drain, s.flusher = .publishing frozen snapshot drain →
    snapshot = s.storage

theorem flow_init (delta : D) : Flow (init delta : State D R F) where
  view := rfl
  queue := fun _ => rfl
  loop := fun _ _ => rfl
  left := nofun
  stopped := rfl
  poisoned := nofun
  drained := nofun
  storage := fun _ _ => rfl
  published := nofun

theorem Flow.not_left (h : Flow s) (hw : s.writer.stopped = false) : s.flusher.left = false := by
  cases hleft : s.flusher.left with
  | false => rfl
  | true =>
    have hstop := h.left hleft
    rw [h.stopped, hw] at hstop
    cases hstop

theorem Flow.not_poisoned (h : Flow s) (hw : s.writer.stopped = false) : s.poisoned ≠ true := by
  intro hpoisoned
  have hstop := h.poisoned hpoisoned
  rw [h.stopped, hw] at hstop
  cases hstop

variable {delta : D}

theorem Flow.setWriter {writer epoch}
    {writeResults : List (EpochResult R)} {flushResults} (h : Flow s)
    (hheld : writer.held = s.writer.held) (hstopped : writer.stopped = s.writer.stopped) :
    Flow { s with writer, delta, epoch, watermarks, writeResults, flushResults } where
  __ := h
  queue := by
    intro hsound
    show s.view.frozen.reverse
      = s.failed ++ (s.flusher.held ++ s.channel.filterMap delta? ++ writer.held)
    rw [hheld]
    exact h.queue hsound
  stopped := h.stopped.trans hstopped.symm

variable {frozen : EpochStamped F}

theorem Flow.freeze (h : Flow s) (hw : s.writer = .flushing next) : Flow { s with
      delta
      deltaStartEpoch := s.epoch
      frozenLog := s.frozenLog ++ [frozen]
      view := s.view.updateDeltaFrozen frozen
      writer := .sending (.flushDelta frozen) next } where
  view := by
    show s.view.snapshot ++ (frozen :: s.view.frozen).reverse = s.frozenLog ++ [frozen]
    rw [reverse_cons, ← append_assoc, h.view]
  queue := by
    intro hsound
    have hqueue := h.queue hsound
    show (frozen :: s.view.frozen).reverse = s.failed
      ++ (s.flusher.held ++ s.channel.filterMap delta? ++ [frozen])
    rw [inFlight, hw] at hqueue
    rw [reverse_cons, hqueue]
    simp [WriterPc.held]
  __ := h
  stopped := by
    have hstopped := h.stopped
    rwa [hw] at hstopped

variable {event : FlushEvent F}

theorem Flow.send (h : Flow s) (hw : s.writer = .sending event next)
    (hopen : s.flusher.over = false) :
    Flow { s with channel := s.channel ++ [event], writer := next.pc } where
  __ := h
  queue := by
    intro hsound
    have hqueue := h.queue hsound
    have hheld : (WriterPc.sending event next).held = event.delta?.toList := by cases event <;> rfl
    rw [inFlight, hw, hheld] at hqueue
    show s.view.frozen.reverse = s.failed ++ (s.flusher.held
      ++ (s.channel ++ [event]).filterMap delta? ++ (next.pc : WriterPc F).held)
    have hone : [event].filterMap delta? = event.delta?.toList := by cases event <;> rfl
    rw [hqueue, filterMap_append, held_afterFlush, append_nil, append_assoc, hone]
  stopped := by
    have hstopped := h.stopped
    rw [hw] at hstopped
    exact hstopped.trans (stopped_afterFlush next).symm
  drained := by
    intro hf
    have hf' : s.flusher = .finished (.ok ()) := hf
    rw [hf'] at hopen
    cases hopen

/-- The flush task is over, and it has not left its loop in good order, as the write task still
sends: the message is lost. -/
theorem Flow.dropped (h : Flow s) (hw : s.writer = .sending event next)
    (hover : s.flusher.over = true) : Flow { s with writer := next.pc } := by
  have hleft := h.not_left (by rw [hw]; rfl)
  have hunsound : s.flusher.sound = false := by
    cases hf : s.flusher with
    | finished result =>
      cases result with
      | ok =>
        rw [hf] at hleft
        cases hleft
      | error => rfl
    | panicked => rfl
    | _ =>
      rw [hf] at hover
      cases hover
  refine ⟨h.view, ?_, h.loop, h.left, ?_, h.poisoned, h.drained, h.storage, h.published⟩
  · intro hsound
    have hsound' : s.flusher.sound = true := hsound
    rw [hunsound] at hsound'
    cases hsound'
  · have hstopped := h.stopped
    rw [hw] at hstopped
    exact hstopped.trans (stopped_afterFlush next).symm

theorem Flow.writerMove (h : Flow s) (hmove : WriterMove ops s s') : Flow s' := by
  cases hmove with
  | write hw | enter hw | joined hw => exact h.setWriter (by rw [hw]; rfl) (by rw [hw]; rfl)
  | updateApplied hw hnext =>
    refine h.setWriter ?_ ?_ <;> rw [hw] <;> rcases hnext with rfl | rfl <;> rfl
  | skip hw hempty =>
    exact h.setWriter (by rw [hw, held_afterFlush]; rfl) (by rw [hw, stopped_afterFlush]; rfl)
  | freeze hw hwrites hrange => exact h.freeze hw
  | freezePanics hw hpoisoned =>
    exact absurd hpoisoned (h.not_poisoned (by rw [hw]; rfl))
  | sent hw hopen => exact h.send hw hopen
  | dropped hw hover => exact h.dropped hw hover
  | cancel hw =>
    have hqueue := h.queue
    rw [inFlight, hw] at hqueue
    exact ⟨h.view, hqueue, h.loop, fun _ => rfl, rfl, fun _ => rfl, h.drained, h.storage,
      h.published⟩

variable {calls : List (FlushCall F)}

theorem Flow.setFlusher {flusher} (h : Flow s)
    (hsame : flusher.sound = true → s.flusher.sound = true ∧ flusher.held = s.flusher.held ∧
      flusher.stored = s.flusher.stored ∧ calls.filterMap FlushCall.failed? = s.failed ∧
      (flusher.left = false → s.flusher.left = false))
    (hleft : flusher.left = true → s.flushStopped = true)
    (hdrained : flusher = .finished (.ok ()) → s.channel = [])
    (hpublished : ∀ frozen snapshot drain, flusher ≠ .publishing frozen snapshot drain) :
    Flow { s with flusher, watermarks, calls } where
  __ := h
  queue := by
    intro hsound
    obtain ⟨hsound', hheld, -, hfailed, -⟩ := hsame hsound
    show s.view.frozen.reverse = calls.filterMap FlushCall.failed?
      ++ (flusher.held ++ s.channel.filterMap delta? ++ s.writer.held)
    rw [hfailed, hheld]
    exact h.queue hsound'
  loop := by
    intro hsound hin
    obtain ⟨hsound', -, -, hfailed, hin'⟩ := hsame hsound
    exact hfailed.trans (h.loop hsound' (hin' hin))
  left := hleft
  drained := hdrained
  storage := by
    intro hsound hnone
    obtain ⟨hsound', -, hstored, hfailed, -⟩ := hsame hsound
    show s.storage = s.view.snapshot ++ flusher.stored
    rw [hstored]
    exact h.storage hsound' (hfailed.symm.trans hnone)
  published := by
    intro frozen snapshot drain hf
    exact absurd hf (hpublished frozen snapshot drain)

variable {channel : List (FlushEvent F)}

theorem Flow.take (h : Flow s) (hf : s.flusher = nextEvent drain)
    (hc : s.channel = event :: channel) : Flow { s with channel, flusher := event.pc drain } := by
  have hsound : s.flusher.sound = true := by rw [hf, sound_nextEvent]
  have hqueue := h.queue hsound
  have hsplit : (event :: channel).filterMap delta?
      = event.delta?.toList ++ channel.filterMap delta? := by cases event <;> rfl
  rw [inFlight, hf, held_nextEvent, hc, hsplit, nil_append] at hqueue
  refine ⟨h.view, fun _ => ?_, fun _ hin => ?_, fun hleft => ?_, h.stopped, h.poisoned, ?_,
    fun _ hnone => ?_, ?_⟩
  · show s.view.frozen.reverse = s.failed ++ ((event.pc drain).held
      ++ channel.filterMap delta? ++ s.writer.held)
    rw [held_event]
    exact hqueue
  · refine h.loop hsound ?_
    rw [hf, left_nextEvent, ← left_event event drain]
    exact hin
  · refine h.left ?_
    rw [hf, left_nextEvent, ← left_event event drain]
    exact hleft
  · intro hdone
    cases event <;> cases hdone
  · have hstorage := h.storage hsound hnone
    rw [hf, stored_nextEvent] at hstorage
    show s.storage = s.view.snapshot ++ (event.pc drain).stored
    rw [stored_event]
    exact hstorage
  · intro frozen snapshot d hpub
    cases event <;> cases hpub

theorem Flow.deltaOk (h : Flow s) (hf : s.flusher = .flushing frozen drain) :
    Flow (s.deltaDone frozen drain .ok) := by
  have hsound : s.flusher.sound = true := by rw [hf]; rfl
  have hqueue := h.queue hsound
  have hloop := h.loop hsound
  have hleft := h.left
  have hstorage := h.storage hsound
  rw [hf] at hloop hleft hstorage
  have hfailed := failed_deltaOk s frozen drain
  refine ⟨h.view, fun _ => ?_, fun _ hin => ?_, hleft, h.stopped, h.poisoned, nofun,
    fun _ hnone => ?_, ?_⟩
  · rw [hfailed]
    rw [inFlight, hf] at hqueue
    exact hqueue
  · rw [hfailed]
    exact hloop hin
  · rw [hfailed] at hnone
    have hnil : (FlushPc.flushing frozen drain).stored = [] := rfl
    show s.storage ++ [frozen] = s.view.snapshot ++ [frozen]
    rw [hstorage hnone, hnil, append_nil]
  · rintro _ _ _ ⟨⟩
    rfl

/-- `flush_delta` returned an error. In the loop this ends the task. In the drain the delta is
left behind. -/
theorem Flow.deltaErr {msg} (h : Flow s) (hf : s.flusher = .flushing frozen drain) :
    Flow (s.deltaDone frozen drain (.err msg)) := by
  have hqueue := h.queue (by rw [hf]; rfl)
  rw [inFlight, hf] at hqueue
  cases drain with
  | false => exact h.setFlusher nofun nofun nofun nofun
  | true =>
    have hstop : s.flushStopped = true := h.left (by rw [hf]; rfl)
    have hfailed := failed_deltaErr s frozen true msg
    refine ⟨h.view, fun _ => ?_, nofun, fun _ => hstop, h.stopped, h.poisoned, nofun,
      fun _ hnone => ?_, nofun⟩
    · rw [hfailed]
      show s.view.frozen.reverse = s.failed ++ [frozen]
        ++ ([] ++ s.channel.filterMap delta? ++ s.writer.held)
      rw [hqueue]
      simp [FlushPc.held]
    · rw [hfailed] at hnone
      simp at hnone

variable {snapshot : List (EpochStamped F)} {view : View F}

theorem updateFlushFinished_eq {last rest} (h : view.frozen.reverse = last :: rest) :
    view.updateFlushFinished snapshot last.epochRange
      = some { frozen := rest.reverse, snapshot, lastWrittenDelta := some last } := by
  have hfrozen : view.frozen = rest.reverse ++ [last] := by
    rw [← reverse_reverse view.frozen, h, reverse_cons]
  simp [View.updateFlushFinished, hfrozen]

/-- The view is published only if no flush has failed: a failed delta is older than the one that
was flushed, and it is still in the view. -/
theorem Flow.failed_nil_of_published (h : Flow s)
    (hchain : Spans 1 (s.frozenLog.map EpochStamped.epochRange) s.deltaStartEpoch)
    (hf : s.flusher = .publishing frozen snapshot drain)
    (hv : s.view.updateFlushFinished snapshot frozen.epochRange = some view) : s.failed = [] := by
  have hqueue := h.queue (by rw [hf]; rfl)
  cases hfailed : s.failed with
  | nil => rfl
  | cons older =>
    -- The oldest frozen delta is a failed one, so its epochs are others.
    rw [inFlight, hf, hfailed] at hqueue
    obtain ⟨m, -, hfrozen⟩ : ∃ m, Spans 1 (s.view.snapshot.map EpochStamped.epochRange) m ∧
        Spans m (s.view.frozen.reverse.map EpochStamped.epochRange) s.deltaStartEpoch := by
      rw [← h.view, map_append] at hchain
      exact spans_append.mp hchain
    rw [hqueue] at hfrozen
    have hne : older.epochRange ≠ frozen.epochRange := by
      refine hfrozen.head_ne (mem_map_of_mem ?_)
      simp [FlushPc.held]
    have hlast : s.view.frozen.getLast? = some older := by
      rw [← head?_reverse, hqueue]
      rfl
    rw [View.updateFlushFinished, hlast] at hv
    simp [hne] at hv

section

variable (h : Flow s) (hnone : s.failed = []) (hf : s.flusher = .publishing frozen snapshot drain)
include h hnone hf

/-- The flush of the oldest frozen delta is published: it moves from the frozen deltas of the view
to its snapshot. -/
theorem Flow.publish_eq : ∃ rest, s.view.frozen.reverse = frozen :: rest ∧
      rest = s.channel.filterMap delta? ++ s.writer.held ∧
      snapshot = s.view.snapshot ++ [frozen] ∧ s.view.updateFlushFinished snapshot frozen.epochRange
        = some { frozen := rest.reverse, snapshot, lastWrittenDelta := some frozen } := by
  have hsound : s.flusher.sound = true := by rw [hf]; rfl
  have hqueue := h.queue hsound
  have hstorage := h.storage hsound hnone
  rw [inFlight, hf, hnone] at hqueue
  rw [hf] at hstorage
  exact ⟨_, hqueue, rfl, (h.published _ _ _ hf).trans hstorage, updateFlushFinished_eq hqueue⟩

theorem Flow.publish (hv : s.view.updateFlushFinished snapshot frozen.epochRange = some view) :
    Flow { s with view, flusher := .marking drain } := by
  obtain ⟨rest, hfrozen, hrest, hsnapshot, hv'⟩ := h.publish_eq hnone hf
  obtain rfl := Option.mem_unique hv' hv
  have hview := h.view
  have hleft := h.left
  rw [hf] at hleft
  refine ⟨?_, fun _ => ?_, fun _ _ => hnone, hleft, h.stopped, h.poisoned, nofun, fun _ _ => ?_,
    nofun⟩
  · show snapshot ++ rest.reverse.reverse = s.frozenLog
    rw [reverse_reverse, hsnapshot, append_assoc, ← hview, hfrozen]
    rfl
  · show rest.reverse.reverse = s.failed ++ ([] ++ s.channel.filterMap delta? ++ s.writer.held)
    rw [reverse_reverse, hnone, hrest]
    rfl
  · show s.storage = snapshot ++ []
    rw [append_nil]
    exact (h.published _ _ _ hf).symm

end

theorem Flow.publishPanics (h : Flow s) (hf : s.flusher = .publishing frozen snapshot drain)
    (hv : s.view.updateFlushFinished snapshot frozen.epochRange = none) :
    Flow { s with poisoned := true, flusher := .panicked } := by
  have hfailed : s.failed ≠ [] := by
    intro hnone
    obtain ⟨rest, -, -, -, hv'⟩ := h.publish_eq hnone hf
    rw [hv'] at hv
    cases hv
  have hstop : s.flushStopped = true := by
    refine h.left ?_
    cases hleft : s.flusher.left with
    | false => exact absurd (h.loop (by rw [hf]; rfl) hleft) hfailed
    | true => rfl
  exact ⟨h.view, nofun, nofun, nofun, h.stopped, fun _ => hstop, nofun, nofun, nofun⟩

/-! ### The write task covers the epochs -/

/-- What holds at the place where the write task stands: every epoch is applied, but for a write
in `handle_write`, and a task that has sent the delta has no writes in the current one. -/
def WriterAt (s : State D R F) : Prop :=
  match s.writer with
  | .running => s.watermarks.applied + 1 = s.epoch ∧ s.deltaStartEpoch ≤ s.epoch
  | .wrote epoch =>
    s.watermarks.applied + 1 = epoch ∧ s.epoch = epoch + 1 ∧ s.deltaStartEpoch ≤ epoch
  | .flushing _ => s.watermarks.applied + 1 = s.epoch ∧ s.deltaStartEpoch ≤ s.epoch
  | .panicked => False
  | _ => s.watermarks.applied + 1 = s.epoch ∧ s.deltaStartEpoch = s.epoch

/-- The ranges of the frozen deltas follow each other, up to the current delta. -/
structure Sequenced (s : State D R F) : Prop where
  chain : Spans 1 (s.frozenLog.map EpochStamped.epochRange) s.deltaStartEpoch
  writer : WriterAt s

theorem sequenced_init (delta : D) : Sequenced (init delta : State D R F) where
  chain := rfl
  writer := ⟨rfl, Nat.le_refl 1⟩

theorem writerAt_pc (happlied : s.watermarks.applied + 1 = s.epoch)
    (hstart : s.deltaStartEpoch = s.epoch) : WriterAt { s with channel, writer := next.pc } := by
  cases next with
  | loop => exact ⟨happlied, Nat.le_of_eq hstart⟩
  | storage | stop => exact ⟨happlied, hstart⟩

theorem Sequenced.writerMove (h : Sequenced s) (hflow : Flow s) (hmove : WriterMove ops s s') :
    Sequenced s' := by
  have hat := h.writer
  cases hmove with
  | write hw =>
    rw [WriterAt, hw] at hat
    exact ⟨h.chain, hat.1, rfl, hat.2⟩
  | updateApplied hw hnext =>
    rw [WriterAt, hw] at hat
    obtain ⟨-, hepoch, hstart⟩ := hat
    have hle : s.deltaStartEpoch ≤ s.epoch := by omega
    rcases hnext with rfl | rfl
    · exact ⟨h.chain, hepoch.symm, hle⟩
    · exact ⟨h.chain, hepoch.symm, hle⟩
  | enter hw | cancel hw | joined hw =>
    rw [WriterAt, hw] at hat
    exact ⟨h.chain, hat⟩
  | skip hw hempty =>
    rw [WriterAt, hw] at hat
    exact ⟨h.chain, writerAt_pc hat.1 hempty.symm⟩
  | @freeze next delta frozen hw hwrites hrange =>
    rw [WriterAt, hw] at hat
    refine ⟨?_, hat.1, rfl⟩
    -- The new range starts where the last one ended, and it is not empty.
    show Spans 1 ((s.frozenLog ++ [frozen]).map EpochStamped.epochRange) s.epoch
    rw [map_append, map_singleton, hrange]
    exact Spans.snoc (r := ⟨s.deltaStartEpoch, s.epoch⟩) h.chain
      (Nat.lt_of_le_of_ne hat.2 (Ne.symm hwrites))
  | freezePanics hw hpoisoned =>
    exact absurd hpoisoned (hflow.not_poisoned (by rw [hw]; rfl))
  | sent hw | dropped hw =>
    rw [WriterAt, hw] at hat
    exact ⟨h.chain, writerAt_pc hat.1 hat.2⟩

theorem Sequenced.flushMove {l} (h : Sequenced s) (hmove : FlushMove s l s') :
    Sequenced s' := by
  cases hmove <;> exact ⟨h.chain, h.writer⟩

theorem Flow.stopped_of_over (h : Flow s) (hseq : Sequenced s) (hover : s.writer.over = true) :
    s.flushStopped = true := by
  have hat := hseq.writer
  rw [h.stopped]
  cases hw : s.writer with
  | finished => rfl
  | panicked =>
    rw [WriterAt, hw] at hat
    exact hat.elim
  | _ =>
    rw [hw] at hover
    cases hover

theorem Flow.nextEvent (h : Flow s) (hsound : s.flusher.sound = true)
    (hheld : s.flusher.held = []) (hstored : s.flusher.stored = []) (hleft : s.flusher.left = drain)
    (hcalls : calls.filterMap FlushCall.failed? = s.failed) :
    Flow { s with flusher := nextEvent drain, watermarks, calls } := by
  refine h.setFlusher (fun _ => ⟨hsound, ?_, ?_, hcalls, ?_⟩) ?_ ?_ ?_
  · rw [held_nextEvent, hheld]
  · rw [stored_nextEvent, hstored]
  · rw [left_nextEvent, hleft]
    exact id
  · rw [left_nextEvent, ← hleft]
    exact h.left
  · cases drain <;> nofun
  · cases drain <;> nofun

theorem Flow.flushMove {l} (h : Flow s) (hseq : Sequenced s)
    (hmove : FlushMove s l s') : Flow s' := by
  have hleft := h.left
  cases hmove with
  | take hf hc => exact h.take hf hc
  | leave hf hstop =>
    have hstop' : s.flushStopped = true := hstop.elim id (h.stopped_of_over hseq)
    refine h.setFlusher (fun _ => ?_) (fun _ => hstop') nofun nofun
    rw [hf]
    exact ⟨rfl, rfl, rfl, rfl, nofun⟩
  | deltaOk hf => exact h.deltaOk hf
  | deltaErr hf => exact h.deltaErr hf
  | deltaPanics | storagePanics => exact h.setFlusher nofun nofun nofun nofun
  | publish hf hv => exact h.publish (h.failed_nil_of_published hseq.chain hf hv) hf hv
  | publishPanics hf hv => exact h.publishPanics hf hv
  | updateWritten hf | updateDurable hf =>
    exact h.nextEvent (by rw [hf]; rfl) (by rw [hf]; rfl) (by rw [hf]; rfl) (by rw [hf]; rfl) rfl
  | @storageOk _ drain hf =>
    rw [hf] at hleft
    refine h.setFlusher (fun _ => ?_) hleft nofun nofun
    rw [hf]
    exact ⟨rfl, rfl, rfl, failed_storageDone s drain .ok, id⟩
  | @storageErr _ drain msg hf =>
    cases drain with
    | false => exact h.setFlusher nofun nofun nofun nofun
    | true =>
      have hcalls := failed_storageDone s true (.err msg)
      have hleft' : s.flusher.left = true := by rw [hf]; rfl
      exact h.nextEvent (by rw [hf]; rfl) (by rw [hf]; rfl) (by rw [hf]; rfl) hleft' hcalls
  | drained hf hc =>
    rw [hf] at hleft
    refine h.setFlusher (fun _ => ?_) hleft (fun _ => hc) nofun
    rw [hf]
    exact ⟨rfl, rfl, rfl, rfl, id⟩

theorem flow_run {ok : State D R F → Label W → Prop}
    (hrun : Run (step ops threshold) ok (init delta) ls s) : Sequenced s ∧ Flow s := by
  refine hrun.invariant (I := fun s => Sequenced s ∧ Flow s)
    ⟨sequenced_init delta, flow_init delta⟩ ?_
  intro s l s' h _ hstep
  obtain ⟨hseq, hflow⟩ := h
  cases l with
  | writer =>
    have hmove : WriterMove ops s s' := writerMove_of_step hstep
    exact ⟨hseq.writerMove hflow hmove, hflow.writerMove hmove⟩
  | flusher =>
    have hmove := flushMove_of_step hstep
    exact ⟨hseq.flushMove hmove, hflow.flushMove hseq hmove⟩

end OpenData.Coordinator

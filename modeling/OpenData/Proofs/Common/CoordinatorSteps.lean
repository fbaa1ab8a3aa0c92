import OpenData.Common.Coordinator

/-!
# What a step of either task does

`WriterMove` and `FlushMove` list what one step of the write task and of the flush task can do, with
the guards under which it does it. `writerMove_of_step` and `flushMove_of_step` say that a step does
nothing else. The invariants of the coordinator are proved by cases on these two.
-/

namespace OpenData.Coordinator

open Lib State

variable {D W R F : Type} {ops : DeltaOps D W R F} {threshold : Nat} {s s' : State D R F}

/-! ### What one step does -/

/-- What a step of the writer task can do. -/
inductive WriterMove (ops : DeltaOps D W R F) (s : State D R F) : State D R F → Prop
  | write {w} (hw : s.writer = .running) : WriterMove ops s (s.write ops w)
  | updateApplied {epoch writer} (hw : s.writer = .wrote epoch)
      (hnext : writer = .running ∨ writer = .flushing .loop) :
      WriterMove ops s { s with watermarks := { s.watermarks with applied := epoch }, writer }
  | enter {next flushResults} (hw : s.writer = .running) :
      WriterMove ops s { s with flushResults, writer := .flushing next }
  | skip {next} (hw : s.writer = .flushing next)
      (hempty : s.epoch = s.deltaStartEpoch) : WriterMove ops s { s with writer := next.pc }
  | freeze {next delta frozen}
      (hw : s.writer = .flushing next) (hwrites : s.epoch ≠ s.deltaStartEpoch)
      (hrange : frozen.epochRange = ⟨s.deltaStartEpoch, s.epoch⟩) :
      WriterMove ops s { s with
        delta
        deltaStartEpoch := s.epoch
        frozenLog := s.frozenLog ++ [frozen]
        view := s.view.updateDeltaFrozen frozen
        writer := .sending (.flushDelta frozen) next }
  | freezePanics {next s'} (hw : s.writer = .flushing next)
      (hpoisoned : s.poisoned = true) : WriterMove ops s s'
  | sent {event next} (hw : s.writer = .sending event next) (hopen : s.flusher.over = false) :
      WriterMove ops s { s with channel := s.channel ++ [event], writer := next.pc }
  | dropped {event next} (hw : s.writer = .sending event next)
      (hover : s.flusher.over = true) : WriterMove ops s { s with writer := next.pc }
  | cancel (hw : s.writer = .stopping) :
      WriterMove ops s { s with flushStopped := true, writer := .joining }
  | joined {result} (hw : s.writer = .joining) (hover : s.flusher.over = true)
      (hresult : result = .ok () → s.flusher = .finished (.ok ())) :
      WriterMove ops s { s with writer := .finished result }

theorem writerMove_of_freeze {next} (hw : s.writer = .flushing next) :
    WriterMove ops s (s.freeze ops next) := by
  unfold freeze
  split
  · rename_i hempty
    exact WriterMove.skip hw hempty
  · rename_i hwrites
    by_cases hpoisoned : s.poisoned = true
    · exact WriterMove.freezePanics hw hpoisoned
    · show WriterMove ops s (if s.poisoned = true then _ else _)
      rw [if_neg hpoisoned]
      have hrange : (⟨(ops.freezeAndInit s.delta).1, ⟨s.deltaStartEpoch, s.epoch⟩⟩ :
          EpochStamped F).epochRange = ⟨s.deltaStartEpoch, s.epoch⟩ := rfl
      exact WriterMove.freeze hw hwrites hrange

theorem writerMove_of_send {event next}
    (hw : s.writer = .sending event next) (h : s.send event next = some s') :
    WriterMove ops s s' := by
  unfold send at h
  split at h
  · rename_i hover
    cases h
    exact WriterMove.dropped hw hover
  · rename_i hopen
    split at h
    · cases h
      exact WriterMove.sent hw (Bool.eq_false_iff.mpr hopen)
    · cases h

theorem writerMove_of_join (hw : s.writer = .joining) (h : s.join = some s') :
    WriterMove ops s s' := by
  unfold join at h
  split at h
  · rename_i hf
    cases h
    exact WriterMove.joined hw (by rw [hf]; rfl) (fun _ => hf)
  · rename_i msg hf
    cases h
    exact WriterMove.joined hw (by rw [hf]; rfl) nofun
  · rename_i hf
    cases h
    exact WriterMove.joined hw (by rw [hf]; rfl) nofun
  · cases h

theorem writerMove_of_step {l} (h : s.stepWriter ops threshold l = some s') :
    WriterMove ops s s' := by
  cases l with
  | write =>
    simp only [stepWriter] at h
    split at h
    · rename_i hw
      cases h
      exact WriterMove.write hw
    · cases h
  | updateApplied =>
    simp only [stepWriter] at h
    split at h
    · rename_i epoch hw
      cases h
      refine WriterMove.updateApplied hw ?_
      by_cases hsize : threshold ≤ ops.estimateSize s.delta
      · exact Or.inr (if_pos hsize)
      · exact Or.inl (if_neg hsize)
    · cases h
  | flush | tick | leave =>
    simp only [stepWriter] at h
    split at h
    · rename_i hw
      cases h
      exact WriterMove.enter hw
    · cases h
  | freeze =>
    simp only [stepWriter] at h
    split at h
    · rename_i next hw
      cases h
      exact writerMove_of_freeze hw
    · cases h
  | send =>
    simp only [stepWriter] at h
    split at h
    · rename_i event next hw
      exact writerMove_of_send hw h
    · cases h
  | cancelFlush =>
    simp only [stepWriter] at h
    split at h
    · rename_i hw
      cases h
      exact WriterMove.cancel hw
    · cases h
  | join =>
    simp only [stepWriter] at h
    split at h
    · rename_i hw
      exact writerMove_of_join hw h
    · cases h

/-- What a step of the flush task can do. -/
inductive FlushMove (s : State D R F) : FlushStep → State D R F → Prop
  | take {l drain event channel}
      (hf : s.flusher = nextEvent drain) (hc : s.channel = event :: channel) :
      FlushMove s l { s with channel, flusher := event.pc drain }
  | leave {l} (hf : s.flusher = .waiting) (hstop : s.flushStopped = true ∨ s.writer.over = true) :
      FlushMove s l { s with flusher := .draining }
  | deltaOk {frozen drain} (hf : s.flusher = .flushing frozen drain) :
      FlushMove s (.deltaDone .ok) (s.deltaDone frozen drain .ok)
  | deltaErr {frozen drain msg} (hf : s.flusher = .flushing frozen drain) :
      FlushMove s (.deltaDone (.err msg)) (s.deltaDone frozen drain (.err msg))
  | deltaPanics {frozen drain} (hf : s.flusher = .flushing frozen drain) :
      FlushMove s (.deltaDone .panics) (s.deltaDone frozen drain .panics)
  | publish {l frozen snapshot drain view} (hf : s.flusher = .publishing frozen snapshot drain)
      (hv : s.view.updateFlushFinished snapshot frozen.epochRange = some view) :
      FlushMove s l { s with view, flusher := .marking drain }
  | publishPanics {l frozen snapshot drain} (hf : s.flusher = .publishing frozen snapshot drain)
      (hv : s.view.updateFlushFinished snapshot frozen.epochRange = none) :
      FlushMove s l { s with poisoned := true, flusher := .panicked }
  | updateWritten {l drain} (hf : s.flusher = .marking drain) : FlushMove s l { s with
        watermarks := { s.watermarks with written := s.lastFlushedEpoch }
        flusher := nextEvent drain }
  | storageOk {l drain} (hf : s.flusher = .syncing drain) : FlushMove s l (s.storageDone drain .ok)
  | storageErr {l drain msg} (hf : s.flusher = .syncing drain) :
      FlushMove s l (s.storageDone drain (.err msg))
  | storagePanics {l drain} (hf : s.flusher = .syncing drain) :
      FlushMove s l (s.storageDone drain .panics)
  | updateDurable {l drain} (hf : s.flusher = .recording drain) : FlushMove s l { s with
        watermarks := { s.watermarks with durable := s.lastFlushedEpoch }
        flusher := nextEvent drain }
  | drained {l} (hf : s.flusher = .draining) (hc : s.channel = []) :
      FlushMove s l { s with flusher := .finished (.ok ()) }

theorem flushMove_of_publish {l frozen snapshot drain}
    (hf : s.flusher = .publishing frozen snapshot drain) :
    FlushMove s l (s.publish frozen snapshot drain) := by
  unfold publish
  split
  · rename_i view hv
    exact FlushMove.publish hf hv
  · rename_i hv
    exact FlushMove.publishPanics hf hv

theorem flushMove_of_step {l} (h : s.stepFlusher l = some s') : FlushMove s l s' := by
  cases l with
  | recv =>
    simp only [stepFlusher] at h
    split at h
    · rename_i hf
      split at h
      · rename_i event channel hc
        cases h
        exact FlushMove.take (show s.flusher = nextEvent false from hf) hc
      · split at h
        · rename_i hover
          cases h
          exact FlushMove.leave hf (Or.inr hover)
        · cases h
    · cases h
  | leave =>
    simp only [stepFlusher] at h
    split at h
    · rename_i hf
      split at h
      · rename_i hstop
        cases h
        exact FlushMove.leave hf (Or.inl hstop)
      · cases h
    · cases h
  | deltaDone outcome =>
    simp only [stepFlusher] at h
    split at h
    · rename_i frozen drain hf
      cases h
      cases outcome with
      | ok => exact FlushMove.deltaOk hf
      | err => exact FlushMove.deltaErr hf
      | panics => exact FlushMove.deltaPanics hf
    · cases h
  | publish =>
    simp only [stepFlusher] at h
    split at h
    · rename_i frozen snapshot drain hf
      cases h
      exact flushMove_of_publish hf
    · cases h
  | updateWritten =>
    simp only [stepFlusher] at h
    split at h
    · rename_i drain hf
      cases h
      exact FlushMove.updateWritten hf
    · cases h
  | storageDone outcome =>
    simp only [stepFlusher] at h
    split at h
    · rename_i drain hf
      cases h
      cases outcome with
      | ok => exact FlushMove.storageOk hf
      | err => exact FlushMove.storageErr hf
      | panics => exact FlushMove.storagePanics hf
    · cases h
  | updateDurable =>
    simp only [stepFlusher] at h
    split at h
    · rename_i drain hf
      cases h
      exact FlushMove.updateDurable hf
    · cases h
  | tryRecv =>
    simp only [stepFlusher] at h
    split at h
    · rename_i hf
      split at h
      · rename_i event channel hc
        cases h
        exact FlushMove.take (show s.flusher = nextEvent true from hf) hc
      · rename_i hc
        cases h
        exact FlushMove.drained hf hc
    · cases h

end OpenData.Coordinator

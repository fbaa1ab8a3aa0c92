import OpenData.Lib.Span

/-!
# The write coordinator and its flush task

The embedding of `WriteCoordinatorTask`, `FlushTask`, `BroadcastedView` and `EpochWatermarks`
(`common/src/coordinator/mod.rs`) and of `WriteHandle::wait` (`handle.rs`). The write task applies
writes to the current delta, freezes it and sends it to the flush task over a channel of two
places; the flush task writes frozen deltas to storage and publishes the new view. Both tasks
update the view and the watermarks, so a step is one access to what they share, and their steps
come in any order. The label of a step carries what the environment decides: the command that
comes next, and how a call of the flusher ends.
-/

namespace OpenData.Coordinator

open Lib

abbrev EpochRange := Span

structure EpochStamped (F : Type) where
  val : F
  epochRange : EpochRange
deriving DecidableEq

/-- The methods of `Delta`. `freezeAndInit` is `CurrentDelta::freeze_and_init`: the frozen delta,
and a new delta from the context it leaves. -/
structure DeltaOps (D W R F : Type) where
  apply : D → W → D × Except String R
  estimateSize : D → Nat
  freezeAndInit : D → F × D

inductive FlushEvent (F : Type) where
  | flushDelta (frozen : EpochStamped F)
  | flushStorage

/-- `View`: the frozen deltas, newest first, and the storage snapshot. A frozen delta stands for
its reader. -/
structure View (F : Type) where
  frozen : List (EpochStamped F)
  snapshot : List (EpochStamped F)
  lastWrittenDelta : Option (EpochStamped F)

namespace View

/-- `update_delta_frozen`: the frozen delta goes to the front. -/
def updateDeltaFrozen {F : Type} (view : View F) (frozen : EpochStamped F) : View F :=
  { view with frozen := frozen :: view.frozen }

/-- `update_flush_finished`: takes the last frozen delta out. `none` is a panic, of the `expect`
when there is none and of the `assert_eq!` when it has other epochs. -/
def updateFlushFinished {F : Type} (view : View F) (snapshot : List (EpochStamped F))
    (epochRange : EpochRange) : Option (View F) :=
  match view.frozen.getLast? with
  | none => none
  | some last =>
    if last.epochRange = epochRange then
      some { frozen := view.frozen.dropLast, snapshot, lastWrittenDelta := some last }
    else none

end View

inductive Durability where
  | applied
  | written
  | durable
deriving Repr, DecidableEq

structure EpochWatermarks where
  applied : Nat
  written : Nat
  durable : Nat
deriving Repr, DecidableEq

def EpochWatermarks.get (w : EpochWatermarks) : Durability → Nat
  | .applied => w.applied
  | .written => w.written
  | .durable => w.durable

structure WriteApplied (R : Type) where
  epoch : Nat
  result : R

structure WriteFailed where
  epoch : Nat
  error : String

abbrev EpochResult (R : Type) := Except WriteFailed (WriteApplied R)

inductive AfterFlush where
  | loop
  | storage
  | stop

inductive WriterPc (F : Type) where
  | running
  | wrote (epoch : Nat)
  | flushing (next : AfterFlush)
  | sending (event : FlushEvent F) (next : AfterFlush)
  | stopping
  | joining
  | finished (result : Except String Unit)
  | panicked

inductive FlushPc (F : Type) where
  | waiting
  | flushing (frozen : EpochStamped F) (drain : Bool)
  | publishing (frozen : EpochStamped F) (snapshot : List (EpochStamped F)) (drain : Bool)
  | marking (drain : Bool)
  | syncing (drain : Bool)
  | recording (drain : Bool)
  | draining
  | finished (result : Except String Unit)
  | panicked

inductive FlushCall (F : Type) where
  | delta (frozen : EpochStamped F) (ok : Bool)
  | storage (ok : Bool)
deriving DecidableEq

/-- The two tasks, what they share, and the past. -/
structure State (D R F : Type) where
  -- the write task
  writer : WriterPc F
  delta : D
  epoch : Nat
  deltaStartEpoch : Nat
  -- the flush task
  flusher : FlushPc F
  lastFlushedEpoch : Nat
  -- shared
  view : View F
  poisoned : Bool
  watermarks : EpochWatermarks
  channel : List (FlushEvent F)
  flushStopped : Bool
  storage : List (EpochStamped F)
  -- history
  frozenLog : List (EpochStamped F)
  calls : List (FlushCall F)
  writeResults : List (EpochResult R)
  flushResults : List (EpochResult Unit)

inductive Outcome where
  | ok
  | err (msg : String)
  | panics

inductive WriterStep (W : Type) where
  | write (write : W)
  | updateApplied
  | flush (flushStorage : Bool)
  | tick
  | leave
  | freeze
  | send
  | cancelFlush
  | join

inductive FlushStep where
  | recv
  | leave
  | deltaDone (outcome : Outcome)
  | publish
  | updateWritten
  | storageDone (outcome : Outcome)
  | updateDurable
  | tryRecv

inductive Label (W : Type) where
  | writer (l : WriterStep W)
  | flusher (l : FlushStep)

variable {D W R F : Type}

/-- The place in the loop that a flush returns to. -/
def AfterFlush.pc : AfterFlush → WriterPc F
  | .loop => .running
  | .storage => .sending .flushStorage .loop
  | .stop => .stopping

def WriterPc.over : WriterPc F → Bool
  | .finished _ => true
  | .panicked => true
  | _ => false

def FlushPc.over : FlushPc F → Bool
  | .finished _ => true
  | .panicked => true
  | _ => false

/-- `handle_event`, up to its call of the flusher. -/
def FlushEvent.pc (drain : Bool) : FlushEvent F → FlushPc F
  | .flushDelta frozen => .flushing frozen drain
  | .flushStorage => .syncing drain

/-- `handle_event` returns `Ok`. -/
def nextEvent (drain : Bool) : FlushPc F := if drain then .draining else .waiting

/-- `handle_event` returns an error. The loop propagates it, and the drain ignores it. -/
def afterError (drain : Bool) (msg : String) : FlushPc F :=
  if drain then .draining else .finished (.error ("error flushing delta: " ++ msg))

namespace State

/-- A started coordinator. -/
def init (delta : D) : State D R F where
  writer := .running
  delta := delta
  epoch := 1
  deltaStartEpoch := 1
  flusher := .waiting
  lastFlushedEpoch := 0
  view := { frozen := [], snapshot := [], lastWrittenDelta := none }
  poisoned := false
  watermarks := { applied := 0, written := 0, durable := 0 }
  channel := []
  flushStopped := false
  storage := []
  frozenLog := []
  calls := []
  writeResults := []
  flushResults := []

/-- `handle_write`, up to the result that it sends. -/
def write (ops : DeltaOps D W R F) (s : State D R F) (write : W) : State D R F :=
  let (delta, result) := ops.apply s.delta write
  let sent : EpochResult R :=
    match result with
    | .ok result => .ok { epoch := s.epoch, result }
    | .error error => .error { epoch := s.epoch, error }
  { s with
    delta
    epoch := s.epoch + 1
    writeResults := s.writeResults ++ [sent]
    writer := .wrote s.epoch }

/-- `flush_if_delta_has_writes`, up to the message that it sends. -/
def freeze (ops : DeltaOps D W R F) (s : State D R F) (next : AfterFlush) : State D R F :=
  if s.epoch = s.deltaStartEpoch then { s with writer := next.pc }
  else
    let (frozen, delta) := ops.freezeAndInit s.delta
    let stamped := { val := frozen, epochRange := ⟨s.deltaStartEpoch, s.epoch⟩ }
    let s' := { s with delta, deltaStartEpoch := s.epoch, frozenLog := s.frozenLog ++ [stamped] }
    if s.poisoned then { s' with writer := .panicked }
    else { s' with
      view := s.view.updateDeltaFrozen stamped
      writer := .sending (.flushDelta stamped) next }

/-- `flush_tx.send`: waits while the channel is full, and does nothing when the flush task is
over. -/
def send (s : State D R F) (event : FlushEvent F) (next : AfterFlush) : Option (State D R F) :=
  if s.flusher.over then some { s with writer := next.pc }
  else if s.channel.length < 2 then
    some { s with channel := s.channel ++ [event], writer := next.pc }
  else none

/-- What `run_coordinator` returns for the flush task. -/
def join (s : State D R F) : Option (State D R F) :=
  match s.flusher with
  | .finished (.ok ()) => some { s with writer := .finished (.ok ()) }
  | .finished (.error msg) =>
    some { s with writer := .finished (.error ("flush task error: " ++ msg)) }
  | .panicked => some { s with writer := .finished (.error "flush task panicked") }
  | _ => none

def stepWriter (ops : DeltaOps D W R F) (flushSizeThreshold : Nat) (s : State D R F) :
    WriterStep W → Option (State D R F)
  | .write write =>
    match s.writer with
    | .running => some (s.write ops write)
    | _ => none
  | .updateApplied =>
    match s.writer with
    | .wrote epoch => some { s with
        watermarks := { s.watermarks with applied := epoch }
        writer := if flushSizeThreshold ≤ ops.estimateSize s.delta then .flushing .loop
          else .running }
    | _ => none
  | .flush flushStorage =>
    match s.writer with
    | .running => some { s with
        flushResults := s.flushResults ++ [.ok { epoch := s.epoch - 1, result := () }]
        writer := .flushing (if flushStorage then .storage else .loop) }
    | _ => none
  | .tick =>
    match s.writer with
    | .running => some { s with writer := .flushing .loop }
    | _ => none
  | .leave =>
    match s.writer with
    | .running => some { s with writer := .flushing .stop }
    | _ => none
  | .freeze =>
    match s.writer with
    | .flushing next => some (s.freeze ops next)
    | _ => none
  | .send =>
    match s.writer with
    | .sending event next => s.send event next
    | _ => none
  | .cancelFlush =>
    match s.writer with
    | .stopping => some { s with flushStopped := true, writer := .joining }
    | _ => none
  | .join =>
    match s.writer with
    | .joining => s.join
    | _ => none

/-- `flush_delta` returns, in `handle_flush`. -/
def deltaDone (s : State D R F) (frozen : EpochStamped F) (drain : Bool) : Outcome → State D R F
  | .ok => { s with
      storage := s.storage ++ [frozen]
      calls := s.calls ++ [.delta frozen true]
      lastFlushedEpoch := frozen.epochRange.stop - 1
      flusher := .publishing frozen (s.storage ++ [frozen]) drain }
  | .err msg => { s with
      calls := s.calls ++ [.delta frozen false]
      flusher := afterError drain msg }
  | .panics => { s with
      calls := s.calls ++ [.delta frozen false]
      flusher := .panicked }

/-- `flush_storage` returns, in `handle_event`. -/
def storageDone (s : State D R F) (drain : Bool) : Outcome → State D R F
  | .ok => { s with calls := s.calls ++ [.storage true], flusher := .recording drain }
  | .err msg => { s with calls := s.calls ++ [.storage false], flusher := afterError drain msg }
  | .panics => { s with calls := s.calls ++ [.storage false], flusher := .panicked }

/-- `update_flush_finished` under the lock. A panic there poisons the mutex. -/
def publish (s : State D R F) (frozen : EpochStamped F) (snapshot : List (EpochStamped F))
    (drain : Bool) : State D R F :=
  match s.view.updateFlushFinished snapshot frozen.epochRange with
  | some view => { s with view, flusher := .marking drain }
  | none => { s with poisoned := true, flusher := .panicked }

def stepFlusher (s : State D R F) : FlushStep → Option (State D R F)
  | .recv =>
    match s.flusher with
    | .waiting =>
      match s.channel with
      | event :: channel => some { s with channel, flusher := event.pc false }
      -- `recv` gives `None` when the sender is gone.
      | [] => if s.writer.over then some { s with flusher := .draining } else none
    | _ => none
  | .leave =>
    match s.flusher with
    | .waiting => if s.flushStopped then some { s with flusher := .draining } else none
    | _ => none
  | .deltaDone outcome =>
    match s.flusher with
    | .flushing frozen drain => some (s.deltaDone frozen drain outcome)
    | _ => none
  | .publish =>
    match s.flusher with
    | .publishing frozen snapshot drain => some (s.publish frozen snapshot drain)
    | _ => none
  | .updateWritten =>
    match s.flusher with
    | .marking drain => some { s with
        watermarks := { s.watermarks with written := s.lastFlushedEpoch }
        flusher := nextEvent drain }
    | _ => none
  | .storageDone outcome =>
    match s.flusher with
    | .syncing drain => some (s.storageDone drain outcome)
    | _ => none
  | .updateDurable =>
    match s.flusher with
    | .recording drain => some { s with
        watermarks := { s.watermarks with durable := s.lastFlushedEpoch }
        flusher := nextEvent drain }
    | _ => none
  | .tryRecv =>
    match s.flusher with
    | .draining =>
      match s.channel with
      | event :: channel => some { s with channel, flusher := event.pc true }
      | [] => some { s with flusher := .finished (.ok ()) }
    | _ => none

def step (ops : DeltaOps D W R F) (flushSizeThreshold : Nat) (s : State D R F) :
    Label W → Option (State D R F)
  | .writer l => s.stepWriter ops flushSizeThreshold l
  | .flusher l => s.stepFlusher l

/-- What `WriteCoordinator::stop` returns, once the write task is over. -/
def stopResult (s : State D R F) : Option (Except String Unit) :=
  match s.writer with
  | .finished result => some result
  | .panicked => some (.error "task panicked")
  | _ => none

/-- `WriteHandle::wait` resolves with `Ok`, for a handle that received this result. -/
def waitResolves {M : Type} (s : State D R F) (received : EpochResult M)
    (durability : Durability) : Option M :=
  match received with
  | .ok applied =>
    if applied.epoch ≤ s.watermarks.get durability then some applied.result else none
  | .error _ => none

end State

end OpenData.Coordinator

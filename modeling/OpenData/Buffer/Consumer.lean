import OpenData.Buffer.Spec

/-!
# Consumers with cursors and acknowledgements

The embedding of `Consumer` (`buffer/src/consumer.rs`) over the calls of `OpenData.Buffer.Queue`.
The methods take `&mut self`, so a consumer has at most one method in flight: `Task` says which
one, and on what it waits. One step starts a method, takes the result of the queue call or of the
batch fetch it waited for, or drops its future. Queue calls that are in flight go on by steps of
the queue, also when the method that made them was dropped.
-/

namespace OpenData.Buffer

open Lib

def dequeueInterval : UInt64 := 100

structure Consumer where
  ackCount : UInt64
  lastAckedSequence : Option UInt64
  lastFetchedSequence : Option UInt64
deriving DecidableEq

namespace Consumer

/-- The consumer that `with_object_store` returns. -/
def new (lastAckedSequence : Option UInt64) : Consumer where
  ackCount := 0
  lastAckedSequence
  lastFetchedSequence := lastAckedSequence

/-- The queue call of `next_batch`. -/
def nextCall (k : Consumer) (c : ConsumerId) : Call :=
  match k.lastFetchedSequence with
  | none => .peek c
  | some seq => .read c (seq + 1)

/-- The order check of `ack`. -/
def checkAck (k : Consumer) (sequence : UInt64) : Result Unit :=
  match k.lastAckedSequence with
  | some last =>
    if sequence ≠ last + 1 then
      fail (.storage ("out-of-order ack: expected sequence " ++ toString (last + 1) ++ ", got "
        ++ toString sequence))
    else .ok ()
  | none => .ok ()

/-- The consumer after an accepted `ack`. -/
def acked (k : Consumer) (sequence : UInt64) : Consumer :=
  { k with lastAckedSequence := some sequence, ackCount := k.ackCount + 1 }

end Consumer

inductive Task where
  | initializing (op : OpId) (lastAckedSequence : Option UInt64)
  | positioning (op : OpId) (lastAckedSequence : Option UInt64)
  | idle (k : Consumer)
  | polling (op : OpId) (k : Consumer)
  | fetching (k : Consumer) (entry : QueueEntry)
  | dequeueing (op : OpId) (k : Consumer)
  | failed

/-- Consumers over a queue. `initial` and `accepted` are history variables: what each consumer was
built with, and the acknowledgements that passed the order check, oldest first. -/
structure System where
  queue : State
  tasks : ConsumerId → Option Task
  initial : ConsumerId → Option UInt64
  accepted : List (ConsumerId × UInt64)

inductive Event where
  | queue (l : Label)
  | build (c : ConsumerId) (lastAckedSequence : Option UInt64) (op : OpId)
  | nextBatch (c : ConsumerId) (op : OpId)
  | ack (c : ConsumerId) (sequence : UInt64) (op : OpId)
  | flush (c : ConsumerId) (op : OpId)
  | returned (c : ConsumerId) (op : OpId)
  | fetched (c : ConsumerId)
  | fetchFails (c : ConsumerId)
  | cancel (c : ConsumerId)

def Label.External : Label → Bool
  | .start _ (.enqueue _ _) => true
  | .start _ _ => false
  | _ => true

namespace System

/-- No consumer yet. -/
def init : System where
  queue := State.init
  tasks := fun _ => none
  initial := fun _ => none
  accepted := []

def setTask (s : System) (c : ConsumerId) (task : Task) : System :=
  { s with tasks := Function.update s.tasks c (some task) }

/-- The consumer makes a queue call and waits in `task`. -/
def call (s : System) (c : ConsumerId) (op : OpId) (call : Call) (task : Task) : Option System :=
  match s.queue.step (.start op call) with
  | some queue => some { s.setTask c task with queue }
  | none => none

/-- The result of an operation that is over. -/
def result (s : System) (op : OpId) : Option (Result Reply) :=
  match s.queue.ops op with
  | some ⟨_, .returned r⟩ => some r
  | _ => none

/-- `ack` on a consumer with no method in flight. A rejected `ack` changes nothing. -/
def ack (s : System) (c : ConsumerId) (k : Consumer) (sequence : UInt64) (op : OpId) :
    Option System :=
  match k.checkAck sequence with
  | .error _ => some s
  | .ok () =>
    let k' := k.acked sequence
    let s' := { s with accepted := s.accepted ++ [(c, sequence)] }
    if k'.ackCount % dequeueInterval = 0 then
      s'.call c op (.dequeue c sequence) (.dequeueing op k')
    else some (s'.setTask c (.idle k'))

def afterCall (s : System) (c : ConsumerId) (op' : OpId) : Task → Option System
  | .initializing op lastAckedSequence =>
    match s.result op with
    | some (.ok _) =>
      match lastAckedSequence with
      | some seq => s.call c op' (.dequeue c seq) (.positioning op' lastAckedSequence)
      | none => some (s.setTask c (.idle (.new none)))
    | some (.error _) => some (s.setTask c .failed)
    | none => none
  | .positioning op lastAckedSequence =>
    match s.result op with
    | some (.ok _) => some (s.setTask c (.idle (.new lastAckedSequence)))
    | some (.error _) => some (s.setTask c .failed)
    | none => none
  | .polling op k =>
    match s.result op with
    | some (.ok (.entry (some entry))) => some (s.setTask c (.fetching k entry))
    | some _ => some (s.setTask c (.idle k))
    | none => none
  | .dequeueing op k =>
    match s.result op with
    | some _ => some (s.setTask c (.idle k))
    | none => none
  | _ => none

def cancelled : Task → Option Task
  | .initializing _ _ => some .failed
  | .positioning _ _ => some .failed
  | .polling _ k => some (.idle k)
  | .fetching k _ => some (.idle k)
  | .dequeueing _ k => some (.idle k)
  | _ => none

def step (s : System) : Event → Option System
  | .queue l =>
    if l.External then
      match s.queue.step l with
      | some queue => some { s with queue }
      | none => none
    else none
  | .build c lastAckedSequence op =>
    match s.tasks c with
    | none =>
      { s with initial := Function.update s.initial c lastAckedSequence }.call c op
        (.initializeConsumer c) (.initializing op lastAckedSequence)
    | some _ => none
  | .nextBatch c op =>
    match s.tasks c with
    | some (.idle k) => s.call c op (k.nextCall c) (.polling op k)
    | _ => none
  | .ack c sequence op =>
    match s.tasks c with
    | some (.idle k) => s.ack c k sequence op
    | _ => none
  | .flush c op =>
    match s.tasks c with
    | some (.idle k) =>
      match k.lastAckedSequence with
      | some seq => s.call c op (.dequeue c seq) (.dequeueing op k)
      | none => some s
    | _ => none
  | .returned c op =>
    match s.tasks c with
    | some task => s.afterCall c op task
    | none => none
  | .fetched c =>
    match s.tasks c with
    | some (.fetching k entry) =>
      some (s.setTask c (.idle { k with lastFetchedSequence := some entry.sequence }))
    | _ => none
  | .fetchFails c =>
    match s.tasks c with
    | some (.fetching k _) => some (s.setTask c (.idle k))
    | _ => none
  | .cancel c =>
    match s.tasks c with
    | some task =>
      match cancelled task with
      | some task' => some (s.setTask c task')
      | none => none
    | none => none

/-- The batch that `next_batch` returns in a step. -/
def delivers (s : System) : Event → Option (ConsumerId × QueueEntry)
  | .fetched c =>
    match s.tasks c with
    | some (.fetching _ entry) => some (c, entry)
    | _ => none
  | _ => none

end System

/-! ### The application -/

/-- A program that consumes batches. `resume` is durable. The rest is what one incarnation of the
program knows: its consumer, the batches it got and has not stored, and the ones it has stored and
not acknowledged, each in the order in which it got them. -/
structure Application where
  system : System
  resume : Option UInt64
  current : Option ConsumerId
  fetched : List UInt64
  stored : List UInt64

inductive Action where
  | run (e : Event)
  | build (c : ConsumerId) (op : OpId)
  | nextBatch (op : OpId)
  | store
  | ack (op : OpId) (again : Bool)
  | flush (op : OpId)

def Event.InFlight : Event → Bool
  | .queue _ => true
  | .returned _ _ => true
  | .fetched _ => true
  | .fetchFails _ => true
  | .cancel _ => true
  | _ => false

namespace Application

def init : Application where
  system := System.init
  resume := none
  current := none
  fetched := []
  stored := []

def received (a : Application) (e : Event) : List UInt64 :=
  match a.system.delivers e with
  | some (c, entry) => if a.current = some c then [entry.sequence] else []
  | none => []

def step (a : Application) : Action → Option Application
  | .run e =>
    if e.InFlight then
      match a.system.step e with
      | some system => some { a with system, fetched := a.fetched ++ a.received e }
      | none => none
    else none
  | .build c op =>
    match a.system.step (.build c a.resume op) with
    | some system => some { a with system, current := some c, fetched := [], stored := [] }
    | none => none
  | .nextBatch op =>
    match a.current with
    | some c =>
      match a.system.step (.nextBatch c op) with
      | some system => some { a with system }
      | none => none
    | none => none
  | .store =>
    match a.fetched with
    | seq :: rest =>
      some { a with resume := some seq, fetched := rest, stored := a.stored ++ [seq] }
    | [] => none
  | .ack op again =>
    match a.current, a.stored with
    | some c, seq :: rest =>
      match a.system.step (.ack c seq op) with
      | some system => some { a with system, stored := if again then a.stored else rest }
      | none => none
    | _, _ => none
  | .flush op =>
    match a.current with
    | some c =>
      match a.system.step (.flush c op) with
      | some system => some { a with system }
      | none => none
    | none => none

end Application

end OpenData.Buffer

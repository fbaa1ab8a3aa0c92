import OpenData.Buffer.Manifest
import OpenData.Lib.Cas

/-!
# Producers and consumers over one manifest object

The embedding of `ManifestStore`, `QueueProducer` and `QueueConsumer` (`buffer/src/queue.rs`) as
a system of concurrent calls. The object store holds one manifest object under compare-and-swap
(`Cell`). Every call of `enqueue`, `initialize`, `peek`, `read` and `dequeue` is an operation of
its own with a program counter, and one step runs an operation from one `await` to the next.
-/

namespace OpenData.Buffer

open Lib

abbrev ConsumerId := Nat
abbrev OpId := Nat

inductive Call where
  | enqueue (location : String) (metadata : List Metadata)
  | initializeConsumer (consumer : ConsumerId)
  | peek (consumer : ConsumerId)
  | read (consumer : ConsumerId) (sequence : UInt64)
  | dequeue (consumer : ConsumerId) (throughSequence : UInt64)
deriving DecidableEq

inductive Reply where
  | unit
  | entry (e : Option QueueEntry)
  | removed (es : List QueueEntry)
deriving DecidableEq

/-- Where a call stands. -/
inductive Pc where
  | reading
  | checking (manifest : Manifest) (version : Option Nat)
  | writing (manifest : Manifest) (version : Option Nat) (reply : Reply)
  | storing (epoch : UInt64)
  | returned (result : Result Reply)

structure Op where
  call : Call
  pc : Pc

/-- The manifest object, the calls in flight, and the committed calls in their order. -/
structure State where
  object : Cell Bytes
  ops : OpId → Option Op
  epochs : ConsumerId → UInt64
  committed : List (OpId × Call)

def State.init : State where
  object := .absent
  ops := fun _ => none
  epochs := fun _ => uninitializedEpoch
  committed := []

namespace ManifestStore

/-- `ManifestStore::read`: an absent object reads as the empty manifest. -/
def read : Cell Bytes → Result (Manifest × Option Nat)
  | .absent => .ok (Manifest.empty, none)
  | .present bytes version => do
      let manifest ← Manifest.fromBytes bytes
      .ok (manifest, some version)

inductive WriteError where
  | conflict
  | fatal (e : Fault Error)

/-- `ManifestStore::write`: the conditional put of the serialized manifest. -/
def write (object : Cell Bytes) (manifest : Manifest) (version : Option Nat) :
    Except WriteError (Cell Bytes) :=
  match manifest.toBytes with
  | .error e => .error (.fatal e)
  | .ok data =>
    match object.put version data with
    | some object' => .ok object'
    | none => .error .conflict

end ManifestStore

/-- The epoch that `initialize` writes: one more, past the value of an uninitialized consumer. -/
def nextEpoch (epoch : UInt64) : UInt64 :=
  if epoch + 1 = uninitializedEpoch then epoch + 1 + 1 else epoch + 1

/-- The result of `peek` on a manifest of the right epoch. -/
def peekResult (m : Manifest) : Result Reply :=
  match m.iter.next with
  | none => .ok (.entry none)
  | some (.ok e, _) => .ok (.entry (some e))
  | some (.error f, _) => .error f

/-- The items at which the search of `read` stops: the wanted entry, or a panic. -/
def stopsRead (sequence : UInt64) : Result QueueEntry → Bool
  | .ok e => e.sequence == sequence
  | .error .panic => true
  | .error (.err _) => false

/-- The result of `read` on a manifest of the right epoch: the first entry with the sequence.
Items that are errors are passed over, as by `find`. -/
def readResult (m : Manifest) (sequence : UInt64) : Result Reply :=
  match m.items.find? (stopsRead sequence) with
  | none => .ok (.entry none)
  | some (.ok e) => .ok (.entry (some e))
  | some (.error f) => .error f

/-- A call before its first `await`. -/
def begin : Call → Pc
  | .enqueue location metadata =>
    match QueueEntry.new location metadata with
    | .error f => .returned (.error f)
    | .ok _ => .reading
  | _ => .reading

/-- What a call does with the manifest it read, up to the next `await` or atomic load. -/
def afterRead (call : Call) (m : Manifest) (version : Option Nat) : Pc :=
  match call with
  | .enqueue location metadata =>
    match m.append { sequence := 0, location, metadata } with
    | .error f => .returned (.error f)
    | .ok m' => .writing m' version .unit
  | .initializeConsumer _ => .writing (m.setEpoch (nextEpoch m.epoch)) version .unit
  | .peek _ => .checking m version
  | .read _ _ => .checking m version
  | .dequeue _ _ => .checking m version

/-- What a consumer's call does with a manifest of its own epoch. Only `peek`, `read` and
`dequeue` check the epoch. -/
def afterMatch (call : Call) (m : Manifest) (version : Option Nat) : Pc :=
  match call with
  | .peek _ => .returned (peekResult m)
  | .read _ sequence => .returned (readResult m sequence)
  | .dequeue _ throughSequence =>
    match m.dequeue throughSequence with
    | .error f => .returned (.error f)
    | .ok (removed, m') => .writing m' version (.removed removed)
  | _ => .returned (.error .panic)

def afterCheck (call : Call) (epoch : UInt64) (m : Manifest) (version : Option Nat) : Pc :=
  if m.epoch ≠ epoch then .returned (fail .fenced) else afterMatch call m version

def afterCommit (call : Call) (m : Manifest) (reply : Reply) : Pc :=
  match call with
  | .initializeConsumer _ => .storing m.epoch
  | _ => .returned (.ok reply)

def Call.consumer? : Call → Option ConsumerId
  | .enqueue _ _ => none
  | .initializeConsumer c => some c
  | .peek c => some c
  | .read c _ => some c
  | .dequeue c _ => some c

/-- One step of the system. `readFails` and `putFails` are the storage errors of the object
store; a put that fails stores nothing. -/
inductive Label where
  | start (op : OpId) (call : Call)
  | read (op : OpId)
  | readFails (op : OpId) (msg : String)
  | check (op : OpId)
  | put (op : OpId)
  | putFails (op : OpId) (msg : String)
  | store (op : OpId)
deriving DecidableEq

namespace State

def setOp (s : State) (op : OpId) (call : Call) (pc : Pc) : State :=
  { s with ops := Function.update s.ops op (some { call, pc }) }

def step (s : State) : Label → Option State
  | .start op call =>
    match s.ops op with
    | none => some (s.setOp op call (begin call))
    | some _ => none
  | .read op =>
    match s.ops op with
    | some ⟨call, .reading⟩ =>
      match ManifestStore.read s.object with
      | .error f => some (s.setOp op call (.returned (.error f)))
      | .ok (m, version) => some (s.setOp op call (afterRead call m version))
    | _ => none
  | .readFails op msg =>
    match s.ops op with
    | some ⟨call, .reading⟩ => some (s.setOp op call (.returned (fail (.storage msg))))
    | _ => none
  | .check op =>
    match s.ops op with
    | some ⟨call, .checking m version⟩ =>
      match call.consumer? with
      | some c => some (s.setOp op call (afterCheck call (s.epochs c) m version))
      | none => none
    | _ => none
  | .put op =>
    match s.ops op with
    | some ⟨call, .writing m version reply⟩ =>
      match ManifestStore.write s.object m version with
      | .ok object' =>
        some { s.setOp op call (afterCommit call m reply) with
          object := object', committed := s.committed ++ [(op, call)] }
      | .error .conflict => some (s.setOp op call .reading)
      | .error (.fatal f) => some (s.setOp op call (.returned (.error f)))
    | _ => none
  | .putFails op msg =>
    match s.ops op with
    | some ⟨call, .writing _ _ _⟩ => some (s.setOp op call (.returned (fail (.storage msg))))
    | _ => none
  | .store op =>
    match s.ops op with
    | some ⟨.initializeConsumer c, .storing epoch⟩ =>
      some { s.setOp op (.initializeConsumer c) (.returned (.ok .unit)) with
        epochs := Function.update s.epochs c epoch }
    | _ => none

def entries (s : State) : Result (List QueueEntry) := do
  let (m, _) ← ManifestStore.read s.object
  m.entries

/-- The next sequence number of the manifest object. -/
def nextSequence (s : State) : Result UInt64 := do
  let (m, _) ← ManifestStore.read s.object
  .ok m.nextSequence

end State

def enqueuesOf (calls : List (OpId × Call)) : List (OpId × String × List Metadata) :=
  calls.filterMap fun
    | (op, .enqueue location metadata) => some (op, location, metadata)
    | _ => none

def initsOf (calls : List (OpId × Call)) : List ConsumerId :=
  calls.filterMap fun
    | (_, .initializeConsumer c) => some c
    | _ => none

/-- The enqueues that committed, oldest first. -/
def State.enqueues (s : State) : List (OpId × String × List Metadata) := enqueuesOf s.committed

/-- The consumers whose `initialize` committed, oldest first. -/
def State.inits (s : State) : List ConsumerId := initsOf s.committed

end OpenData.Buffer

import OpenData.Buffer.Batch
import OpenData.Buffer.Queue

/-!
# The producer and its batch writer

The embedding of `Producer` (`buffer/src/producer.rs`) over the calls of `OpenData.Buffer.Queue`.
`produce` and `flush` send messages over a bounded channel to one task, which collects entries in a
batch and writes it out when it is large enough, when its time is over, or when it is told to. The
batch goes to the object store as a file and to the queue as an entry with the path of the file, and
then all calls with entries in it are told the result.
-/

namespace OpenData.Buffer

open Lib

structure ProducerConfig where
  dataPathPrefix : String
  flushSizeBytes : Nat
  maxBufferedInputs : Nat
  batchCompression : CompressionType

/-- A call of `produce` whose message was sent. -/
structure Produced where
  id : Nat
  entries : List Bytes
  metadata : Bytes
  ingestionTimeMs : Int64
deriving DecidableEq

/-! ### The batch -/

structure DataAndNotifiers where
  entries : List Bytes
  metadata : List Metadata
  notifiers : List Produced

namespace DataAndNotifiers

def empty : DataAndNotifiers := { entries := [], metadata := [], notifiers := [] }

def add (data : DataAndNotifiers) (call : Produced) : Result Unit × DataAndNotifiers :=
  let startIndex := UInt32.ofNat data.entries.length
  let entries := data.entries ++ call.entries
  if entries.length > u32Max then
    (fail (.invalidInput s!"batch entry count {entries.length} exceeds u32::MAX"),
      { data with entries })
  else
    (.ok (),
      { entries
        metadata := data.metadata ++
          [{ startIndex, ingestionTimeMs := call.ingestionTimeMs, payload := call.metadata }]
        notifiers := data.notifiers ++ [call] })

def isEmpty (data : DataAndNotifiers) : Bool :=
  data.entries.isEmpty && data.metadata.isEmpty && data.notifiers.isEmpty

end DataAndNotifiers

structure Batch where
  dataAndNotifiers : DataAndNotifiers
  sizeBytes : Nat

namespace Batch

def new : Batch := { dataAndNotifiers := .empty, sizeBytes := 0 }

def add (batch : Batch) (call : Produced) : Result Unit × Batch :=
  match call.entries.find? fun e => e.length > u32Max with
  | some e => (fail (.invalidInput s!"entry size {e.length} exceeds u32::MAX"), batch)
  | none =>
    let (result, dataAndNotifiers) := batch.dataAndNotifiers.add call
    (result,
      { dataAndNotifiers
        sizeBytes := batch.sizeBytes + (call.entries.map List.length).sum
          + call.metadata.length })

end Batch

/-! ### The task -/

inductive ProduceMessage where
  | add (call : Produced)
  | flush (reply : Nat)

inductive WriterTask where
  | waiting
  | putting (data : DataAndNotifiers) (payload : Bytes) (reply : Option Nat)
  | enqueueing (data : DataAndNotifiers) (op : OpId) (reply : Option Nat)
  | stopped

structure Flushed where
  path : String
  data : DataAndNotifiers
  op : OpId

def batchPath (cfg : ProducerConfig) (ulid : String) : String :=
  cfg.dataPathPrefix ++ "/" ++ ulid ++ ".batch"

/-- The queue, the data files, and the writer task of a producer with its channel. -/
structure ProducerState where
  queue : State
  store : String → Option Bytes
  channel : List ProduceMessage
  batch : Batch
  task : WriterTask
  values : Nat → Option (Result Unit)
  replies : Nat → Option (Result Unit)
  closing : Option Nat
  cancelled : Bool
  dropped : Bool
  sent : List Produced
  flushes : List Flushed

inductive ProducerEvent where
  | produce (entries : List Bytes) (metadata : Bytes) (ingestionTimeMs : Int64)
  | flush (reply : Nat)
  | close (reply : Nat)
  | closed
  | drop
  | receive
  | timer
  | stop
  | put (ulid : String) (op : OpId)
  | putFails (ulid : String) (stored : Bool) (msg : String)
  | enqueued
  | queue (l : Label)

namespace ProducerState

def init : ProducerState where
  queue := State.init
  store := fun _ => none
  channel := []
  batch := .new
  task := .waiting
  values := fun _ => none
  replies := fun _ => none
  closing := none
  cancelled := false
  dropped := false
  sent := []
  flushes := []

/-- `await_durable`: the value, and an error once the notifier is gone. The task has all notifiers
that are not in the value of a watch channel yet, also those in the channel. -/
def awaitDurable (s : ProducerState) (id : Nat) : Option (Result Unit) :=
  match s.values id, s.task with
  | some result, _ => some result
  | none, .stopped => some (fail (.storage "buffer shut down"))
  | none, _ => none

/-- The checks of `produce`. -/
def checkProduce (entries : List Bytes) (metadata : Bytes) : Result Unit :=
  if entries.isEmpty then fail (.invalidInput "entries must not be empty")
  else if metadata.length > u32Max then
    fail (.invalidInput s!"metadata size {metadata.length} exceeds u32::MAX")
  else .ok ()

/-- The send of a message: it waits while the channel is full, and fails when the task is over,
which changes nothing. -/
def send (cfg : ProducerConfig) (s : ProducerState) (message : ProduceMessage)
    (sent : List Produced) : Option ProducerState :=
  match s.task with
  | .stopped => some s
  | _ =>
    if s.channel.length < cfg.maxBufferedInputs then
      some { s with channel := s.channel ++ [message], sent := s.sent ++ sent }
    else none

/-- Nobody has the producer any more, or `close` has it. -/
def gone (s : ProducerState) : Bool := s.dropped || s.closing.isSome

/-- The end of `write_batch`: the notifiers and the flush that asked for it get the result. -/
def finish (s : ProducerState) (notifiers : List Produced) (result : Result Unit)
    (reply : Option Nat) : ProducerState :=
  { s with
    task := .waiting
    values := notifiers.foldl (fun values call => Function.update values call.id (some result))
      s.values
    replies := reply.elim s.replies fun reply => Function.update s.replies reply (some result) }

/-- `write_batch` up to the put. -/
def writeBatch (zstd : Zstd) (cfg : ProducerConfig) (s : ProducerState) (reply : Option Nat) :
    ProducerState :=
  let data := s.batch.dataAndNotifiers
  if data.isEmpty then s.finish [] (.ok ()) reply
  else
    let s := { s with batch := .new }
    match encodeBatch zstd data.entries cfg.batchCompression with
    | .ok payload => { s with task := .putting data payload reply }
    | .error e => s.finish data.notifiers (.error e) reply

def handle (zstd : Zstd) (cfg : ProducerConfig) (s : ProducerState) :
    ProduceMessage → ProducerState
  | .add call =>
    match s.batch.add call with
    | (.error e, batch) =>
      { s with batch, values := Function.update s.values call.id (some (.error e)) }
    | (.ok (), batch) =>
      let s := { s with batch }
      if batch.sizeBytes ≥ cfg.flushSizeBytes then s.writeBatch zstd cfg none else s
  | .flush reply => s.writeBatch zstd cfg (some reply)

def step (zstd : Zstd) (cfg : ProducerConfig) (s : ProducerState) :
    ProducerEvent → Option ProducerState
  | .produce entries metadata ingestionTimeMs =>
    if s.gone then none
    else
      match checkProduce entries metadata with
      | .error _ => some s
      | .ok () =>
        let call := { id := s.sent.length, entries, metadata, ingestionTimeMs }
        s.send cfg (.add call) [call]
  | .flush reply => if s.gone then none else s.send cfg (.flush reply) []
  | .close reply =>
    if s.gone then none
    else (s.send cfg (.flush reply) []).map fun s => { s with closing := some reply }
  | .closed =>
    match s.closing with
    | none => none
    | some reply =>
      match s.replies reply, s.task with
      | some (.ok ()), _ => some { s with cancelled := true }
      | some (.error _), _ => some { s with dropped := true }
      | none, .stopped => some { s with dropped := true }
      | none, _ => none
  | .drop => if s.gone then none else some { s with dropped := true }
  | .receive =>
    match s.task, s.channel with
    | .waiting, message :: channel => some (handle zstd cfg { s with channel } message)
    | _, _ => none
  | .timer =>
    match s.task with
    | .waiting => some (s.writeBatch zstd cfg none)
    | _ => none
  | .stop =>
    match s.task with
    | .waiting =>
      if s.cancelled ∨ (s.dropped ∧ s.channel.isEmpty) then
        some { s with task := .stopped, channel := [], batch := .new }
      else none
    | _ => none
  | .put ulid op =>
    match s.task with
    | .putting data payload reply =>
      let path := batchPath cfg ulid
      match s.queue.step (.start op (.enqueue path data.metadata)) with
      | some queue =>
        some { s with
          queue
          store := Function.update s.store path (some payload)
          task := .enqueueing data op reply
          flushes := s.flushes ++ [{ path, data, op }] }
      | none => none
    | _ => none
  | .putFails ulid stored msg =>
    match s.task with
    | .putting data payload reply =>
      let store :=
        if stored then Function.update s.store (batchPath cfg ulid) (some payload) else s.store
      some ({ s with store }.finish data.notifiers (fail (.storage msg)) reply)
    | _ => none
  | .enqueued =>
    match s.task with
    | .enqueueing data op reply =>
      match s.queue.ops op with
      | some ⟨_, .returned (.ok _)⟩ => some (s.finish data.notifiers (.ok ()) reply)
      | some ⟨_, .returned (.error (.err e))⟩ =>
        some (s.finish data.notifiers (fail e) reply)
      -- A panic of the call ends the task.
      | some ⟨_, .returned (.error .panic)⟩ =>
        some { s with task := .stopped, channel := [], batch := .new }
      | _ => none
    | _ => none
  | .queue l =>
    match s.queue.step l with
    | some queue => some { s with queue }
    | none => none

end ProducerState

/-- Fewer than `2 ^ 32` entries in a batch, and fewer bytes of entries. A call with an entry that is
too long does not get into the batch. -/
def DataAndNotifiers.FitsCall (data : DataAndNotifiers) (call : Produced) : Prop :=
  (∀ e ∈ call.entries, e.length ≤ u32Max) →
    (data.entries ++ call.entries).length < 2 ^ 32 ∧
      ((data.entries ++ call.entries).map List.length).sum < 2 ^ 32

/-- What is taken for granted: batches stay below the sizes that their length fields count, and the
name of a new file is new, as that of a new ULID is. -/
def producerAssumptions (cfg : ProducerConfig) (s : ProducerState) : ProducerEvent → Prop
  | .receive => ∀ call channel, s.channel = .add call :: channel →
      s.batch.dataAndNotifiers.FitsCall call
  | .put ulid _ => s.store (batchPath cfg ulid) = none
  | .putFails ulid _ _ => s.store (batchPath cfg ulid) = none
  | _ => True

instance (data : DataAndNotifiers) (call : Produced) : Decidable (data.FitsCall call) :=
  inferInstanceAs (Decidable (_ → _))

instance (cfg : ProducerConfig) (s : ProducerState) (e : ProducerEvent) :
    Decidable (producerAssumptions cfg s e) :=
  match e with
  | .receive =>
    match hchannel : s.channel with
    | .add call :: channel =>
      decidable_of_iff (s.batch.dataAndNotifiers.FitsCall call)
        (by simp [producerAssumptions, hchannel])
    | .flush _ :: _ => isTrue (by simp [producerAssumptions, hchannel])
    | [] => isTrue (by simp [producerAssumptions, hchannel])
  | .put ulid _ => inferInstanceAs (Decidable (s.store (batchPath cfg ulid) = none))
  | .putFails ulid _ _ => inferInstanceAs (Decidable (s.store (batchPath cfg ulid) = none))
  | .produce _ _ _ => isTrue trivial
  | .flush _ => isTrue trivial
  | .close _ => isTrue trivial
  | .closed => isTrue trivial
  | .drop => isTrue trivial
  | .timer => isTrue trivial
  | .stop => isTrue trivial
  | .enqueued => isTrue trivial
  | .queue _ => isTrue trivial

/-- A consumer that reads the entry of the manifest and fetches its file gets the entries of the
call one after the other, and finds the metadata of the call for each. -/
def Delivers (zstd : Zstd) (store : String → Option Bytes) (e : QueueEntry) (call : Produced) :
    Prop :=
  ∃ payload before after, store e.location = some payload ∧
    decodeBatch zstd payload = .ok (before ++ call.entries ++ after) ∧
    ∀ i < call.entries.length, ∃ startIndex,
      findMetadataForEntry e.metadata (UInt32.ofNat (before.length + i)) =
        some { startIndex, ingestionTimeMs := call.ingestionTimeMs, payload := call.metadata }

end OpenData.Buffer

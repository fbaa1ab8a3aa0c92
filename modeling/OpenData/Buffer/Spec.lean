import OpenData.Buffer.Queue

/-!
# What a manifest stands for

A queue is a list of entries, the next sequence number and the epoch of the consumer that owns
it. The operations are the ones a reader of the manifest API expects: `append` numbers a new
entry and puts it at the end, `dequeue` takes the leading entries up to a sequence number, and
`setEpoch` changes the epoch. `OpenData.Proofs.Buffer.Manifest` connects them to the byte edits.
-/

namespace OpenData.Buffer

/-- The contents of a manifest. -/
structure Queue where
  entries : List QueueEntry
  nextSequence : UInt64
  epoch : UInt64

namespace Queue

/-- The queue of an absent manifest object. -/
def empty : Queue := { entries := [], nextSequence := 0, epoch := 0 }

def append (q : Queue) (location : String) (metadata : List Metadata) : Queue :=
  { q with
    entries := q.entries ++ [{ sequence := q.nextSequence, location, metadata }]
    nextSequence := q.nextSequence + 1 }

/-- The leading entries with sequence at most `throughSequence`. -/
def removed (q : Queue) (throughSequence : UInt64) : List QueueEntry :=
  q.entries.takeWhile (·.sequence ≤ throughSequence)

/-- The queue without the leading entries with sequence at most `throughSequence`. -/
def dequeue (q : Queue) (throughSequence : UInt64) : Queue :=
  { q with entries := q.entries.dropWhile (·.sequence ≤ throughSequence) }

def setEpoch (q : Queue) (epoch : UInt64) : Queue := { q with epoch }

/-- One call on the queue, as a whole. -/
def apply (q : Queue) : Call → Queue
  | .enqueue location metadata => q.append location metadata
  | .initializeConsumer _ => q.setEpoch (nextEpoch q.epoch)
  | .peek _ => q
  | .read _ _ => q
  | .dequeue _ throughSequence => q.dequeue throughSequence

/-- The queue after some calls, oldest first. -/
def after (calls : List (OpId × Call)) : Queue :=
  calls.foldl (fun q call => q.apply call.2) empty

end Queue

/-- The entries that the enqueues among some calls add: the first gets the number 0, the next
the number 1, and so on. -/
def contributions (calls : List (OpId × Call)) : List (OpId × QueueEntry) :=
  (enqueuesOf calls).mapIdx fun i enqueue =>
    (enqueue.1, { sequence := UInt64.ofNat i, location := enqueue.2.1, metadata := enqueue.2.2 })

def State.contributions (s : State) : List (OpId × QueueEntry) :=
  OpenData.Buffer.contributions s.committed

/-- What holds of the queue in a state. -/
structure QueueHistory (s : State) : Prop where
  consecutive : ∃ es first next, s.entries = .ok es ∧ s.nextSequence = .ok next ∧
    es.map (fun e => e.sequence.toNat) = List.range' first es.length ∧
    first + es.length = next.toNat
  contributed : ∃ es, s.entries = .ok es ∧ es <:+ s.contributions.map Prod.snd
  okOnce : ∀ op location metadata reply,
    s.ops op = some ⟨.enqueue location metadata, .returned (.ok reply)⟩ →
      ∃ e, s.contributions.filter (fun p => p.1 == op) = [(op, e)] ∧
        e.location = location ∧ e.metadata = metadata
  errNone : ∀ op location metadata f,
    s.ops op = some ⟨.enqueue location metadata, .returned (.error f)⟩ →
      s.contributions.filter (fun p => p.1 == op) = []

/-- What a step does to the queue. -/
inductive QueueStep (s : State) : Label → State → Prop
  | quiet {l : Label} {s' : State} {es : List QueueEntry} (before : s.entries = .ok es)
      (now : s'.entries = .ok es) (contributed : s'.contributions = s.contributions) :
      QueueStep s l s'
  | enqueued {op : OpId} {location : String} {metadata : List Metadata} {pc : Pc} {s' : State}
      {es : List QueueEntry} {e : QueueEntry}
      (call : s.ops op = some ⟨.enqueue location metadata, pc⟩) (before : s.entries = .ok es)
      (now : s'.entries = .ok (es ++ [e]))
      (contributed : s'.contributions = s.contributions ++ [(op, e)])
      (own : e.location = location ∧ e.metadata = metadata) : QueueStep s (.put op) s'
  | dequeued {op : OpId} {c : ConsumerId} {throughSequence : UInt64} {pc : Pc} {s' : State}
      {removed es : List QueueEntry}
      (call : s.ops op = some ⟨.dequeue c throughSequence, pc⟩)
      (before : s.entries = .ok (removed ++ es)) (now : s'.entries = .ok es)
      (through : ∀ e ∈ removed, e.sequence ≤ throughSequence)
      (contributed : s'.contributions = s.contributions) : QueueStep s (.put op) s'

end OpenData.Buffer

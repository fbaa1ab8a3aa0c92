import OpenData.Buffer.Spec

/-!
# Sequences of edits on one manifest

An `Edit` is one operation on a manifest in memory: `append`, `dequeue`, `set_epoch`, or writing
it out and reading it back (`to_bytes`, then `from_bytes`). `Manifest.edits` runs a sequence of
edits on the bytes, with the entries that each dequeue returned. `Queue.edits` runs the same
sequence on the triple that the manifest stands for: its entries, the next sequence number and
the epoch. There a dequeue is a selection by sequence number, wherever the entries stand.
-/

namespace OpenData.Buffer

open Lib

/-- One operation on a manifest in memory. -/
inductive Edit where
  | append (entry : QueueEntry)
  | dequeue (throughSequence : UInt64)
  | setEpoch (epoch : UInt64)
  | reparse
deriving DecidableEq

namespace Manifest

def edit (m : Manifest) : Edit → Result (List QueueEntry × Manifest)
  | .append entry => do
      let m' ← m.append entry
      .ok ([], m')
  | .dequeue throughSequence => m.dequeue throughSequence
  | .setEpoch epoch => .ok ([], m.setEpoch epoch)
  | .reparse => do
      let bytes ← m.toBytes
      let m' ← fromBytes bytes
      .ok ([], m')

def edits (m : Manifest) : List Edit → Result (List (List QueueEntry) × Manifest)
  | [] => .ok ([], m)
  | e :: es => do
      let (removed, m') ← m.edit e
      let (rest, last) ← m'.edits es
      .ok (removed :: rest, last)

end Manifest

namespace Queue

/-- One edit on the triple. A dequeue returns the entries with sequence at most
`throughSequence` and keeps the others. -/
def edit (q : Queue) : Edit → List QueueEntry × Queue
  | .append entry => ([], q.append entry.location entry.metadata)
  | .dequeue throughSequence =>
    (q.entries.filter (·.sequence ≤ throughSequence),
      { q with entries := q.entries.filter fun e => !decide (e.sequence ≤ throughSequence) })
  | .setEpoch epoch => ([], q.setEpoch epoch)
  | .reparse => ([], q)

def edits (q : Queue) : List Edit → List (List QueueEntry) × Queue
  | [] => ([], q)
  | e :: es => ((q.edit e).1 :: ((q.edit e).2.edits es).1, ((q.edit e).2.edits es).2)

end Queue

/-- The length of the location is at most 65535 and the length of the body fits in its `u32`
field, the number of entries stays below `2 ^ 32`, and `next_sequence += 1` does not overflow. -/
def Edit.Within (q : Queue) : Edit → Prop
  | .append entry =>
    ((asBytes entry.location).length ≤ u16Max ∧
      entryBodyLen entry.location entry.metadata ≤ u32Max) ∧
    q.entries.length < u32Max ∧ q.nextSequence.toNat + 1 < 2 ^ 64
  | .dequeue _ => True
  | .setEpoch _ => True
  | .reparse => True

instance Edit.decidableWithin (q : Queue) : (e : Edit) → Decidable (e.Within q)
  | .append entry => inferInstanceAs (Decidable
      (((asBytes entry.location).length ≤ u16Max ∧
        entryBodyLen entry.location entry.metadata ≤ u32Max) ∧
      q.entries.length < u32Max ∧ q.nextSequence.toNat + 1 < 2 ^ 64))
  | .dequeue _ => .isTrue trivial
  | .setEpoch _ => .isTrue trivial
  | .reparse => .isTrue trivial

def Queue.Within (q : Queue) : List Edit → Prop
  | [] => True
  | e :: es => e.Within q ∧ (q.edit e).2.Within es

instance Queue.decidableWithin (q : Queue) : (es : List Edit) → Decidable (q.Within es)
  | [] => .isTrue trivial
  | e :: es => @instDecidableAnd _ _ inferInstance ((q.edit e).2.decidableWithin es)

end OpenData.Buffer

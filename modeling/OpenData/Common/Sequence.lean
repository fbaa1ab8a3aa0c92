import OpenData.Common.Storage
import OpenData.Lib.Run
import OpenData.Lib.Span

/-!
# Sequence numbers from persisted blocks

An allocator hands out consecutive sequence numbers. It reserves them in blocks: when the current
block does not suffice, it takes what is left of it, continues in a new block right behind, and
returns a record of the new block. The caller has to put this record into the storage before it
uses the numbers. After a crash the allocator starts behind the block that the storage has.
-/

namespace OpenData.Sequence

open Lib (Bytes Span toBe ofBe)
open Common (Record Storage DeserializeError)

/-! ### Blocks -/

structure SeqBlock where
  baseSequence : UInt64
  blockSize : UInt64
deriving Repr, DecidableEq

namespace SeqBlock

def serialize (block : SeqBlock) : Bytes :=
  toBe 8 block.baseSequence.toNat ++ toBe 8 block.blockSize.toNat

def deserialize (data : Bytes) : Except DeserializeError SeqBlock :=
  if data.length < 16 then
    .error { message :=
      s!"buffer too short for SeqBlock value: need 16 bytes, got {data.length}" }
  else
    .ok {
      baseSequence := UInt64.ofNat (ofBe (data.take 8))
      blockSize := UInt64.ofNat (ofBe ((data.drop 8).take 8)) }

def nextBase (block : SeqBlock) : UInt64 := block.baseSequence + block.blockSize

end SeqBlock

/-! ### The allocator -/

def defaultBlockSize : UInt64 := 4096

structure AllocatedSeqBlock where
  currentBlock : Option SeqBlock
  nextSequence : UInt64
deriving Repr, DecidableEq

namespace AllocatedSeqBlock

def nextBase (b : AllocatedSeqBlock) : UInt64 :=
  match b.currentBlock with
  | some block => block.nextBase
  | none => 0

def remaining (b : AllocatedSeqBlock) : UInt64 :=
  match b.currentBlock with
  | none => 0
  | some block =>
    if b.nextSequence ≤ block.nextBase then block.nextBase - b.nextSequence else 0

def load (storage : Storage) (key : Bytes) : Except DeserializeError AllocatedSeqBlock :=
  match storage[key]? with
  | none => .ok { currentBlock := none, nextSequence := 0 }
  | some value =>
    match SeqBlock.deserialize value with
    | .error e => .error e
    | .ok block => .ok { currentBlock := some block, nextSequence := block.nextBase }

end AllocatedSeqBlock

structure SequenceAllocator where
  key : Bytes
  block : AllocatedSeqBlock
deriving Repr, DecidableEq

namespace SequenceAllocator

def load (storage : Storage) (key : Bytes) : Except DeserializeError SequenceAllocator :=
  match AllocatedSeqBlock.load storage key with
  | .error e => .error e
  | .ok block => .ok { key, block }

def peekNextSequence (a : SequenceAllocator) : UInt64 := a.block.nextSequence

/-- The block behind the one in use, with room for at least `minCount` numbers, and its record. -/
def initNextBlock (a : SequenceAllocator) (minCount : UInt64) : SeqBlock × Record :=
  let newBlock : SeqBlock :=
    { baseSequence := a.block.nextBase, blockSize := max minCount defaultBlockSize }
  (newBlock, { key := a.key, value := newBlock.serialize })

/-- Take `count` consecutive numbers: the first of them, the record that has to be put before they
are used, and the allocator afterwards. -/
def allocate (a : SequenceAllocator) (count : UInt64) :
    UInt64 × Option Record × SequenceAllocator :=
  let remaining := a.block.remaining
  if count ≤ remaining then
    (a.block.nextSequence, none,
      { a with block := { a.block with nextSequence := a.block.nextSequence + count } })
  else
    -- What is left of the current block is used first.
    let fromNewBlock := count - remaining
    let (newBlock, record) := a.initNextBlock fromNewBlock
    let baseSequence := if 0 < remaining then a.block.nextSequence else newBlock.baseSequence
    (baseSequence, some record,
      { a with block :=
        { currentBlock := some newBlock, nextSequence := newBlock.baseSequence + fromNewBlock } })

def allocateOne (a : SequenceAllocator) : UInt64 × Option Record × SequenceAllocator :=
  a.allocate 1

/-- No sum of `allocate` exceeds `u64::MAX`: the end of a new block is a `u64`. -/
def Fits (a : SequenceAllocator) (count : UInt64) : Prop :=
  a.block.remaining < count →
    a.block.nextBase.toNat + (max (count - a.block.remaining) defaultBlockSize).toNat < 2 ^ 64

instance (a : SequenceAllocator) (count : UInt64) : Decidable (a.Fits count) :=
  inferInstanceAs (Decidable (_ → _))

end SequenceAllocator

/-! ### A caller with crashes -/

structure Allocation where
  range : Span
  record : Option Record
deriving Repr, DecidableEq

/-- The storage and the process that allocates. -/
structure State where
  storage : Storage
  allocator : Option SequenceAllocator
  awaiting : List Allocation
  incarnation : Nat
  handed : List (Nat × Span)

inductive Label where
  | load
  | allocate (count : UInt64)
  | persist
  | crash
deriving Repr, DecidableEq

namespace State

def init (storage : Storage) : State :=
  { storage, allocator := none, awaiting := [], incarnation := 0, handed := [] }

/-- One step; `key` is the key of the block record. -/
def step (key : Bytes) (s : State) : Label → Option State
  | .load =>
    match s.allocator, SequenceAllocator.load s.storage key with
    | none, .ok a => some { s with allocator := some a, incarnation := s.incarnation + 1 }
    | _, _ => none
  | .allocate count =>
    match s.allocator with
    | none => none
    | some a =>
      let (base, record, a) := a.allocate count
      let range : Span := { start := base.toNat, stop := base.toNat + count.toNat }
      some { s with allocator := some a, awaiting := s.awaiting ++ [{ range, record }] }
  -- The oldest allocation: its record is put, and its range goes into use.
  | .persist =>
    match s.awaiting with
    | [] => none
    | c :: awaiting =>
      some { s with
        storage := s.storage.put c.record.toList
        awaiting
        handed := s.handed ++ [(s.incarnation, c.range)] }
  | .crash => some { s with allocator := none, awaiting := [] }

end State

end OpenData.Sequence

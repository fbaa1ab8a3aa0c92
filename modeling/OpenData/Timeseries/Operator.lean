import OpenData.Lib.Chunks
import OpenData.Timeseries.Serde

/-!
# Operators that emit a grid in tiles

A query is evaluated on a grid of steps. The two selector operators of `promql::operators` emit the
cells of all steps and all series in tiles: a chunk of series is loaded from the source, its steps
are emitted chunk by chunk, and then the next chunk of series follows. They have the same state
machine, which is `TiledOp` here with the batches and the cursors as parameters.
-/

namespace OpenData.Timeseries

open Lib (Span)

/-! ### Times -/

def saturatingAdd (a b : Int64) : Int64 := Int64.ofInt (max (-2 ^ 63) (min (2 ^ 63 - 1)
  (a.toInt + b.toInt)))

def saturatingSub (a b : Int64) : Int64 := Int64.ofInt (max (-2 ^ 63) (min (2 ^ 63 - 1)
  (a.toInt - b.toInt)))

def staleNan : UInt64 := 0x7ff0000000000002

def isStaleNan (value : UInt64) : Bool := value = staleNan

/-- `try_from` refuses a time before the epoch. -/
inductive AtModifier where
  | at (pin : Int64)
  | start
  | end

inductive Offset where
  | pos (ms : Int64)
  | neg (ms : Int64)

def Offset.signedMs : Offset → Int64
  | .pos ms => ms
  | .neg ms => -ms

structure TimeRange where
  startMs : Int64
  endMsExclusive : Int64
deriving Repr, DecidableEq

/-! ### Tiles -/

structure BatchShape where
  stepChunk : Nat
  seriesChunk : Nat
  stepChunk_pos : 0 < stepChunk
  seriesChunk_pos : 0 < seriesChunk

inductive Poll (α : Type) where
  | pending
  | ready (a : α)
deriving Repr, DecidableEq

/-- A selector operator: the samples `S` of a chunk of series, the cursors `C` that it keeps for
them, and the batch `B` of a tile. -/
structure TiledOp (S C B : Type) where
  totalSeries : Nat
  stepCount : Nat
  shape : BatchShape
  load : Span → S
  newCursors : Span → C
  build : Span → S → C → Span → B × C

inductive TiledOp.State (S C : Type) where
  | init
  | loadingChunk (chunk : Span)
  | emitting (chunk : Span) (samples : S) (cursors : C) (nextStepChunkStart : Nat)
  | done
  | errored

/-- What a call meets: the result of polling the load, and whether the reservation has the bytes for
a batch. -/
structure Answers (ε : Type) where
  load : Poll (Except ε Unit)
  grow : Except ε Unit

namespace TiledOp

variable {S C B ε : Type} (op : TiledOp S C B)

def startChunkLoad (chunkStart : Nat) : State S C :=
  .loadingChunk ⟨chunkStart, min (chunkStart + op.shape.seriesChunk) op.totalSeries⟩

def pollLoop (answers : Answers ε) : Nat → State S C → State S C × Poll (Option (Except ε B))
  | 0, state => (state, .pending)
  | fuel + 1, .init =>
    if op.totalSeries = 0 ∨ op.stepCount = 0 then (.done, .ready none)
    else pollLoop answers fuel (op.startChunkLoad 0)
  | fuel + 1, .loadingChunk chunk =>
    match answers.load with
    | .pending => (.loadingChunk chunk, .pending)
    | .ready (.ok ()) =>
      pollLoop answers fuel (.emitting chunk (op.load chunk) (op.newCursors chunk) 0)
    | .ready (.error e) => (.errored, .ready (some (.error e)))
  | fuel + 1, .emitting chunk samples cursors next =>
    if op.stepCount ≤ next then
      if op.totalSeries ≤ chunk.stop then (.done, .ready none)
      else pollLoop answers fuel (op.startChunkLoad chunk.stop)
    else
      match answers.grow with
      | .error e => (.errored, .ready (some (.error e)))
      | .ok () =>
        let steps : Span := ⟨next, min (next + op.shape.stepChunk) op.stepCount⟩
        let (batch, cursors) := op.build chunk samples cursors steps
        (.emitting chunk samples cursors steps.stop, .ready (some (.ok batch)))
  | _ + 1, .done => (.done, .ready none)
  | _ + 1, .errored => (.done, .ready none)

def poll (answers : Answers ε) (state : State S C) : State S C × Poll (Option (Except ε B)) :=
  op.pollLoop answers 3 state

def drive : State S C → List (Answers ε) → State S C × List (Poll (Option (Except ε B)))
  | state, [] => (state, [])
  | state, answers :: rest =>
    let (state, result) := op.poll answers state
    let (state, results) := drive state rest
    (state, result :: results)

end TiledOp

def Poll.isReady {α : Type} : Poll α → Bool
  | .pending => false
  | .ready _ => true

/-- The batch that a call returns. -/
def Poll.item {ε B : Type} : Poll (Option (Except ε B)) → Option B
  | .ready (some (.ok batch)) => some batch
  | _ => none

/-- The call returns an error. -/
def Poll.isError {ε B : Type} : Poll (Option (Except ε B)) → Bool
  | .ready (some (.error _)) => true
  | _ => false

/-- The call returns the end of the stream. -/
def Poll.isEnd {ε B : Type} : Poll (Option (Except ε B)) → Bool
  | .ready none => true
  | _ => false

/-! ### Loops of the operators -/

def advancePast (column : List Sample) (bound : Int64) (i : Nat) : Nat :=
  i + ((column.drop i).takeWhile fun s => s.timestampMs ≤ bound).length

def cellOrder (stepCount seriesCount : Nat) : List (Nat × Nat) :=
  (List.range stepCount).flatMap fun stepOff =>
    (List.range seriesCount).map fun seriesOff => (stepOff, seriesOff)

end OpenData.Timeseries

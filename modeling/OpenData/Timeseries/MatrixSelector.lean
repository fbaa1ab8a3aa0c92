import OpenData.Timeseries.Operator

/-!
# The windows of a range vector

The embedding of `promql::operators::matrix_selector`. For each step and each series the operator
emits the samples of the window that ends at the effective time of the step. Two cursors for each
series move over its samples, and start again when a window ends before the last one.
-/

namespace OpenData.Timeseries

open Lib (Span)

structure CellIndex where
  offset : UInt32
  len : UInt32
deriving Repr, DecidableEq

def CellIndex.empty : CellIndex := ⟨0, 0⟩

structure MatrixWindowBatch where
  stepTimestamps : List Int64
  stepRange : Span
  seriesRange : Span
  samples : List Sample
  cells : List CellIndex
  effectiveTimes : Option (List Int64)
deriving Repr, DecidableEq

namespace MatrixWindowBatch

/-- `cell_samples`, with the step and the series of the whole grid. -/
def cellIndex (batch : MatrixWindowBatch) (step series : Nat) : Option CellIndex :=
  batch.cells[(step - batch.stepRange.start) * (batch.seriesRange.stop - batch.seriesRange.start)
    + (series - batch.seriesRange.start)]?

end MatrixWindowBatch

/-! ### The cursors -/

structure SeriesCursor where
  lo : Nat
  hi : Nat
  lastWindowHi : Int64
deriving Repr, DecidableEq

namespace SeriesCursor

def new : SeriesCursor := { lo := 0, hi := 0, lastWindowHi := Int64.minValue }

/-- The samples from `lo` up to `hi` are the window. -/
def advance (cursor : SeriesCursor) (column : List Sample) (windowLo windowHi : Int64) :
    SeriesCursor :=
  let cursor := if windowHi < cursor.lastWindowHi then { cursor with lo := 0, hi := 0 } else cursor
  let lo := advancePast column windowLo cursor.lo
  let hi := if cursor.hi < lo then lo else cursor.hi
  let hi := advancePast column windowHi hi
  let hi := if hi < lo then lo else hi
  { lo, hi, lastWindowHi := windowHi }

end SeriesCursor

/-! ### The operator -/

structure MatrixSelectorOp where
  totalSeries : Nat
  columns : Nat → List Sample
  stepTimestamps : List Int64
  effectiveTimes : List Int64
  hasEffectiveShift : Bool
  rangeMs : Int64
  shape : BatchShape
  range_pos : 0 < rangeMs

structure WindowBuffers where
  samples : List Sample
  cells : List CellIndex
  cursors : List SeriesCursor

namespace MatrixSelectorOp

variable (op : MatrixSelectorOp)

def effective (k : Nat) : Int64 := op.effectiveTimes.getD k 0

/-- The window of the requests. No time is taken for the largest `i64`. -/
def timeRangeWithRange : TimeRange :=
  let (min, max) := op.effectiveTimes.foldl
    (fun bounds t => (if t < bounds.1 then t else bounds.1, if bounds.2 < t then t else bounds.2))
    (Int64.maxValue, Int64.minValue)
  if min = Int64.maxValue then ⟨0, 0⟩
  else ⟨saturatingAdd (saturatingSub min op.rangeMs) 1, saturatingAdd max 1⟩

/-- The body of the loops of `build_window_batch`: one cell, without stale markers. -/
def packCell (samples : List (List Sample)) (stepChunkStart : Nat) (buffers : WindowBuffers)
    (cell : Nat × Nat) : WindowBuffers :=
  let effective := op.effective (stepChunkStart + cell.1)
  let column := samples.getD cell.2 []
  let cursor := (buffers.cursors.getD cell.2 SeriesCursor.new).advance column
    (saturatingSub effective op.rangeMs) effective
  let inCell := ((column.take cursor.hi).drop cursor.lo).filter fun s => !isStaleNan s.value
  { samples := buffers.samples ++ inCell
    cells := buffers.cells.set (cell.1 * samples.length + cell.2)
      { offset := UInt32.ofNat buffers.samples.length, len := UInt32.ofNat inCell.length }
    cursors := buffers.cursors.set cell.2 cursor }

def buildWindowBatch (chunk : Span) (samples : List (List Sample)) (cursors : List SeriesCursor)
    (steps : Span) : MatrixWindowBatch × List SeriesCursor :=
  let stepCount := steps.stop - steps.start
  let buffers := (cellOrder stepCount samples.length).foldl (op.packCell samples steps.start)
    { samples := [], cells := List.replicate (stepCount * samples.length) .empty, cursors }
  ({ stepTimestamps := op.stepTimestamps
     stepRange := steps
     seriesRange := chunk
     samples := buffers.samples
     cells := buffers.cells
     effectiveTimes := if op.hasEffectiveShift then some op.effectiveTimes else none },
    buffers.cursors)

/-- The samples of the series that the source returns for a request. -/
def requested (series : Nat) : List Sample :=
  (op.columns series).filter fun s => op.timeRangeWithRange.startMs ≤ s.timestampMs ∧
    s.timestampMs < op.timeRangeWithRange.endMsExclusive

def loadChunk (chunk : Span) : List (List Sample) :=
  (List.range (chunk.stop - chunk.start)).map fun i => op.requested (chunk.start + i)

/-- `windows` is a call of this operator. -/
def tiled : TiledOp (List (List Sample)) (List SeriesCursor) MatrixWindowBatch where
  totalSeries := op.totalSeries
  stepCount := op.effectiveTimes.length
  shape := op.shape
  load := op.loadChunk
  newCursors chunk := List.replicate (chunk.stop - chunk.start) SeriesCursor.new
  build := op.buildWindowBatch

end MatrixSelectorOp

end OpenData.Timeseries

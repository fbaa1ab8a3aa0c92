import OpenData.Lib.Group
import OpenData.Timeseries.MatrixSelector

/-!
# An inner expression on a grid of its own

The embedding of `promql::operators::subquery` and of `build_subquery` in `promql::plan::physical`.
For each outer step the operator plans the inner expression again, on the multiples of the inner
step in the window of the outer step, and collects its values into one row for each series. The rows
are those of a probe, which is planned once on the grid of the first outer step.
-/

namespace OpenData.Timeseries

open Lib (Span scatter)

/-! ### Grids -/

/-- A `StepGrid` as `inner_grid` returns it. -/
structure InnerGrid where
  startMs : Int64
  endMs : Int64
  stepMs : Int64
  stepCount : Nat
deriving Repr, DecidableEq

def InnerGrid.stepTimestamp (grid : InnerGrid) (k : Nat) : Int64 :=
  grid.startMs + Int64.ofNat k * grid.stepMs

def divEuclid (a b : Int64) : Int64 := Int64.ofInt (a.toInt / b.toInt)

/-- `max(1)`. -/
def atLeastOne (ms : Int64) : Int64 := if ms < 1 then 1 else ms

def innerGrid (effective rangeMs innerStepMs : Int64) : InnerGrid :=
  let range := atLeastOne rangeMs
  let step := atLeastOne innerStepMs
  let windowLo := saturatingAdd (saturatingSub effective range) 1
  let first := -divEuclid (-windowLo) step * step
  let last := divEuclid effective step * step
  if last < first then ⟨effective, effective, step, 0⟩
  else ⟨first, last, step, ((last - first) / step + 1).toUInt64.toNat⟩

/-! ### The operator -/

structure SubqueryOp where
  series : List (List Label)
  outerStepTimestamps : List Int64
  effectiveTimes : List Int64
  rangeMs : Int64
  innerStepMs : Int64
  nextOuterStep : Nat
  errored : Bool
  range_pos : 0 < rangeMs
  innerStep_pos : 0 < innerStepMs

def keepSample (window : TimeRange) (t : Int64) (value : Option UInt64) : Option Sample :=
  if t < window.startMs ∨ window.endMsExclusive ≤ t then none
  else value.bind fun v => if isStaleNan v then none else some ⟨t, v⟩

structure StepBatch where
  stepTimestamps : List Int64
  stepRange : Span
  seriesRange : Span
  cells : List (Option Sample)
deriving Repr, DecidableEq

namespace StepBatch

/-- The cell of a step and a series of the whole grid. -/
def cell (batch : StepBatch) (step series : Nat) : Option (Option Sample) :=
  batch.cells[(step - batch.stepRange.start) * (batch.seriesRange.stop - batch.seriesRange.start)
    + (series - batch.seriesRange.start)]?

/-- `get`: the value of a cell that is valid. -/
def value (batch : StepBatch) (step series : Nat) : Option UInt64 :=
  (batch.cell step series).join.map Sample.value

/-- The pushes of `absorb_batch`, in the order of its loops, with the rows they go to. -/
def pushes (batch : StepBatch) (window : TimeRange) : List (Nat × List Sample) :=
  batch.stepRange.toList.flatMap fun step => batch.seriesRange.toList.filterMap fun series =>
    (keepSample window (batch.stepTimestamps.getD step 0) (batch.value step series)).map
      fun s => (series, [s])

def absorb (window : TimeRange) (rows : List (List Sample)) (batch : StepBatch) :
    Option (List (List Sample)) :=
  if (batch.pushes window).all (fun push => push.1 < rows.length) then
    some (scatter rows (batch.pushes window))
  else none

end StepBatch

/-- What a call of the `next` of an inner operator returns. -/
abbrev ChildPoll (ε : Type) := Poll (Option (Except ε StepBatch))

/-- What a call of `windows` meets: the inner operator that the factory plans on a grid, as what its
calls of `next` return, and the bytes of the cells and of the samples. -/
structure SubqueryAnswers (ε : Type) where
  factory : InnerGrid → Except ε (List (ChildPoll ε))
  allocate : Except ε Unit
  growSamples : List (List Sample) → Except ε Unit

/-- What the calls of a child's `next` have returned when it is dropped, and the result of the loop
that calls them. `none` is an index out of bounds. -/
structure Sweep (ε : Type) where
  polled : List (ChildPoll ε)
  rows : Option (Poll (Except ε (List (List Sample))))

namespace SubqueryOp

variable {ε : Type} (op : SubqueryOp)

/-- The loop over the batches of the inner operator. The child is a local variable of the loop, and
every way out of it drops the child. -/
def drain (window : TimeRange) : List (ChildPoll ε) → List (List Sample) → Sweep ε
  | [], _ | .pending :: _, _ => ⟨[.pending], some .pending⟩
  | .ready none :: _, rows => ⟨[.ready none], some (.ready (.ok rows))⟩
  | .ready (some (.error e)) :: _, _ => ⟨[.ready (some (.error e))], some (.ready (.error e))⟩
  | .ready (some (.ok batch)) :: rest, rows =>
    let sweep : Sweep ε := match batch.absorb window rows with
      | none => ⟨[], none⟩
      | some rows => drain window rest rows
    { sweep with polled := .ready (some (.ok batch)) :: sweep.polled }

def packRows (rows : List (List Sample)) : List Sample × List CellIndex :=
  rows.foldl (fun packed row => (packed.1 ++ row,
    packed.2 ++ [⟨UInt32.ofNat packed.1.length, UInt32.ofNat row.length⟩])) ([], [])

def batchOf (step : Nat) (rows : List (List Sample)) (effectiveTimes : Option (List Int64)) :
    MatrixWindowBatch where
  stepTimestamps := op.outerStepTimestamps
  stepRange := ⟨step, step + 1⟩
  seriesRange := ⟨0, op.series.length⟩
  samples := (packRows rows).1
  cells := (packRows rows).2
  effectiveTimes

def effective (step : Nat) : Int64 := op.effectiveTimes.getD step 0

def innerWindow (step : Nat) : TimeRange :=
  ⟨saturatingAdd (saturatingSub (op.effective step) op.rangeMs) 1,
    saturatingAdd (op.effective step) 1⟩

def childGrid (step : Nat) : InnerGrid :=
  innerGrid (saturatingSub (op.innerWindow step).endMsExclusive 1) op.rangeMs op.innerStepMs

/-- The first component is what the polls of the child that the factory built have returned when the
child is dropped. It is empty where the cells cannot be allocated: the child is built before. -/
def buildOuterStepBatch (answers : SubqueryAnswers ε) (step : Nat) :
    Option (List (ChildPoll ε)) × Option (Poll (Except ε MatrixWindowBatch)) :=
  match answers.factory (op.childGrid step), answers.allocate with
  | .error e, _ => (none, some (.ready (.error e)))
  | .ok _, .error e => (some [], some (.ready (.error e)))
  | .ok child, .ok () =>
    let sweep := drain (op.innerWindow step) child (List.replicate op.series.length [])
    (some sweep.polled, sweep.rows.map fun
      | .pending => .pending
      | .ready rows => .ready do
          let rows ← rows
          answers.growSamples rows
          .ok (op.batchOf step rows (if op.outerStepTimestamps = op.effectiveTimes then none
            else some op.effectiveTimes)))

def windows (answers : SubqueryAnswers ε) :
    Option (SubqueryOp × Poll (Option (Except ε MatrixWindowBatch))) :=
  if op.errored ∨ op.effectiveTimes.length ≤ op.nextOuterStep then some (op, .ready none)
  else if op.series = [] then
    some ({ op with nextOuterStep := op.nextOuterStep + 1 },
      .ready (some (.ok (op.batchOf op.nextOuterStep [] none))))
  else
    (op.buildOuterStepBatch answers op.nextOuterStep).2.map fun
      | .pending => (op, .pending)
      | .ready (.error e) => ({ op with errored := true }, .ready (some (.error e)))
      | .ready (.ok batch) =>
        ({ op with nextOuterStep := op.nextOuterStep + 1 }, .ready (some (.ok batch)))

def drive : SubqueryOp → List (SubqueryAnswers ε) →
    Option (SubqueryOp × List (Poll (Option (Except ε MatrixWindowBatch))))
  | op, [] => some (op, [])
  | op, answers :: rest => do
      let (op, result) ← op.windows answers
      let (op, results) ← drive op rest
      some (op, result :: results)

end SubqueryOp

end OpenData.Timeseries

import OpenData.Timeseries.Operator

/-!
# Batches of values, and operators over them

An operator polls its child and emits batches of its own. A child is the list of what its calls
return, so that it may be pending anywhere. `calls` is what the calls of an operator return.
-/

namespace OpenData.Timeseries

open Lib (Span)

/-- A `StepBatch`. A cell that is not valid is `none`. -/
structure ValueBatch (V : Type) where
  stepTimestamps : List Int64
  stepRange : Span
  seriesRange : Span
  cells : List (Option V)
deriving DecidableEq

namespace ValueBatch

variable {V : Type} (batch : ValueBatch V)

def stepCount : Nat := batch.stepRange.stop - batch.stepRange.start

def seriesCount : Nat := batch.seriesRange.stop - batch.seriesRange.start

/-- `cell_of`: the offsets are those inside of the batch. -/
def cellOf (stepOff seriesOff : Nat) : Option V :=
  (batch.cells[stepOff * batch.seriesCount + seriesOff]?).join

/-- The cell of a step and a series of the whole grid. -/
def cell (step series : Nat) : Option V :=
  batch.cellOf (step - batch.stepRange.start) (series - batch.seriesRange.start)

def row (step : Nat) : List ((Nat × Nat) × V) :=
  batch.seriesRange.toList.filterMap fun series =>
    (batch.cell step series).map fun v => ((step, series), v)

/-- The valid cells, in the order of the loops. -/
def entries : List ((Nat × Nat) × V) := batch.stepRange.toList.flatMap batch.row

end ValueBatch

/-- What the calls of `next` of a child return, up to its end. -/
abbrev Child (ε β : Type) := List (Poll (Except ε β))

def Child.next {ε β : Type} : Child ε β → Poll (Option (Except ε β)) × Child ε β
  | [] => (.ready none, [])
  | .pending :: rest => (.pending, rest)
  | .ready result :: rest => (.ready (some result), rest)

namespace Child

variable {ε β σ : Type}

def drain (absorb : σ → β → σ) : Child ε β → σ → Child ε β × σ × Poll (Except ε Unit)
  | [], s => ([], s, .ready (.ok ()))
  | .pending :: rest, s => (rest, s, .pending)
  | .ready (.error e) :: rest, s => (rest, s, .ready (.error e))
  | .ready (.ok batch) :: rest, s => drain absorb rest (absorb s batch)

end Child

/-- What the next calls of an operator return. -/
def calls {σ α : Type} (next : σ → σ × α) : σ → Nat → List α
  | _, 0 => []
  | s, n + 1 => (next s).2 :: calls next (next s).1 n

def Poll.emitted {α : Type} : Poll (Option α) → Option α
  | .ready result => result
  | .pending => none

end OpenData.Timeseries

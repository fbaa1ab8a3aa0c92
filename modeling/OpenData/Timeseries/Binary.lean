import Mathlib.Data.List.Lex
import Mathlib.Data.Prod.Lex
import OpenData.Lib.Monadic
import OpenData.Lib.Sorted
import OpenData.Timeseries.Stream

/-!
# Operators with two operands

The embedding of `promql::operators::binary` between two vectors, and of the matching in
`promql::plan::physical`. The planner fixes once which series of the other side each series meets
(`buildMatchTable`). The operator drains both children into buffers over the whole grid, which stay
when a child is pending, and looks up both cells at every step. The operators on values are
functions that are not looked into.
-/

namespace OpenData.Timeseries

open Lib (Span asBytes setAll sortBy)

/-! ### Cells -/

inductive BinaryOpKind (V : Type) where
  | arith (apply : V → V → V)
  | cmp (apply : V → V → Bool) (boolModifier : Bool)
  | and
  | or
  | unless

/-- The cell of the result. `bit` is `1.0` or `0.0`. -/
def writeCell {V : Type} (bit : Bool → V) : BinaryOpKind V → Option V → Option V → Option V
  | .arith apply, some l, some r => some (apply l r)
  | .cmp apply true, some l, some r => some (bit (apply l r))
  | .cmp apply false, some l, some r => if apply l r then some l else none
  | .and, some l, some _ => some l
  | .or, some l, _ => some l
  | .or, none, r => r
  | .unless, some l, none => some l
  | _, _, _ => none

/-! ### Matching -/

/-- `Ord for Label`: by the name, then by the value. -/
def sortByNameAndValue (labels : List Label) : List Label :=
  sortBy (fun label => toLex ((asBytes label.name).map UInt8.toNat,
    (asBytes label.value).map UInt8.toNat)) labels

inductive MatchingAxis where
  | on
  | ignoring

inductive Cardinality where
  | oneToOne
  | manyToMany
  | groupLeft (labels : List String)
  | groupRight (labels : List String)

structure BinaryMatching where
  axis : MatchingAxis
  labels : List String
  cardinality : Cardinality

def MatchingAxis.keeps (axis : MatchingAxis) (names : List String) (label : Label) : Bool :=
  match axis with
  | .on => label.name ∈ names
  | .ignoring => label.name ∉ names

def matchingKey (labels : List Label) (axis : MatchingAxis) (names : List String) : List Label :=
  labels.filter fun l => l.name ≠ "__name__" && axis.keeps names l

def resultLabelsForOutput (input : List Label) (includeName : Bool) : List Label :=
  if includeName then input else input.filter fun l => l.name ≠ "__name__"

def resultLabelsForOneToOne (input : List Label) (axis : MatchingAxis) (names : List String)
    (includeNameOnOutput : Bool) : List Label :=
  (resultLabelsForOutput input includeNameOnOutput).filter (axis.keeps names)

def composeGroupLabels (manySide : List Label) (oneSide : Option (List Label))
    (includeLabels : List String) (includeNameOnOutput : Bool) : List Label :=
  let out := manySide.filter fun l => includeNameOnOutput || l.name ≠ "__name__"
  sortByNameAndValue <| match oneSide with
    | none => out
    | some one => includeLabels.foldl (fun out name =>
        out.filter (fun l => l.name ≠ name) ++ (one.find? fun l => l.name = name).toList) out

inductive MatchTable where
  | oneToOne (map : List (Option Nat))
  | groupLeft (map : List (Option Nat))
  | groupRight (map : List (Option Nat))

def MatchTable.map : MatchTable → List (Option Nat)
  | .oneToOne map | .groupLeft map | .groupRight map => map

def matchFirst (many one : List (List Label)) (axis : MatchingAxis) (names : List String) :
    List (Option Nat) :=
  many.map fun labels =>
    (one.map (matchingKey · axis names)).idxOf? (matchingKey labels axis names)

def groupLabels (many one : List (List Label)) (axis : MatchingAxis)
    (names includeLabels : List String) (includeName : Bool) : List (List Label) :=
  (many.zip (matchFirst many one axis names)).map fun row =>
    composeGroupLabels row.1 (row.2.bind (one[·]?)) includeLabels includeName

def buildMatchTable (lhs rhs : List (List Label)) (matching : Option BinaryMatching)
    (includeName : Bool) : MatchTable × List (List Label) :=
  let m := matching.getD ⟨.ignoring, [], .oneToOne⟩
  match m.cardinality with
  | .oneToOne | .manyToMany => (.oneToOne (matchFirst lhs rhs m.axis m.labels),
      lhs.map fun labels => resultLabelsForOneToOne labels m.axis m.labels includeName)
  | .groupLeft labels => (.groupLeft (matchFirst lhs rhs m.axis m.labels),
      groupLabels lhs rhs m.axis m.labels labels includeName)
  | .groupRight labels => (.groupRight (matchFirst rhs lhs m.axis m.labels),
      groupLabels rhs lhs m.axis m.labels labels includeName)

/-! ### Two vectors -/

/-- The cells of one side over the whole grid. -/
structure BufferedSide (V : Type) where
  stepCount : Nat
  totalSeries : Nat
  cells : List (Option V)

namespace BufferedSide

variable {V : Type}

def empty (stepCount totalSeries : Nat) : BufferedSide V :=
  ⟨stepCount, totalSeries, List.replicate (stepCount * totalSeries) none⟩

/-- Cells outside of the grid are skipped. -/
def absorb (side : BufferedSide V) (batch : ValueBatch V) : BufferedSide V :=
  { side with cells := setAll side.cells ((batch.entries.filter fun entry =>
      entry.1.1 < side.stepCount && entry.1.2 < side.totalSeries).map fun entry =>
        (entry.1.1 * side.totalSeries + entry.1.2, some entry.2)) }

def get (side : BufferedSide V) (step series : Nat) : Option V :=
  if side.stepCount ≤ step ∨ side.totalSeries ≤ series then none
  else (side.cells[step * side.totalSeries + series]?).join

end BufferedSide

/-- A child of the operator, `vv_lhs` or `vv_rhs` with the cells that it gave, and `vv_lhs_done` or
`vv_rhs_done`. -/
structure VectorSide (V : Type) where
  child : Child String (ValueBatch V)
  totalSeries : Nat
  buffer : Option (BufferedSide V) := none
  done : Bool := false

/-- A `BinaryOp` between two vectors. `allocate` is what the reservation answers, and
`stepTimestamps` are those of the grid. -/
structure BinaryOp (V : Type) where
  lhs : VectorSide V
  rhs : VectorSide V
  kind : BinaryOpKind V
  matchTable : MatchTable
  stepTimestamps : List Int64
  allocate : Nat → Except String Unit
  anyBatch : Bool := false
  emitted : Bool := false
  done : Bool := false
  errored : Bool := false

/-- One poll of a side that is not done. The result says if there was a batch. -/
def VectorSide.poll {V : Type} (side : VectorSide V) : VectorSide V × Poll (Except String Bool) :=
  if side.done then (side, .ready (.ok false)) else
    match side.child.next with
    | (.pending, child) => ({ side with child }, .pending)
    | (.ready none, child) => ({ side with child, done := true }, .ready (.ok false))
    | (.ready (some (.error e)), child) => ({ side with child }, .ready (.error e))
    | (.ready (some (.ok batch)), child) =>
      ({ side with child, buffer := side.buffer.map (·.absorb batch) }, .ready (.ok true))

namespace BinaryOp

variable {V : Type} (bit : Bool → V) (op : BinaryOp V)

/-- The loop of `drain_vv`. A round that polls neither side is the first with both done. -/
def drainLoop : Nat → BinaryOp V → BinaryOp V × Poll (Except String Bool)
  | 0, op => (op, .ready (.ok false))
  | fuel + 1, op =>
    match op.lhs.poll with
    | (lhs, .pending) => ({ op with lhs }, .pending)
    | (lhs, .ready (.error e)) => ({ op with lhs }, .ready (.error e))
    | (lhs, .ready (.ok batchL)) =>
      match op.rhs.poll with
      | (rhs, .pending) => ({ op with lhs, rhs, anyBatch := op.anyBatch || batchL }, .pending)
      | (rhs, .ready (.error e)) =>
        ({ op with lhs, rhs, anyBatch := op.anyBatch || batchL }, .ready (.error e))
      | (rhs, .ready (.ok batchR)) =>
        let polled := { op with lhs, rhs, anyBatch := op.anyBatch || batchL || batchR }
        if lhs.done && rhs.done then (polled, .ready (.ok true)) else drainLoop fuel polled

/-- The buffers are allocated by the first call, and the loop ends before the fuel does. -/
def drainVv : BinaryOp V × Poll (Except String Bool) :=
  let steps := op.stepTimestamps.length
  let room := if op.lhs.buffer.isSome then .ok () else do
    op.allocate (steps * op.lhs.totalSeries)
    op.allocate (steps * op.rhs.totalSeries)
  match room with
  | .error e => (op, .ready (.error e))
  | .ok () =>
    drainLoop (op.lhs.child.length + op.rhs.child.length + 3)
      { op with
        lhs.buffer := some (op.lhs.buffer.getD (.empty steps op.lhs.totalSeries))
        rhs.buffer := some (op.rhs.buffer.getD (.empty steps op.rhs.totalSeries)) }

def vvCell (lhs rhs : BufferedSide V) (step row : Nat) : Option V :=
  let other := (op.matchTable.map[row]?).join
  match op.matchTable with
  | .oneToOne _ | .groupLeft _ =>
    writeCell bit op.kind (lhs.get step row) (other.bind (rhs.get step))
  | .groupRight _ => writeCell bit op.kind (other.bind (lhs.get step)) (rhs.get step row)

/-- One batch over the whole grid. -/
def vvBatch (lhs rhs : BufferedSide V) : ValueBatch V where
  stepTimestamps := op.stepTimestamps
  stepRange := ⟨0, lhs.stepCount⟩
  seriesRange := ⟨0, op.matchTable.map.length⟩
  cells := (cellOrder lhs.stepCount op.matchTable.map.length).map fun c =>
    op.vvCell bit lhs rhs c.1 c.2

def applyVv (lhs rhs : BufferedSide V) : Except String (ValueBatch V) := do
  op.allocate (lhs.stepCount * op.matchTable.map.length)
  .ok (op.vvBatch bit lhs rhs)

/-- The end of `next`, once both sides are drained. -/
def finish : BinaryOp V × Poll (Option (Except String (ValueBatch V))) :=
  let taken := { op with emitted := true, lhs.buffer := none, rhs.buffer := none }
  if op.anyBatch then
    match op.lhs.buffer, op.rhs.buffer with
    | some lhs, some rhs =>
      match op.applyVv bit lhs rhs with
      | .ok batch => (taken, .ready (some (.ok batch)))
      | .error e => ({ taken with errored := true }, .ready (some (.error e)))
    | _, _ => ({ taken with errored := true }, .ready (some (.error
        "Binary: vv buffers missing on drain completion")))
  else ({ taken with done := true }, .ready none)

/-- What `next` makes of the result of `drain_vv`. -/
def settle : BinaryOp V × Poll (Except String Bool) →
    BinaryOp V × Poll (Option (Except String (ValueBatch V)))
  | (op, .pending) => (op, .pending)
  | (op, .ready (.error e)) => ({ op with errored := true }, .ready (some (.error e)))
  | (op, .ready (.ok false)) => ({ op with errored := true }, .ready (some (.error
      "Binary: vv drain stalled with live children")))
  | (op, .ready (.ok true)) => op.finish bit

def next : BinaryOp V × Poll (Option (Except String (ValueBatch V))) :=
  if op.done || op.errored then (op, .ready none)
  else if op.emitted then ({ op with done := true }, .ready none)
  else settle bit op.drainVv

end BinaryOp

/-- The operator that the planner makes of two vectors with the given label sets. -/
def planVectors {V : Type} (left right : List (List Label)) (lhs rhs : Child String (ValueBatch V))
    (kind : BinaryOpKind V) (matching : Option BinaryMatching) (includeName : Bool)
    (stepTimestamps : List Int64) (allocate : Nat → Except String Unit) : BinaryOp V where
  lhs := { child := lhs, totalSeries := left.length }
  rhs := { child := rhs, totalSeries := right.length }
  kind
  matchTable := (buildMatchTable left right matching includeName).1
  stepTimestamps
  allocate

end OpenData.Timeseries

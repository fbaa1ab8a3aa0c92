import OpenData.Lib.Group
import OpenData.Timeseries.Binary

/-!
# Operators that drain their child

The embedding of `promql::operators::{label_manip, count_values, aggregate}` and of the tables that
the planner builds for them. `label_replace`, `label_join` and `count_values` collect the batches of
their child in one call and merge them at its end. An aggregation keeps a grid of accumulators, or
for `topk` and `bottomk` a buffer of all cells, and takes every batch into it. All emit one batch
over the whole grid.
-/

namespace OpenData.Timeseries

open Lib (internAll groupPairs setAll)

/-! ### Labels -/

def buildLabelManip (apply : List Label → Except String (List Label)) (input : List (List Label)) :
    Except String (List Nat × List (List Label)) :=
  (input.mapM apply).map internAll

inductive AggregateGrouping where
  | by (keep : List String)
  | without (drop : List String)

def groupKeyLabels (labels : List Label) : AggregateGrouping → List Label
  | .by keep => labels.filter fun l => l.name ∈ keep
  | .without drop => labels.filter fun l => l.name ≠ "__name__" && l.name ∉ drop

def buildGroupMap (input : List (List Label)) (grouping : AggregateGrouping) :
    List Nat × List (List Label) :=
  internAll (input.map fun labels => sortByNameAndValue (groupKeyLabels labels grouping))

/-! ### Draining in one call -/

variable {V : Type}

/-- The state of `LabelManipOp` and of `CountValuesOp`. -/
structure DrainOp (V : Type) where
  child : Child String (ValueBatch V)
  done : Bool
  errored : Bool

def DrainOp.next {γ : Type} (finish : List (ValueBatch V) → Except String γ) (op : DrainOp V) :
    DrainOp V × Poll (Option (Except String γ)) :=
  if op.done || op.errored then (op, .ready none)
  else match op.child.drain (fun batches batch => batches ++ [batch]) [] with
    | (child, _, .pending) => ({ op with child }, .pending)
    | (child, _, .ready (.error e)) =>
      ({ op with child, errored := true }, .ready (some (.error e)))
    | (child, batches, .ready (.ok ())) =>
      match finish batches with
      | .ok out => ({ op with child, done := true }, .ready (some (.ok out)))
      | .error e => ({ op with child, errored := true }, .ready (some (.error e)))

structure OutputGrid where
  stepTimestamps : List Int64
  allocate : Nat → Except String Unit

def OutputGrid.stepCount (grid : OutputGrid) : Nat := grid.stepTimestamps.length

/-- One batch over the whole grid. -/
def OutputGrid.batch (grid : OutputGrid) (stepTimestamps : List Int64) (seriesCount : Nat)
    (cells : List (Option V)) : ValueBatch V :=
  ⟨stepTimestamps, ⟨0, grid.stepCount⟩, ⟨0, seriesCount⟩, cells⟩

/-! ### `label_replace` and `label_join` -/

def putCell (inputToOutput : List Nat) (outSeriesCount : Nat) (out : List (Option V))
    (entry : (Nat × Nat) × V) : Except String (List (Option V)) :=
  match inputToOutput[entry.1.2]? with
  | none => .error s!"label manipulation input series {entry.1.2} exceeds mapping len {
      inputToOutput.length}"
  | some outSeries =>
    let outCell := entry.1.1 * outSeriesCount + outSeries
    if (out[outCell]?).join.isSome then
      .error "vector cannot contain metrics with the same labelset"
    else .ok (out.set outCell (some entry.2))

def mergeBatches (grid : OutputGrid) (inputToOutput : List Nat) (outSeriesCount : Nat)
    (batches : List (ValueBatch V)) : Except String (ValueBatch V) := do
  grid.allocate (grid.stepCount * outSeriesCount)
  let cells ← batches.foldlM (fun out batch => batch.stepRange.toList.foldlM (fun out step =>
      if grid.stepCount ≤ step then
        .error s!"label manipulation step index {step} exceeds output step_count {grid.stepCount}"
      else (batch.row step).foldlM (putCell inputToOutput outSeriesCount) out) out)
    (List.replicate (grid.stepCount * outSeriesCount) none)
  .ok (grid.batch ((batches.head?.map ValueBatch.stepTimestamps).getD grid.stepTimestamps)
    outSeriesCount cells)

/-! ### `count_values` -/

def valueLabels (labelName : String) (groupLabels : List Label) (formatted : String) : List Label :=
  sortByNameAndValue (groupLabels.filter (fun l => l.name ≠ labelName) ++ [⟨labelName, formatted⟩])

/-- The counts are `u32` and saturate. -/
def saturatedCount (n : Nat) : Nat := min n (2 ^ 32 - 1)

/-- The result series are the pairs of a group and a value in the order in which they come first,
with the steps of their cells. -/
def countValues [DecidableEq V] (grid : OutputGrid) (ofNat : Nat → V) (format : V → String)
    (labelName : String) (inputToGroup : List Nat) (groupLabels : List (List Label))
    (batches : List (ValueBatch V)) : Except String (List (List Label) × ValueBatch V) := do
  let buckets := groupPairs ((batches.flatMap ValueBatch.entries).filterMap fun entry =>
    inputToGroup[entry.1.2]?.map fun group => ((group, entry.2), entry.1.1))
  grid.allocate (grid.stepCount * buckets.length)
  .ok (buckets.map fun bucket =>
      valueLabels labelName (groupLabels.getD bucket.1.1 []) (format bucket.1.2),
    grid.batch ((batches.head?.map ValueBatch.stepTimestamps).getD
        (List.replicate grid.stepCount 0)) buckets.length
      ((cellOrder grid.stepCount buckets.length).map fun c =>
        let n := ((buckets[c.2]?).map fun bucket => saturatedCount (bucket.2.count c.1)).getD 0
        if n = 0 then none else some (ofNat n)))

/-! ### Aggregations -/

inductive AggregateKind where
  | min
  | max
  | count
  | group

structure Accumulator (V : Type) where
  count : Nat
  range : Option (V × V)

section
variable [LinearOrder V]

def Accumulator.absorb (accum : Accumulator V) (v : V) : Accumulator V where
  count := accum.count + 1
  range := match accum.range with
    | none => some (v, v)
    | some (min, max) => some (if v < min then v else min, if max < v then v else max)

def Accumulator.value (ofNat : Nat → V) (kind : AggregateKind) (accum : Accumulator V) : Option V :=
  if accum.count = 0 then none
  else match kind with
    | .min => accum.range.map Prod.fst
    | .max => accum.range.map Prod.snd
    | .count => some (ofNat accum.count)
    | .group => some (ofNat 1)

/-- An index outside of the two lists panics in the source. Batches inside of the grid and of the
roster have none (`AggregateOp.absorbed_inside`). -/
def absorbEntry (inputToGroup : List Nat) (groupCount : Nat) (accums : List (Accumulator V))
    (entry : (Nat × Nat) × V) : List (Accumulator V) :=
  match inputToGroup[entry.1.2]? with
  | none => accums
  | some group => accums.modify (entry.1.1 * groupCount + group) (·.absorb entry.2)

def absorbBatchStreaming (inputToGroup : List Nat) (groupCount : Nat)
    (accums : List (Accumulator V)) (batch : ValueBatch V) : List (Accumulator V) :=
  batch.entries.foldl (absorbEntry inputToGroup groupCount) accums

def finaliseStreaming (grid : OutputGrid) (ofNat : Nat → V) (kind : AggregateKind)
    (groupCount : Nat) (accums : List (Accumulator V)) : Except String (ValueBatch V) := do
  grid.allocate (grid.stepCount * groupCount)
  .ok (grid.batch grid.stepTimestamps groupCount ((cellOrder grid.stepCount groupCount).map fun c =>
    (accums[c.1 * groupCount + c.2]?).bind (Accumulator.value ofNat kind)))

end

/-! ### `topk` and `bottomk` -/

inductive KOrder where
  | smallestFirst
  | largestFirst

/-- What is used of `f64`: `rank` orders the values that are not `NaN`, as `partial_cmp` does, and
`asI64` is the truncating cast. -/
structure KValues (V : Type) where
  isNan : V → Bool
  rank : V → Int
  asI64 : V → Int64

def kCmp (f : KValues V) (order : KOrder) (a b : V) : Ordering :=
  match f.isNan a, f.isNan b with
  | true, true => .eq
  | true, false => .gt
  | false, true => .lt
  | false, false =>
    match order with
    | .smallestFirst => compare (f.rank b) (f.rank a)
    | .largestFirst => compare (f.rank a) (f.rank b)

/-- `Ord for KHeapEntry`. An entry is a series with its value. -/
def entryCmp (f : KValues V) (order : KOrder) (a b : Nat × V) : Ordering :=
  (kCmp f order a.2 b.2).then (compare a.1 b.1)

/-- `BinaryHeap::push` on the list of the entries, the greatest first. -/
def pushEntry (f : KValues V) (order : KOrder) (heap : List (Nat × V)) (entry : Nat × V) :
    List (Nat × V) :=
  heap.orderedInsert (fun a b => ¬ entryCmp f order a b = .lt) entry

def offerEntry (f : KValues V) (order : KOrder) (k : Nat) (heap : List (Nat × V))
    (entry : Nat × V) : List (Nat × V) :=
  if heap.length < k then pushEntry f order heap entry
  else match heap with
    | [] => []
    | worst :: rest =>
      if entryCmp f order entry worst = .lt then pushEntry f order rest entry else worst :: rest

def coerceKSize (k : Int64) (inputLen : Nat) : Nat :=
  let coerced := min k.toInt inputLen
  if coerced < 1 then 0 else coerced.toNat

def kForStep (params : Option (List Int64)) (step inputLen : Nat) (staticK : Int64) : Nat :=
  coerceKSize ((params.map fun values => values.getD step 0).getD staticK) inputLen

def offerCell (f : KValues V) (order : KOrder) (k : Nat) (inputToGroup : List Nat)
    (heaps : List (List (Nat × V))) (entry : Nat × V) : List (List (Nat × V)) :=
  match inputToGroup[entry.1]? with
  | none => heaps
  | some group => heaps.modify group (offerEntry f order k · entry)

def selectHeaps (f : KValues V) (order : KOrder) (k : Nat) (inputToGroup : List Nat)
    (groupCount : Nat) (entries : List (Nat × V)) : List (List (Nat × V)) :=
  if k = 0 then [] else
    entries.foldl (offerCell f order k inputToGroup) (List.replicate groupCount [])

def stepEntries (inputLen : Nat) (cells : List (Option V)) (step : Nat) : List (Nat × V) :=
  (List.range inputLen).filterMap fun series =>
    ((cells[step * inputLen + series]?).join).map fun v => (series, v)

/-- A series outside of the roster is left out. A step outside of the grid panics in the source. -/
def absorbBatchBreaker (inputLen : Nat) (cells : List (Option V)) (batch : ValueBatch V) :
    List (Option V) :=
  setAll cells ((batch.entries.filter fun entry => entry.1.2 < inputLen).map fun entry =>
    (entry.1.1 * inputLen + entry.1.2, some entry.2))

def finaliseTopkOrBottomk (grid : OutputGrid) (f : KValues V) (k : Int64) (order : KOrder)
    (inputToGroup : List Nat) (groupCount : Nat) (params : Option (List Int64))
    (cells : List (Option V)) : Except String (ValueBatch V) := do
  let n := inputToGroup.length
  grid.allocate (grid.stepCount * n)
  .ok (grid.batch grid.stepTimestamps n ((cellOrder grid.stepCount n).map fun c =>
    ((setAll (List.replicate n none) ((selectHeaps f order (kForStep params c.1 n k) inputToGroup
      groupCount (stepEntries n cells c.1)).flatten.map fun entry =>
        (entry.1, some entry.2)))[c.2]?).join))

/-! ### The operator -/

/-- `σ` is what the batches go into: a grid of accumulators, or the buffer of all cells. -/
structure AggregateOp (V σ : Type) where
  child : Child String (ValueBatch V)
  paramChild : Option (Child String (ValueBatch V))
  paramValues : Option (List Int64)
  paramLoaded : Bool
  accums : σ
  sawAnyBatch : Bool
  emitted : Bool
  done : Bool
  errored : Bool

namespace AggregateOp

variable {σ : Type}

def new (child : Child String (ValueBatch V)) (paramChild : Option (Child String (ValueBatch V)))
    (grid : OutputGrid) (accums : σ) : AggregateOp V σ :=
  ⟨child, paramChild, paramChild.map fun _ => List.replicate grid.stepCount 0, false, accums, false,
    false, false, false⟩

/-- A cell without a value counts as zero. A step outside of the grid panics in the source. -/
def loadBatch (asI64 : V → Int64) (values : Option (List Int64)) (batch : ValueBatch V) :
    Option (List Int64) :=
  values.map fun values => setAll values (batch.stepRange.toList.map fun step =>
    (step, ((batch.cellOf (step - batch.stepRange.start) 0).map asI64).getD 0))

def loadParamValues (asI64 : V → Int64) (op : AggregateOp V σ) :
    AggregateOp V σ × Poll (Except String Unit) :=
  if op.paramLoaded then (op, .ready (.ok ()))
  else match op.paramChild with
    | none => ({ op with paramLoaded := true }, .ready (.ok ()))
    | some child =>
      match child.drain (loadBatch asI64) op.paramValues with
      | (child, paramValues, .pending) =>
        ({ op with paramChild := some child, paramValues }, .pending)
      | (child, paramValues, .ready (.error e)) =>
        ({ op with paramChild := some child, paramValues }, .ready (.error e))
      | (_, paramValues, .ready (.ok ())) =>
        ({ op with paramChild := none, paramValues, paramLoaded := true }, .ready (.ok ()))

def absorbAll (absorb : σ → ValueBatch V → σ)
    (finalise : Option (List Int64) → σ → Except String (ValueBatch V)) (op : AggregateOp V σ) :
    AggregateOp V σ × Poll (Option (Except String (ValueBatch V))) :=
  if op.emitted then ({ op with done := true }, .ready none)
  else match op.child.drain (fun state batch => (absorb state.1 batch, true))
      (op.accums, op.sawAnyBatch) with
    | (child, (accums, sawAnyBatch), .pending) => ({ op with child, accums, sawAnyBatch }, .pending)
    | (child, (accums, sawAnyBatch), .ready (.error e)) =>
      ({ op with child, accums, sawAnyBatch, errored := true }, .ready (some (.error e)))
    | (child, (accums, sawAnyBatch), .ready (.ok ())) =>
      let op := { op with child, accums, sawAnyBatch, emitted := true }
      if sawAnyBatch then match finalise op.paramValues accums with
        | .ok batch => (op, .ready (some (.ok batch)))
        | .error e => ({ op with errored := true }, .ready (some (.error e)))
      else ({ op with done := true }, .ready none)

def next (asI64 : V → Int64) (absorb : σ → ValueBatch V → σ)
    (finalise : Option (List Int64) → σ → Except String (ValueBatch V)) (op : AggregateOp V σ) :
    AggregateOp V σ × Poll (Option (Except String (ValueBatch V))) :=
  if op.done || op.errored then (op, .ready none)
  else match op.loadParamValues asI64 with
    | (op, .pending) => (op, .pending)
    | (op, .ready (.error e)) => ({ op with errored := true }, .ready (some (.error e)))
    | (op, .ready (.ok ())) => op.absorbAll absorb finalise

def newStreaming (child : Child String (ValueBatch V)) (table : List Nat × List (List Label))
    (grid : OutputGrid) : AggregateOp V (List (Accumulator V)) :=
  new child none grid (List.replicate (grid.stepCount * table.2.length) ⟨0, none⟩)

def nextStreaming [LinearOrder V] (ofNat : Nat → V) (kind : AggregateKind)
    (table : List Nat × List (List Label)) (grid : OutputGrid) :=
  next (fun _ : V => 0) (absorbBatchStreaming table.1 table.2.length)
    fun _ => finaliseStreaming grid ofNat kind table.2.length

def newBreaker (child : Child String (ValueBatch V))
    (paramChild : Option (Child String (ValueBatch V))) (table : List Nat × List (List Label))
    (grid : OutputGrid) : AggregateOp V (List (Option V)) :=
  new child paramChild grid (List.replicate (grid.stepCount * table.1.length) none)

def nextBreaker (f : KValues V) (k : Int64) (order : KOrder)
    (table : List Nat × List (List Label)) (grid : OutputGrid) :=
  next f.asI64 (absorbBatchBreaker table.1.length)
    (finaliseTopkOrBottomk grid f k order table.1 table.2.length)

end AggregateOp

end OpenData.Timeseries

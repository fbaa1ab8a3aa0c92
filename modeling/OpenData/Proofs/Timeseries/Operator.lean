import Mathlib.Data.List.GetD
import Mathlib.Data.List.ProdSigma
import OpenData.Lib.Threshold
import OpenData.Timeseries.Operator

/-!
# A tiled operator emits every tile once

`batches` is what an operator emits in total. `remaining` is what it has left in a state, and each
call takes the first batch away from it or leaves it as it is (`pollLoop_spec`). So the batches of
any sequence of calls are the first ones of `batches`, and all of them when the end was returned
without an error (`drive_spec`). Calls that find the load ready and the bytes available reach the
end (`drive_ends`).
-/

namespace OpenData.Timeseries

open Lib List Poll

namespace TiledOp

variable {S C B ε : Type} (op : TiledOp S C B)

def emit (chunk : Span) (samples : S) : C → List Span → List B
  | _, [] => []
  | cursors, steps :: rest =>
    (op.build chunk samples cursors steps).1 ::
      emit chunk samples (op.build chunk samples cursors steps).2 rest

def chunkBatches (chunk : Span) : List B :=
  op.emit chunk (op.load chunk) (op.newCursors chunk)
    (chunksFrom op.shape.stepChunk op.stepCount 0)

def batchesFrom (start : Nat) : List B :=
  (chunksFrom op.shape.seriesChunk op.totalSeries start).flatMap op.chunkBatches

def batches : List B := op.batchesFrom 0

def remaining : State S C → List B
  | .init => op.batches
  | .loadingChunk chunk => op.chunkBatches chunk ++ op.batchesFrom chunk.stop
  | .emitting chunk samples cursors next =>
    op.emit chunk samples cursors (chunksFrom op.shape.stepChunk op.stepCount next)
      ++ op.batchesFrom chunk.stop
  | .done => []
  | .errored => []

theorem chunkBatches_of_stepCount_eq_zero (h : op.stepCount = 0) (chunk : Span) :
    op.chunkBatches chunk = [] := by
  rw [chunkBatches, h, chunksFrom_of_le (Nat.le_refl _)]
  rfl

theorem batches_eq_nil (h : op.totalSeries = 0 ∨ op.stepCount = 0) : op.batches = [] := by
  rw [batches, batchesFrom]
  rcases h with h | h
  · rw [h, chunksFrom_of_le (Nat.le_refl _)]
    rfl
  · exact flatMap_eq_nil_iff.mpr fun chunk _ => op.chunkBatches_of_stepCount_eq_zero h chunk

theorem remaining_startChunkLoad {start} (h : start < op.totalSeries) :
    op.remaining (op.startChunkLoad start) = op.batchesFrom start := by
  rw [batchesFrom, chunksFrom_of_lt op.shape.seriesChunk_pos h, flatMap_cons]
  rfl

/-- What a call does: it fails, or it returns the next of the remaining items. -/
inductive Polled (s s' : State S C) (r : Poll (Option (Except ε B))) : Prop
  | failed (hitem : r.item = none) (hend : r.isEnd = false) (herror : r.isError = true)
      (hstate : s' = .errored)
  | returned (herror : r.isError = false)
      (hrest : r.item.toList ++ op.remaining s' = op.remaining s)
      (hend : r.isEnd = true → op.remaining s = [] ∧ s' = .done)

theorem pollLoop_spec (answers : Answers ε) (fuel : Nat) (s : State S C) :
    op.Polled s (op.pollLoop answers fuel s).1 (op.pollLoop answers fuel s).2 := by
  induction fuel generalizing s with
  | zero => exact .returned rfl rfl (fun h => by cases h)
  | succ fuel ih =>
    -- A state with the same batches left may take over.
    have hnext {s1 : State S C} (h : op.remaining s1 = op.remaining s) :
        op.Polled s (op.pollLoop answers fuel s1).1 (op.pollLoop answers fuel s1).2 := by
      cases ih s1 with
      | failed hitem hend herror hstate => exact .failed hitem hend herror hstate
      | returned herror hrest hend => exact .returned herror (h ▸ hrest) (h ▸ hend)
    cases s with
    | init =>
      rw [pollLoop]
      split
      next hempty =>
        refine .returned rfl ?_ fun _ => ⟨op.batches_eq_nil hempty, rfl⟩
        exact (op.batches_eq_nil hempty).symm
      next hsome =>
        obtain ⟨hseries, -⟩ := not_or.mp hsome
        exact hnext (op.remaining_startChunkLoad (Nat.pos_of_ne_zero hseries))
    | loadingChunk =>
      rw [pollLoop]
      split
      next => exact .returned rfl rfl (fun h => by cases h)
      next => exact hnext rfl
      next => exact .failed rfl rfl rfl rfl
    | emitting chunk samples cursors next =>
      rw [pollLoop]
      split
      next hsteps =>
        have hrest : op.remaining (.emitting chunk samples cursors next) =
            op.batchesFrom chunk.stop := by
          rw [remaining, chunksFrom_of_le hsteps]
          rfl
        split
        next hseries =>
          have hnone : op.batchesFrom chunk.stop = [] := by
            rw [batchesFrom, chunksFrom_of_le hseries]
            rfl
          rw [hnone] at hrest
          exact .returned rfl hrest.symm fun _ => ⟨hrest, rfl⟩
        next hseries =>
          refine hnext ?_
          rw [op.remaining_startChunkLoad (Nat.lt_of_not_le hseries), hrest]
      next hsteps =>
        split
        next => exact .failed rfl rfl rfl rfl
        next =>
          refine .returned rfl ?_ fun h => by cases h
          rw [remaining, remaining, chunksFrom_of_lt op.shape.stepChunk_pos
            (Nat.lt_of_not_le hsteps)]
          rfl
    | done | errored => exact .returned rfl rfl fun _ => ⟨rfl, rfl⟩

/-- What the calls return: the remaining items in order, and all of them at the end. -/
@[mk_iff driven_iff]
structure Driven (s s' : State S C) (results : List (Poll (Option (Except ε B)))) : Prop where
  first : results.filterMap item <+: op.remaining s
  rest : results.any isError = false →
    results.filterMap item ++ op.remaining s' = op.remaining s
  all : results.any isError = false → results.any isEnd = true →
    results.filterMap item = op.remaining s

theorem Driven.cons {s s1 s' r}
    {results : List (Poll (Option (Except ε B)))} (hpolled : op.Polled s s1 r)
    (hdriven : op.Driven s1 s' results) : op.Driven s s' (r :: results) := by
  obtain ⟨hfirst, hrest, hall⟩ := hdriven
  cases hpolled with
  | failed hitem hend herror hstate =>
    subst hstate
    have hitems : (r :: results).filterMap item = [] := by
      rw [filterMap_cons_none hitem]
      exact prefix_nil.mp hfirst
    have hany : (r :: results).any isError = true := by rw [any_cons, herror]; rfl
    rw [driven_iff, hany, hitems]
    exact ⟨ nil_prefix, fun h => absurd h (by decide), fun h => absurd h (by decide)⟩
  | returned herror hone hend =>
    have hitems : (r :: results).filterMap item = r.item.toList ++ results.filterMap item := by
      cases hitem : r.item with
      | none => exact filterMap_cons_none hitem
      | some => exact filterMap_cons_some hitem
    have hany : (r :: results).any isError = results.any isError := by
      rw [any_cons, herror, Bool.false_or]
    rw [driven_iff, hany, hitems]
    refine ⟨?_, fun h => ?_, fun h hlast => ?_⟩
    · rw [← hone]
      exact (prefix_append_right_inj _).mpr hfirst
    · rw [append_assoc, hrest h, hone]
    · rw [any_cons, Bool.or_eq_true] at hlast
      rcases hlast with hnow | hlater
      · -- Behind the end nothing comes.
        obtain ⟨hnil, rfl⟩ := hend hnow
        rw [hnil, append_eq_nil_iff] at hone
        rw [hone.1, prefix_nil.mp hfirst, hnil]
        rfl
      · rw [hall h hlater, hone]

theorem drive_spec (s : State S C) (calls : List (Answers ε)) :
    op.Driven s (op.drive s calls).1 (op.drive s calls).2 := by
  induction calls generalizing s with
  | nil => exact ⟨ nil_prefix, fun _ => rfl, fun _ h => by cases h⟩
  | cons answers calls ih =>
    exact Driven.cons op (op.pollLoop_spec answers 3 s) (ih (op.poll answers s).1)

def Served (answers : Answers ε) : Prop := answers.load = .ready (.ok ()) ∧ answers.grow = .ok ()

variable {answers : Answers ε}

theorem poll_served (hsteps : 0 < op.stepCount) (h : Served answers) (s : State S C) :
    (op.poll answers s).2.isEnd = true ∨ (op.poll answers s).2.item.isSome = true := by
  obtain ⟨hload, hgrow⟩ := h
  have hnot : ¬ op.stepCount ≤ 0 := Nat.not_le.mpr hsteps
  -- A chunk that is loaded has a step to emit.
  have hloading (chunk : Span) : (op.pollLoop answers 2 (.loadingChunk chunk)).2.item.isSome := by
    simp [pollLoop, hload, hgrow, hnot, item]
  cases s with
  | init =>
    by_cases hempty : op.totalSeries = 0 ∨ op.stepCount = 0
    · exact .inl (by simp [poll, pollLoop, hempty, isEnd])
    · refine .inr ?_
      rw [poll, pollLoop, if_neg hempty]
      exact hloading _
  | loadingChunk =>
    exact .inr (by simp [poll, pollLoop, hload, hgrow, hnot, item])
  | emitting chunk samples cursors next =>
    by_cases hlast : op.stepCount ≤ next
    · by_cases hseries : op.totalSeries ≤ chunk.stop
      · exact .inl (by simp [poll, pollLoop, hlast, hseries, isEnd])
      · refine .inr ?_
        rw [poll, pollLoop, if_pos hlast, if_neg hseries]
        exact hloading _
    · exact .inr (by simp [poll, pollLoop, hlast, hgrow, item])
  | done | errored => exact .inl rfl

theorem not_isError_of_not_fail (hgrow : answers.grow = .ok ())
    (hload : answers.load = .pending ∨ answers.load = .ready (.ok ())) (fuel : Nat)
    (s : State S C) : (op.pollLoop answers fuel s).2.isError = false := by
  induction fuel generalizing s with
  | zero => rfl
  | succ fuel ih =>
    cases s with
    | init =>
      rw [pollLoop]
      split
      next => rfl
      next => exact ih _
    | loadingChunk =>
      rw [pollLoop]
      rcases hload with hload | hload
      · rw [hload]
        rfl
      · rw [hload]
        exact ih _
    | emitting chunk samples cursors next =>
      rw [pollLoop, hgrow]
      split
      next =>
        split
        next => rfl
        next => exact ih _
      next => rfl
    | done | errored => rfl

variable {calls : List (Answers ε)}

theorem drive_not_isError (hgrow : ∀ a ∈ calls, a.grow = .ok ())
    (hload : ∀ a ∈ calls, a.load = .pending ∨ a.load = .ready (.ok ())) (s : State S C) :
    (op.drive s calls).2.any isError = false := by
  induction calls generalizing s with
  | nil => rfl
  | cons a calls ih =>
    obtain ⟨hgrow, hgrows⟩ := forall_mem_cons.mp hgrow
    obtain ⟨hload, hloads⟩ := forall_mem_cons.mp hload
    show ((op.poll a s).2 :: (op.drive (op.poll a s).1 calls).2).any isError = false
    rw [any_cons, poll, op.not_isError_of_not_fail hgrow hload, ih hgrows hloads]
    rfl

theorem drive_ends (hsteps : 0 < op.stepCount) (s : State S C)
    (hgrow : ∀ a ∈ calls, a.grow = .ok ())
    (hload : ∀ a ∈ calls, a.load = .pending ∨ a.load = .ready (.ok ()))
    (henough : (op.remaining s).length < calls.countP fun a => a.load.isReady) :
    (op.drive s calls).2.any isEnd = true := by
  induction calls generalizing s with
  | nil => exact absurd henough (Nat.not_lt_zero _)
  | cons a calls ih =>
    obtain ⟨hgrow, hgrows⟩ := forall_mem_cons.mp hgrow
    obtain ⟨hload, hloads⟩ := forall_mem_cons.mp hload
    show ((op.poll a s).2 :: (op.drive (op.poll a s).1 calls).2).any isEnd = true
    rw [any_cons, Bool.or_eq_true]
    have hpolled : op.Polled s (op.poll a s).1 (op.poll a s).2 := op.pollLoop_spec a 3 s
    rw [countP_cons] at henough
    cases hpolled with
    | failed _ _ herror =>
      rw [poll, op.not_isError_of_not_fail hgrow hload] at herror
      cases herror
    | returned _ hrest =>
      have hlen := congrArg List.length hrest
      rw [length_append, Option.length_toList] at hlen
      rcases hload with hpending | hready
      · refine .inr (ih _ hgrows hloads ?_)
        rw [hpending, if_neg (fun h => nomatch h)] at henough
        omega
      · rcases op.poll_served hsteps ⟨hready, hgrow⟩ s with hend | hitem
        · exact .inl hend
        · refine .inr (ih _ hgrows hloads ?_)
          have hone : (a.load.isReady) = true := by rw [hready]; rfl
          rw [if_pos hone] at henough
          rw [if_pos hitem] at hlen
          omega

/-! ### Tiles -/

theorem map_emit {α : Type} {tile : B → α} {f : Span → α} {chunk samples}
    (htile : ∀ cursors steps, tile (op.build chunk samples cursors steps).1 = f steps)
    (cursors : C) (spans : List Span) :
    (op.emit chunk samples cursors spans).map tile = spans.map f := by
  induction spans generalizing cursors with
  | nil => rfl
  | cons steps spans ih =>
    show tile _ :: _ = f steps :: _
    rw [htile, ih]

theorem countP_batches {tile : B → Span × Span} (htile : ∀ chunk samples cursors steps,
      tile (op.build chunk samples cursors steps).1 = (chunk, steps))
    {i k} (hi : i < op.totalSeries) (hk : k < op.stepCount) :
    op.batches.countP (fun b => (tile b).1.contains i && (tile b).2.contains k) = 1 := by
  have hmap : op.batches.map tile =
      (chunksFrom op.shape.seriesChunk op.totalSeries 0).flatMap fun chunk =>
        (chunksFrom op.shape.stepChunk op.stepCount 0).map fun steps => (chunk, steps) := by
    rw [batches, batchesFrom, map_flatMap]
    congr 1
    funext chunk
    exact op.map_emit (htile chunk _) _ _
  have hseries := (spans_chunksFrom op.shape.seriesChunk_pos (Nat.zero_le op.totalSeries))
  have hsteps := (spans_chunksFrom op.shape.stepChunk_pos (Nat.zero_le op.stepCount))
  have hcount := countP_product (chunksFrom op.shape.seriesChunk op.totalSeries 0)
    (chunksFrom op.shape.stepChunk op.stepCount 0) i k
  rw [hseries.countP_contains, hsteps.countP_contains, if_pos ⟨Nat.zero_le _, hi⟩,
    if_pos ⟨Nat.zero_le _, hk⟩, ← hmap, countP_map] at hcount
  exact hcount

theorem forall_batches {I : Span → C → Prop} {P : Span → Span → B → Prop}
    (hinit : ∀ chunk, I chunk (op.newCursors chunk))
    (hbuild : ∀ chunk cursors steps, chunk.start < chunk.stop → chunk.stop ≤ op.totalSeries →
      steps.stop ≤ op.stepCount → I chunk cursors →
        P chunk steps (op.build chunk (op.load chunk) cursors steps).1 ∧
          I chunk (op.build chunk (op.load chunk) cursors steps).2) :
    ∀ b ∈ op.batches, ∃ chunk steps, P chunk steps b := by
  intro b hb
  obtain ⟨chunk, hchunk, hb⟩ := mem_flatMap.mp hb
  have hseries := (spans_chunksFrom op.shape.seriesChunk_pos (Nat.zero_le op.totalSeries)).bounds
    hchunk
  have hsteps : ∀ steps ∈ chunksFrom op.shape.stepChunk op.stepCount 0,
      steps.stop ≤ op.stepCount := fun steps hmem =>
    ((spans_chunksFrom op.shape.stepChunk_pos (Nat.zero_le op.stepCount)).bounds hmem).2.2
  have hemit : ∀ (spans : List Span) (cursors : C), I chunk cursors →
      (∀ steps ∈ spans, steps.stop ≤ op.stepCount) →
      ∀ b ∈ op.emit chunk (op.load chunk) cursors spans, ∃ steps, P chunk steps b := by
    intro spans
    induction spans with
    | nil => exact fun _ _ _ b hb => by cases hb
    | cons steps spans ih =>
      intro cursors hI hspans b hb
      obtain ⟨hstop, hspans⟩ := forall_mem_cons.mp hspans
      obtain ⟨hP, hI'⟩ := hbuild chunk cursors steps hseries.2.1 hseries.2.2 hstop hI
      rcases mem_cons.mp hb with rfl | hb
      · exact ⟨steps, hP⟩
      · exact ih _ hI' hspans b hb
  exact ⟨chunk, hemit _ _ (hinit chunk) hsteps b hb⟩

end TiledOp

/-! ### Loops of the operators -/

theorem toInt_saturatingSub (a b : Int64) :
    (saturatingSub a b).toInt = max (-2 ^ 63) (min (2 ^ 63 - 1) (a.toInt - b.toInt)) :=
  Int64.toInt_ofInt_of_le (by omega) (by omega)

theorem mem_cellOrder {m n c} : c ∈ cellOrder m n ↔ c.1 < m ∧ c.2 < n := by
  show c ∈ range m ×ˢ range n ↔ _
  rw [mem_product, mem_range, mem_range]

theorem nodup_cellOrder (m n : Nat) : (cellOrder m n).Nodup := nodup_range.product nodup_range

theorem cell_lt {m n} {c : Nat × Nat} (hc1 : c.1 < m) (hc2 : c.2 < n) : c.1 * n + c.2 < m * n :=
  calc c.1 * n + c.2 < c.1 * n + n := Nat.add_lt_add_left hc2 _
    _ = (c.1 + 1) * n := (Nat.succ_mul _ _).symm
    _ ≤ m * n := Nat.mul_le_mul_right _ hc1

theorem cell_inj {n} {c c' : Nat × Nat} (hc : c.2 < n) (hc' : c'.2 < n)
    (h : c.1 * n + c.2 = c'.1 * n + c'.2) : c = c' := by
  have hmod := congrArg (· % n) h
  simp only [Nat.mul_add_mod_of_lt hc, Nat.mul_add_mod_of_lt hc'] at hmod
  refine Prod.ext ?_ hmod
  have hmul : c.1 * n = c'.1 * n := by omega
  exact Nat.eq_of_mul_eq_mul_right (Nat.zero_lt_of_lt hc) hmul

theorem getD_set {α : Type} {l : List α} {i} (h : i < l.length) (a d : α) (j : Nat) :
    (l.set i a).getD j d = if j = i then a else l.getD j d := by
  rw [getD_eq_getElem?_getD, getD_eq_getElem?_getD]
  split
  next heq =>
    rw [heq, getElem?_set_self h]
    rfl
  next hne => rw [getElem?_set_ne (Ne.symm hne)]

def atMost (bound : Int64) (s : Sample) : Bool := s.timestampMs ≤ bound

variable {column : List Sample}

theorem advancePast_eq {bound i} (h : i ≤ reach (atMost bound) column) :
    advancePast column bound i = reach (atMost bound) column := add_length_takeWhile_drop h

theorem reach_mono {a b} (h : a ≤ b) (column : List Sample) :
    reach (atMost a) column ≤ reach (atMost b) column :=
  reach_le (fun _ hs => decide_eq_true (Int64.le_trans (of_decide_eq_true hs) h)) column

/-- The timestamps do not decrease. -/
def Ordered (column : List Sample) : Prop :=
  column.Pairwise fun s s' => s.timestampMs ≤ s'.timestampMs

theorem Ordered.cut (h : Ordered column) (bound : Int64) : Cut (atMost bound) column :=
  Cut.of_pairwise h fun _ _ hle hs => decide_eq_true (Int64.le_trans hle (of_decide_eq_true hs))

end OpenData.Timeseries

import Mathlib.Algebra.BigOperators.Group.List.Basic
import OpenData.Timeseries.Aggregate
import OpenData.Proofs.Timeseries.Stream

/-!
# What the draining operators emit

An operator that collects its batches in one call emits what it makes of those behind the last
pending result of its child (`DrainOp.emits`).

* `label_manip_emits`, `count_values_emits`: exactly when that is the result for all batches. It is
  not in `label_manip_pending_between` and `count_values_lost_and_twice`.
* `aggregate_emits`: an aggregation keeps its accumulators, and so the pending results do not
  matter: each accumulator has seen the values of its group and step (`Accumulator.Saw`).
-/

namespace OpenData.Timeseries

open Lib List DrainOp

variable {V γ : Type} {batches : List (ValueBatch V)}

/-- The valid cells of a stream. -/
def cellsOf (batches : List (ValueBatch V)) : List ((Nat × Nat) × V) :=
  batches.flatMap ValueBatch.entries

variable {e : (Nat × Nat) × V}

theorem contains_of_mem_entries {batch : ValueBatch V}
    (h : e ∈ batch.entries) : batch.stepRange.contains e.1.1 := by
  obtain ⟨step, hstep, h⟩ := mem_flatMap.mp h
  obtain ⟨series, -, h⟩ := mem_filterMap.mp h
  obtain ⟨v, -, rfl⟩ := Option.map_eq_some_iff.mp h
  exact Span.mem_toList.mp hstep

/-- Every batch lies in the steps of the grid. -/
def WithinSteps (batches : List (ValueBatch V)) (stepCount : Nat) : Prop :=
  ∀ batch ∈ batches, batch.stepRange.stop ≤ stepCount

theorem WithinSteps.lt {stepCount : Nat} (h : WithinSteps batches stepCount)
    (he : e ∈ cellsOf batches) : e.1.1 < stepCount := by
  obtain ⟨batch, hbatch, he⟩ := mem_flatMap.mp he
  exact Nat.lt_of_lt_of_le (Span.contains_iff.mp (contains_of_mem_entries he)).2 (h batch hbatch)

theorem OutputGrid.cell_batch {grid : OutputGrid} {times n t k}
    {f : Nat × Nat → Option V} (ht : t < grid.stepCount) (hk : k < n) :
    (grid.batch times n ((cellOrder grid.stepCount n).map f)).cell t k = f (t, k) :=
  @ValueBatch.cell_eq _ (grid.batch times n ((cellOrder grid.stepCount n).map f)) f rfl t k
    (Span.contains_iff.mpr ⟨Nat.zero_le t, ht⟩) (Span.contains_iff.mpr ⟨Nat.zero_le k, hk⟩)

/-! ### Draining in one call -/

/-- The operator before its first call. -/
def DrainOp.fresh (child : Child String (ValueBatch V)) : DrainOp V := ⟨child, false, false⟩

theorem foldl_collect (batches done : List (ValueBatch V)) :
    batches.foldl (fun batches batch => batches ++ [batch]) done = done ++ batches := by
  induction batches generalizing done with
  | nil => simp
  | cons batch batches ih => simp [ih]

/-- The calls are pending as often as the child is. The one that finds the end of the child has only
the batches that came in that call. -/
theorem DrainOp.emits (finish : List (ValueBatch V) → Except String γ)
    {child : Child String (ValueBatch V)} (h : child.Sound) :
    Emits (next finish) child.pendings (fresh child) (finish child.kept) := by
  have hsilent : ∀ op : DrainOp V, (op.done || op.errored) = true → Silent (next finish) op :=
    fun op => Silent.of_invariant (I := fun op : DrainOp V => (op.done || op.errored) = true)
      fun op h => by
        rw [next, if_pos h]
        exact ⟨h, rfl⟩
  -- Induction on the number of pending results: each call takes one of them.
  generalize hp : child.pendings = p
  induction p generalizing child with
  | zero =>
    rcases @Child.drain_of_sound _ _ _ _ (fun batches batch => batches ++ [batch]) h [] with
      ⟨-, hdrain⟩ | ⟨_, _, -, -, hcount, -⟩
    · rw [foldl_collect, nil_append] at hdrain
      rw [Child.kept_of_pendings_eq_zero hp]
      cases hfinish : finish child.batches with
      | ok =>
        refine .now (t := ⟨[], true, false⟩) ?_ (hsilent _ rfl)
        simp [next, fresh, hdrain, hfinish]
      | error =>
        refine .now (t := ⟨[], false, true⟩) ?_ (hsilent _ rfl)
        simp [next, fresh, hdrain, hfinish]
    · omega
  | succ p ih =>
    rcases @Child.drain_of_sound _ _ _ _ (fun batches batch => batches ++ [batch]) h [] with
      ⟨hzero, -⟩ | ⟨rest, taken, hdrain, hrest, hcount, -, hkept⟩
    · omega
    · rw [hkept]
      refine .later (t := fresh rest) ?_ (ih hrest (by omega))
      simp [next, fresh, hdrain]

theorem cellsOf_lost_append_kept (child : Child String (ValueBatch V)) :
    cellsOf child.lost ++ cellsOf child.kept = cellsOf child.batches := by
  rw [cellsOf, cellsOf, cellsOf, ← flatMap_append, child.lost_append_kept]

/-! ### Cells that are written once -/

def writeOnce (msg : String) (out : List (Option V)) (w : Nat × V) :
    Except String (List (Option V)) :=
  if (out[w.1]?).join.isSome then .error msg else .ok (out.set w.1 (some w.2))

def Free (out : List (Option V)) (writes : List (Nat × V)) : Prop :=
  (writes.map Prod.fst).Nodup ∧ ∀ w ∈ writes, out[w.1]? = some none

variable {writes : List (Nat × V)}

theorem free_cons {out w}
    (hw : out[w.1]? = some none) :
    Free out (w :: writes) ↔ Free (out.set w.1 (some w.2)) writes := by
  have hset : ∀ i, (out.set w.1 (some w.2))[i]? = some none ↔ i ≠ w.1 ∧ out[i]? = some none := by
    intro i
    by_cases hi : w.1 = i
    · subst hi
      simp [(List.getElem?_eq_some_iff.mp hw).1]
    · simp [List.getElem?_set_ne hi, Ne.symm hi]
  simp only [Free, map_cons, nodup_cons, mem_map, forall_mem_cons, hw, hset,
    not_exists, not_and, true_and]
  exact ⟨fun ⟨⟨hnot, hnodup⟩, hfree⟩ => ⟨hnodup, fun w' hw' => ⟨hnot w' hw', hfree w' hw'⟩⟩,
    fun ⟨hnodup, h⟩ => ⟨⟨fun w' hw' => (h w' hw').1, hnodup⟩, fun w' hw' => (h w' hw').2⟩⟩

theorem foldlM_writeOnce {msg} (writes : List (Nat × V)) (out : List (Option V))
    (hin : ∀ w ∈ writes, w.1 < out.length) :
    (Free out writes → writes.foldlM (writeOnce msg) out =
      .ok (setAll out (writes.map fun w => (w.1, some w.2)))) ∧
    (¬ Free out writes → writes.foldlM (writeOnce msg) out = .error msg) := by
  induction writes generalizing out with
  | nil => exact ⟨fun _ => rfl, fun h => absurd ⟨nodup_nil, by simp⟩ h⟩
  | cons w writes ih =>
    obtain ⟨hlt, hin⟩ := forall_mem_cons.mp hin
    rw [foldlM_cons]
    cases hcell : out[w.1]? with
    | none => exact absurd hcell (by simp [hlt])
    | some cell =>
      cases cell with
      | some =>
        have hstep : writeOnce msg out w = .error msg := by simp [writeOnce, hcell]
        refine ⟨fun h => absurd (h.2 w mem_cons_self) (by simp [hcell]), fun _ => ?_⟩
        rw [hstep]
        rfl
      | none =>
        have hstep : writeOnce msg out w = .ok (out.set w.1 (some w.2)) := by
          simp [writeOnce, hcell]
        rw [hstep, free_cons hcell]
        exact ih (out.set w.1 (some w.2)) (by simpa using hin)

theorem join_setAll {n i} (hi : i < n)
    (hone : ∀ v v', (i, v) ∈ writes → (i, v') ∈ writes → v = v') (v : V) :
    ((setAll (replicate n none) (writes.map fun w => (w.1, some w.2)))[i]?).join = some v ↔
      (i, v) ∈ writes := by
  have hmem : ∀ c, (i, c) ∈ writes.map (fun w => (w.1, some w.2)) ↔
      ∃ v, c = some v ∧ (i, v) ∈ writes := by
    intro c
    simp only [mem_map, Prod.mk.injEq, Prod.exists]
    constructor
    · rintro ⟨_, v, h, rfl, rfl⟩
      exact ⟨v, rfl, h⟩
    · rintro ⟨v, rfl, h⟩
      exact ⟨i, v, h, rfl, rfl⟩
  rw [Option.join_eq_some_iff, getElem?_setAll (by simpa using hi), hmem]
  · simp [hi]
  · intro c c' h h'
    obtain ⟨v, rfl, hv⟩ := (hmem c).mp h
    obtain ⟨v', rfl, hv'⟩ := (hmem c').mp h'
    rw [hone v v' hv hv']

/-- Writing the cells of a grid, row by row. -/
theorem join_setCells {cells : List ((Nat × Nat) × V)} {steps n t i : Nat}
    (hcells : ∀ e ∈ cells, e.1.2 < n) (ht : t < steps) (hi : i < n)
    (hone : ∀ v v', ((t, i), v) ∈ cells → ((t, i), v') ∈ cells → v = v') (v : V) :
    ((setAll (replicate (steps * n) none)
      (cells.map fun e => (e.1.1 * n + e.1.2, some e.2)))[t * n + i]?).join = some v ↔
        ((t, i), v) ∈ cells := by
  have hmem : ∀ w, (t * n + i, w) ∈ cells.map (fun e => (e.1.1 * n + e.1.2, e.2)) ↔
      ((t, i), w) ∈ cells := by
    intro w
    simp only [mem_map, Prod.mk.injEq]
    constructor
    · rintro ⟨e, he, hindex, rfl⟩
      exact @cell_inj _ e.1 (t, i) (hcells e he) hi hindex ▸ he
    · intro h
      exact ⟨_, h, rfl, rfl⟩
  have hwrites : cells.map (fun e => (e.1.1 * n + e.1.2, some e.2)) =
      (cells.map fun e => (e.1.1 * n + e.1.2, e.2)).map fun w => (w.1, some w.2) := by
    rw [map_map]
    rfl
  rw [hwrites, join_setAll (@cell_lt _ _ (t, i) ht hi), hmem]
  intro w w' hw hw'
  exact hone w w' ((hmem w).mp hw) ((hmem w').mp hw')

/-! ### `label_replace` and `label_join` -/

variable {map : List Nat} {n : Nat}

section

variable {grid : OutputGrid} {rewritten : List (List Label)}

def Collides (rewritten : List (List Label)) (batches : List (ValueBatch V)) : Prop :=
  ∃ e ∈ cellsOf batches, ∃ e' ∈ cellsOf batches, e.1.1 = e'.1.1 ∧ e.1.2 ≠ e'.1.2 ∧
    rewritten[e.1.2]? = rewritten[e'.1.2]?

theorem mergeBatches_eq (hroom : ∀ cells, grid.allocate cells = .ok ())
    (hsteps : WithinSteps batches grid.stepCount) (map : List Nat) (n : Nat) :
    mergeBatches grid map n batches =
      ((cellsOf batches).foldlM (putCell map n) (replicate (grid.stepCount * n) none)) >>=
        fun cells => .ok (grid.batch ((batches.head?.map ValueBatch.stepTimestamps).getD
          grid.stepTimestamps) n cells) := by
  rw [mergeBatches, hroom, cellsOf, ← foldlM_flatMap (m := Except String)]
  · rfl
  · intro batch hbatch out
    refine foldlM_flatMap (fun step hstep out => if_neg ?_) out
    exact Nat.not_le.mpr (Nat.lt_of_lt_of_le (Span.contains_iff.mp (Span.mem_toList.mp hstep)).2
      (hsteps batch hbatch))

def writeOf (map : List Nat) (n : Nat) (e : (Nat × Nat) × V) : Nat × V :=
  (e.1.1 * n + map.getD e.1.2 0, e.2)

theorem foldlM_putCell {entries : List ((Nat × Nat) × V)}
    (hmap : ∀ e ∈ entries, map[e.1.2]? = some (map.getD e.1.2 0)) (out : List (Option V)) :
    entries.foldlM (putCell map n) out = (entries.map (writeOf map n)).foldlM
      (writeOnce "vector cannot contain metrics with the same labelset") out := by
  rw [map_eq_flatMap]
  refine foldlM_flatMap (fun e he out => ?_) out
  rw [foldlM_cons, putCell, hmap e he]
  exact (bind_pure _).symm

variable {map : List Nat} {outputs : List (List Label)}

section

variable (h : Interned rewritten (map, outputs))
include h

theorem output_spec {i} (hi : i < rewritten.length) :
    map[i]? = some (map.getD i 0) ∧ outputs[map.getD i 0]? = rewritten[i]? ∧
      map.getD i 0 < outputs.length := by
  obtain ⟨g, hg, hlabels⟩ := h.number _ _ (List.getElem?_eq_getElem hi)
  rw [getD_eq_getElem?_getD, hg, List.getElem?_eq_getElem hi]
  exact ⟨rfl, hlabels, (List.getElem?_eq_some_iff.mp hlabels).1⟩

theorem writeOf_inj {e e' : (Nat × Nat) × V}
    (he : e.1.2 < rewritten.length) (he' : e'.1.2 < rewritten.length) :
    (writeOf map outputs.length e).1 = (writeOf map outputs.length e').1 ↔
      e.1.1 = e'.1.1 ∧ rewritten[e.1.2]? = rewritten[e'.1.2]? := by
  obtain ⟨-, hlabels, hlt⟩ := output_spec h he
  obtain ⟨-, hlabels', hlt'⟩ := output_spec h he'
  rw [← hlabels, ← hlabels', List.getElem?_inj hlt h.nodup]
  refine ⟨fun heq => ?_, fun heq => by rw [writeOf, writeOf, heq.1, heq.2]⟩
  exact Prod.ext_iff.mp (@cell_inj _ (_, _) (_, _) hlt hlt' heq)

theorem free_iff_not_collides (hseries : ∀ e ∈ cellsOf batches, e.1.2 < rewritten.length)
    (hlt : ∀ e ∈ cellsOf batches, (writeOf map outputs.length e).1 < n)
    (hnodup : ((cellsOf batches).map Prod.fst).Nodup) :
    Free (replicate n none) ((cellsOf batches).map (writeOf map outputs.length)) ↔
      ¬ Collides rewritten batches := by
  rw [Free, map_map, nodup_map_iff_inj_on (Nodup.of_map _ hnodup)]
  refine ⟨?_, fun hno => ⟨fun e he e' he' heq => ?_, fun w hw => ?_⟩⟩
  · rintro ⟨hinj, -⟩ ⟨e, he, e', he', hstep, hne, hlabels⟩
    have heq := (writeOf_inj h (hseries e he) (hseries e' he')).mpr ⟨hstep, hlabels⟩
    exact hne (congrArg (·.1.2) (hinj e he e' he' heq))
  · obtain ⟨hstep, hlabels⟩ := (writeOf_inj h (hseries e he) (hseries e' he')).mp heq
    refine inj_on_of_nodup_map hnodup he he' (Prod.ext hstep ?_)
    by_contra hne
    exact hno ⟨e, he, e', he', hstep, hne, hlabels⟩
  · obtain ⟨e, he, rfl⟩ := mem_map.mp hw
    rw [List.getElem?_replicate, if_pos (hlt e he)]

end

variable {apply : List Label → Except String (List Label)} {input : List (List Label)}
  {table : List Nat × List (List Label)}

/-- What `label_replace` and `label_join` should make of the batches: an error if two series
collide, and else one batch with the values of the only series of each new label set. -/
structure Relabelled (rewritten outputs : List (List Label)) (grid : OutputGrid)
    (batches : List (ValueBatch V)) (result : Except String (ValueBatch V)) : Prop where
  fails : Collides rewritten batches →
    result = .error "vector cannot contain metrics with the same labelset"
  emits : ¬ Collides rewritten batches → ∃ out, result = .ok out ∧
    out.stepRange = ⟨0, grid.stepCount⟩ ∧ out.seriesRange = ⟨0, outputs.length⟩ ∧
    ∀ t g labels, t < grid.stepCount → outputs[g]? = some labels → ∀ v,
      out.cell t g = some v ↔ ∃ i, ((t, i), v) ∈ cellsOf batches ∧ rewritten[i]? = some labels

theorem relabelled_mergeBatches (htable : Interned rewritten (map, outputs))
    (hroom : ∀ cells, grid.allocate cells = .ok ()) (hsteps : WithinSteps batches grid.stepCount)
    (hseries : ∀ e ∈ cellsOf batches, e.1.2 < rewritten.length)
    (hnodup : ((cellsOf batches).map Prod.fst).Nodup) :
    Relabelled rewritten outputs grid batches (mergeBatches grid map outputs.length batches) := by
  have houtput : ∀ e ∈ cellsOf batches, _ := fun e he => output_spec htable (hseries e he)
  have hlt : ∀ e ∈ cellsOf batches,
      (writeOf map outputs.length e).1 < grid.stepCount * outputs.length := fun e he =>
    @cell_lt _ _ (e.1.1, map.getD e.1.2 0) (hsteps.lt he) (houtput e he).2.2
  have hfree := free_iff_not_collides htable hseries hlt hnodup
  obtain ⟨hok, herr⟩ := @foldlM_writeOnce _ "vector cannot contain metrics with the same labelset"
    ((cellsOf batches).map (writeOf map outputs.length))
    (replicate (grid.stepCount * outputs.length) none) (by
      intro w hw
      obtain ⟨e, he, rfl⟩ := mem_map.mp hw
      rw [length_replicate]
      exact hlt e he)
  rw [mergeBatches_eq hroom hsteps map outputs.length, foldlM_putCell fun e he => (houtput e he).1]
  refine ⟨fun hcollides => ?_, fun hno => ?_⟩
  · rw [herr (fun h => hfree.mp h hcollides)]
    rfl
  · rw [hok (hfree.mpr hno)]
    refine ⟨_, rfl, rfl, rfl, ?_⟩
    intro t g labels ht hg v
    have hg' := (List.getElem?_eq_some_iff.mp hg).1
    refine (join_setAll (@cell_lt _ _ (t, g) ht hg') (fun v v' h h' => ?_) v).trans ?_
    · exact congrArg Prod.snd (inj_on_of_nodup_map (hfree.mpr hno).1 h h' rfl)
    simp only [mem_map, writeOf, Prod.mk.injEq]
    refine ⟨?_, ?_⟩
    · rintro ⟨e, he, hindex, rfl⟩
      obtain ⟨rfl, hgroup⟩ := Prod.mk.inj
        (@cell_inj _ (e.1.1, map.getD e.1.2 0) (t, g) (houtput e he).2.2 hg' hindex)
      exact ⟨e.1.2, he, by rw [← (houtput e he).2.1, hgroup, hg]⟩
    · rintro ⟨i, he, hlabels⟩
      have hgroup : map.getD i 0 = g := by
        refine (List.getElem?_inj (houtput _ he).2.2 htable.nodup).mp ?_
        rw [(houtput _ he).2.1, hg, hlabels]
      exact ⟨_, he, by rw [hgroup], rfl⟩

variable {child : Child String (ValueBatch V)}

/-- `LabelManipOp` gives the right result exactly if no valid cell comes before the last pending
result, or if two series collide behind it. -/
theorem label_manip_emits (hbuild : buildLabelManip apply input = .ok table)
    (hrewritten : input.mapM apply = .ok rewritten) (hroom : ∀ cells, grid.allocate cells = .ok ())
    (hsound : child.Sound) (hsteps : WithinSteps child.batches grid.stepCount)
    (hseries : ∀ e ∈ cellsOf child.batches, e.1.2 < rewritten.length)
    (hnodup : ((cellsOf child.batches).map Prod.fst).Nodup) :
    (∃ result, (∀ n, (calls (next (mergeBatches grid table.1 table.2.length))
        (fresh child) n).filterMap Poll.emitted = if n ≤ child.pendings then [] else [result]) ∧
      Relabelled rewritten table.2 grid child.batches result) ↔
    cellsOf child.lost = [] ∨ Collides rewritten child.kept := by
  obtain rfl : table = internAll rewritten := by
    rw [buildLabelManip, hrewritten] at hbuild
    exact (Except.ok.inj hbuild).symm
  have htable := interned_internAll rewritten
  generalize internAll rewritten = table at *
  obtain ⟨map, outputs⟩ := table
  have hcells := cellsOf_lost_append_kept child
  have hsub : ∀ e ∈ cellsOf child.kept, e ∈ cellsOf child.batches :=
    fun e he => hcells ▸ mem_append_right _ he
  have hcollides : Collides rewritten child.kept → Collides rewritten child.batches :=
    fun ⟨e, he, e', he', h⟩ => ⟨e, hsub e he, e', hsub e' he', h⟩
  have hcalls := (emits (mergeBatches grid map outputs.length) hsound).calls
  -- What the code does is right for the batches that it kept.
  have hkept : Relabelled rewritten outputs grid child.kept
      (mergeBatches grid map outputs.length child.kept) := by
    refine relabelled_mergeBatches htable hroom (fun batch hbatch => hsteps batch ?_)
      (fun e he => hseries e (hsub e he)) ?_
    · exact child.lost_append_kept ▸ mem_append_right _ hbatch
    · rw [← hcells, map_append] at hnodup
      exact hnodup.of_append_right
  constructor
  · rintro ⟨result, hresult, hright⟩
    obtain rfl : mergeBatches grid map outputs.length child.kept = result := by
      have h := (hcalls (child.pendings + 1)).symm.trans (hresult (child.pendings + 1))
      simpa using h
    by_contra hnot
    obtain ⟨hlost, hno⟩ := not_or.mp hnot
    obtain ⟨out, hout, -, -, hcell⟩ := hkept.emits hno
    rw [hout] at hright
    have hno' : ¬ Collides rewritten child.batches := fun h => nomatch hright.fails h
    obtain ⟨_, ⟨rfl⟩, -, -, hcell'⟩ := hright.emits hno'
    -- A lost cell is in the result, so a cell of another series with its labels is.
    obtain ⟨e, he⟩ := exists_mem_of_ne_nil _ hlost
    have hmem : e ∈ cellsOf child.batches := hcells ▸ mem_append_left _ he
    obtain ⟨-, hlabels, hlt⟩ := output_spec htable (hseries e hmem)
    obtain ⟨labels, hg⟩ : ∃ labels, outputs[map.getD e.1.2 0]? = some labels :=
      ⟨_, List.getElem?_eq_getElem hlt⟩
    have hvalue := (hcell' e.1.1 _ labels (hsteps.lt hmem) hg e.2).mpr
      ⟨e.1.2, hmem, hlabels ▸ hg⟩
    obtain ⟨i, hi, hi'⟩ := (hcell e.1.1 _ labels (hsteps.lt hmem) hg e.2).mp hvalue
    by_cases hsame : i = e.1.2
    · subst hsame
      rw [← hcells, map_append] at hnodup
      exact (nodup_append.mp hnodup).2.2 _ (mem_map_of_mem he) _ (mem_map_of_mem hi) rfl
    · exact hno' ⟨e, hmem, _, hsub _ hi, rfl, Ne.symm hsame, by rw [hi', ← hlabels, hg]⟩
  · intro hcond
    refine ⟨_, hcalls, ?_⟩
    rcases hcond with hlost | hcol
    · rw [hlost, nil_append] at hcells
      have hsame : Collides rewritten child.batches ↔ Collides rewritten child.kept := by
        rw [Collides, Collides, hcells]
      exact ⟨fun h => hkept.fails (hsame.mp h), fun h => hcells ▸ hkept.emits (mt hsame.mpr h)⟩
    · exact ⟨fun _ => hkept.fails hcol, fun h => absurd (hcollides hcol) h⟩

end

def oneStepGrid : OutputGrid := ⟨[1000], fun _ => .ok ()⟩

/-- Two tiles of one series each, and what comes before and between them. -/
def twoSeries (before between : Child String (ValueBatch Nat)) : Child String (ValueBatch Nat) :=
  before ++ .ready (.ok (oneStepBatch ⟨0, 1⟩ [some 3])) :: between
    ++ [.ready (.ok (oneStepBatch ⟨1, 2⟩ [some 5]))]

theorem label_manip_two_tiles : ∃ out : ValueBatch Nat,
    (∀ n, (calls (next (mergeBatches oneStepGrid [0, 1] 2)) (fresh (twoSeries [.pending] []))
      n).filterMap Poll.emitted = if n ≤ 1 then [] else [.ok out]) ∧ out.cell 0 1 = some 5 := by
  have hsound : (twoSeries [.pending] []).Sound := by
    simp [twoSeries, Child.Sound]
  obtain ⟨result, hresult, hright⟩ := (@label_manip_emits _ oneStepGrid _ .ok
    [[⟨"a", "1"⟩], [⟨"a", "2"⟩]] ([0, 1], [[⟨"a", "1"⟩], [⟨"a", "2"⟩]]) _ rfl rfl (fun _ => rfl)
    hsound (by unfold WithinSteps; decide +kernel) (by decide +kernel) (by decide +kernel)).mpr
    (.inl (by decide +kernel))
  obtain ⟨out, rfl, -, -, hcell⟩ := hright.emits (by unfold Collides; decide +kernel)
  exact ⟨out, hresult, (hcell 0 1 _ (by decide) rfl 5).mpr ⟨1, by decide +kernel, rfl⟩⟩

/-- The batch before a pending result is lost. -/
theorem label_manip_pending_between :
    (calls (next (mergeBatches oneStepGrid [0, 1] 2)) (fresh (twoSeries [] [.pending]))
      2).filterMap Poll.emitted = [.ok (oneStepBatch ⟨0, 2⟩ [none, some 5])] := by
  decide +kernel

/-! ### `count_values` -/

section

variable {grid : OutputGrid} {ofNat : Nat → V} {format : V → String}
  {labelName : String} {map : List Nat} {groups : List (List Label)}

def otherLabels (labelName : String) (labels : List Label) : List Label :=
  labels.filter fun l => l.name ≠ labelName

theorem valueLabels_eq_iff {x y f f'} : valueLabels labelName x f = valueLabels labelName y f' ↔
    (otherLabels labelName x).Perm (otherLabels labelName y) ∧ f = f' := by
  constructor
  · intro h
    have hperm : (otherLabels labelName x ++ [Label.mk labelName f]).Perm
        (otherLabels labelName y ++ [Label.mk labelName f']) :=
      ((perm_sortBy _ _).symm.trans (.of_eq h)).trans (perm_sortBy _ _)
    have hnone : ∀ z, (otherLabels labelName z).filter (fun l => l.name = labelName) = [] := by
      simp [otherLabels, filter_filter]
    have hall : ∀ z, (otherLabels labelName z).filter (fun l => l.name ≠ labelName) =
        otherLabels labelName z := by
      simp [otherLabels, filter_filter]
    have hother := hperm.filter fun l => l.name ≠ labelName
    have hvalue := hperm.filter fun l => l.name = labelName
    rw [filter_append, filter_append, hall, hall] at hother
    rw [filter_append, filter_append, hnone, hnone] at hvalue
    exact ⟨by simpa using hother, by simpa using hvalue⟩
  · rintro ⟨hperm, rfl⟩
    refine sortBy_eq_of_perm _ (fun l l' h => ?_) (hperm.append_right _)
    have hbytes : Function.Injective (List.map UInt8.toNat) :=
      map_injective_iff.mpr fun _ _ => UInt8.toNat_inj.mp
    obtain ⟨hname, hvalue⟩ := Prod.mk.inj (toLex.injective h)
    exact Label.mk.injEq .. ▸ ⟨asBytes_inj (hbytes hname), asBytes_inj (hbytes hvalue)⟩

def resultOf (format : V → String) (labelName : String) (map : List Nat)
    (groups : List (List Label)) (e : (Nat × Nat) × V) : Option (List Label) :=
  map[e.1.2]?.map fun g => valueLabels labelName (groups.getD g []) (format e.2)

/-- The cells of a step that go to a result series. -/
def countAt (format : V → String) (labelName : String) (map : List Nat) (groups : List (List Label))
    (batches : List (ValueBatch V)) (t : Nat) (labels : List Label) : Nat :=
  (cellsOf batches).countP fun e => e.1.1 = t ∧ resultOf format labelName map groups e = some labels

/-- Pairs of a group and a value that occur differ in the labels of the group without the result
label, or in the text of the value. -/
def Distinguishes (format : V → String) (labelName : String) (map : List Nat)
    (groups : List (List Label)) (batches : List (ValueBatch V)) : Prop :=
  ∀ e ∈ cellsOf batches, ∀ e' ∈ cellsOf batches, ∀ g g', map[e.1.2]? = some g →
    map[e'.1.2]? = some g' → (otherLabels labelName (groups.getD g [])).Perm
      (otherLabels labelName (groups.getD g' [])) → format e.2 = format e'.2 → (g, e.2) = (g', e'.2)

theorem sum_countP {α κ : Type} [DecidableEq κ] {f : α → Option κ} (P : α → Prop) [DecidablePred P]
    {ks : List κ} (hnodup : ks.Nodup) (l : List α) (hall : ∀ a ∈ l, ∀ k, f a = some k → k ∈ ks) :
    (ks.map fun k => l.countP fun a => P a ∧ f a = some k).sum =
      l.countP fun a => P a ∧ (f a).isSome := by
  induction l with
  | nil => simp
  | cons a l ih =>
    obtain ⟨ha, hl⟩ := forall_mem_cons.mp hall
    have hone : (ks.map fun k => if P a ∧ f a = some k then 1 else 0).sum =
        if P a ∧ (f a).isSome then 1 else 0 := by
      cases hfa : f a with
      | none => simp
      | some k =>
        have hcount : ∀ ks : List κ, (ks.map fun k' => if P a ∧ k = k' then 1 else 0).sum =
            if P a then ks.count k else 0 := by
          intro ks
          induction ks with
          | nil => simp
          | cons k' ks ih =>
            rw [map_cons, sum_cons, ih, count_cons]
            by_cases hP : P a
            · by_cases hk : k = k'
              · simp [hP, hk, Nat.add_comm]
              · simp [hP, hk, Ne.symm hk]
            · simp [hP]
        simp [hcount, count_eq_one_of_mem hnodup (ha k hfa)]
    simp only [countP_cons, sum_map_add, ih hl, decide_eq_true_eq, hone]

variable [DecidableEq V]

def valueBuckets (map : List Nat) (batches : List (ValueBatch V)) : List ((Nat × V) × List Nat) :=
  groupPairs ((cellsOf batches).filterMap fun e => map[e.1.2]?.map fun g => ((g, e.2), e.1.1))

theorem mem_keys_valueBuckets {k} : k ∈ (valueBuckets map batches).map Prod.fst ↔
    ∃ e ∈ cellsOf batches, ∃ g, map[e.1.2]? = some g ∧ (g, e.2) = k := by
  rw [valueBuckets, (grouped_groupPairs _).keys]
  simp only [mem_map, mem_filterMap, Option.map_eq_some_iff]
  constructor
  · rintro ⟨_, ⟨e, he, g, hg, rfl⟩, rfl⟩
    exact ⟨e, he, g, hg, rfl⟩
  · rintro ⟨e, he, g, hg, rfl⟩
    exact ⟨_, ⟨e, he, g, hg, rfl⟩, rfl⟩

def bucketLabels (format : V → String) (labelName : String) (groups : List (List Label))
    (k : Nat × V) : List Label := valueLabels labelName (groups.getD k.1 []) (format k.2)

/-- The result series have different labels exactly if the pairs are distinguished. -/
theorem nodup_bucketLabels : ((valueBuckets map batches).map
    fun b => bucketLabels format labelName groups b.1).Nodup ↔
      Distinguishes format labelName map groups batches := by
  have hmap : (valueBuckets map batches).map (fun b => bucketLabels format labelName groups b.1) =
      ((valueBuckets map batches).map Prod.fst).map (bucketLabels format labelName groups) := by
    rw [map_map]
    rfl
  have hkeys : ((valueBuckets map batches).map Prod.fst).Nodup := (grouped_groupPairs _).nodup
  rw [hmap, nodup_map_iff_inj_on hkeys]
  constructor
  · intro h e he e' he' g g' hg hg' hperm hvalue
    exact h _ (mem_keys_valueBuckets.mpr ⟨e, he, g, hg, rfl⟩) _
      (mem_keys_valueBuckets.mpr ⟨e', he', g', hg', rfl⟩) (valueLabels_eq_iff.mpr ⟨hperm, hvalue⟩)
  · intro h k hk k' hk' heq
    obtain ⟨e, he, g, hg, rfl⟩ := mem_keys_valueBuckets.mp hk
    obtain ⟨e', he', g', hg', rfl⟩ := mem_keys_valueBuckets.mp hk'
    obtain ⟨hperm, hvalue⟩ := valueLabels_eq_iff.mp heq
    exact h e he e' he' g g' hg hg' hperm hvalue

theorem Distinguishes.count_bucket (h : Distinguishes format labelName map groups batches)
    {bucket} (hbucket : bucket ∈ valueBuckets map batches) (t : Nat) :
    bucket.2.count t = countAt format labelName map groups batches t
      (bucketLabels format labelName groups bucket.1) := by
  rw [(grouped_groupPairs _).values bucket hbucket, valuesOf, count_eq_countP, countP_map,
    countP_filter, countP_filterMap, countAt]
  refine countP_congr fun e he => ?_
  cases hg : map[e.1.2]? with
  | none => simp [resultOf, hg]
  | some g =>
    obtain ⟨e', he', g', hg', hkey⟩ := mem_keys_valueBuckets.mp (mem_map_of_mem hbucket)
    have hiff : bucketLabels format labelName groups (g, e.2) =
        bucketLabels format labelName groups bucket.1 ↔ (g, e.2) = bucket.1 := by
      rw [← hkey]
      refine ⟨fun heq => ?_, congrArg _⟩
      obtain ⟨hperm, hvalue⟩ := valueLabels_eq_iff.mp heq
      exact h e he e' he' g g' hg hg' hperm hvalue
    have hresult : resultOf format labelName map groups e =
        some (bucketLabels format labelName groups (g, e.2)) := by
      rw [resultOf, hg]
      rfl
    simp [hresult, hiff]

theorem mem_bucketLabels {l} :
    l ∈ (valueBuckets map batches).map (fun b => bucketLabels format labelName groups b.1) ↔
      ∃ e ∈ cellsOf batches, resultOf format labelName map groups e = some l := by
  have hmap : (valueBuckets map batches).map (fun b => bucketLabels format labelName groups b.1) =
      ((valueBuckets map batches).map Prod.fst).map (bucketLabels format labelName groups) := by
    rw [map_map]
    rfl
  rw [hmap, mem_map]
  simp only [mem_keys_valueBuckets, resultOf, Option.map_eq_some_iff]
  constructor
  · rintro ⟨_, ⟨e, he, g, hg, rfl⟩, rfl⟩
    exact ⟨e, he, g, hg, rfl⟩
  · rintro ⟨e, he, g, hg, rfl⟩
    exact ⟨_, ⟨e, he, g, hg, rfl⟩, rfl⟩

/-- What `count_values` should make of the batches: a series for each pair of the other labels of a
group and the text of a value that occurs, with the number of its cells at each step. -/
structure Counted (format : V → String) (labelName : String) (map : List Nat)
    (groups : List (List Label)) (grid : OutputGrid) (ofNat : Nat → V)
    (batches : List (ValueBatch V)) (labels : List (List Label)) (out : ValueBatch V) : Prop where
  nodup : labels.Nodup
  stepRange : out.stepRange = ⟨0, grid.stepCount⟩
  seriesRange : out.seriesRange = ⟨0, labels.length⟩
  series : ∀ l, l ∈ labels ↔
    ∃ e ∈ cellsOf batches, resultOf format labelName map groups e = some l
  cells : ∀ t k l, t < grid.stepCount → labels[k]? = some l → out.cell t k =
    if countAt format labelName map groups batches t l = 0 then none
    else some (ofNat (countAt format labelName map groups batches t l))
  sums : ∀ t, (labels.map (countAt format labelName map groups batches t)).sum =
    (cellsOf batches).countP fun e => e.1.1 = t ∧ map[e.1.2]?.isSome

omit [DecidableEq V] in
theorem sum_countAt {labels : List (List Label)} (hnodup : labels.Nodup)
    (hseries : ∀ l, l ∈ labels ↔
      ∃ e ∈ cellsOf batches, resultOf format labelName map groups e = some l) (t : Nat) :
    (labels.map (countAt format labelName map groups batches t)).sum =
      (cellsOf batches).countP fun e => e.1.1 = t ∧ map[e.1.2]?.isSome := by
  have hsum := sum_countP (fun e : (Nat × Nat) × V => e.1.1 = t) hnodup (cellsOf batches)
    fun e he l hl => (hseries l).mpr ⟨e, he, hl⟩
  refine hsum.trans (countP_congr fun e _ => ?_)
  simp [resultOf]

theorem saturatedCount_eq_zero {n : Nat} : saturatedCount n = 0 ↔ n = 0 := by
  rw [saturatedCount]
  omega

/-- The labels of the result series. -/
def seriesLabels (format : V → String) (labelName : String) (map : List Nat)
    (groups : List (List Label)) (batches : List (ValueBatch V)) : List (List Label) :=
  (valueBuckets map batches).map fun b => bucketLabels format labelName groups b.1

/-- What the code makes of the batches. Where the pairs are distinguished, the cells of a result
series are counted, and saturated. -/
theorem countValues_eq (hroom : ∀ cells, grid.allocate cells = .ok ()) :
    ∃ out, countValues grid ofNat format labelName map groups batches =
        .ok (seriesLabels format labelName map groups batches, out) ∧
      out.stepRange = ⟨0, grid.stepCount⟩ ∧
      out.seriesRange = ⟨0, (seriesLabels format labelName map groups batches).length⟩ ∧
      (Distinguishes format labelName map groups batches → ∀ t k l, t < grid.stepCount →
        (seriesLabels format labelName map groups batches)[k]? = some l → out.cell t k =
          if countAt format labelName map groups batches t l = 0 then none
          else
            some (ofNat (saturatedCount (countAt format labelName map groups batches t l)))) := by
  rw [countValues, ← cellsOf, ← valueBuckets, hroom]
  refine ⟨_, rfl, rfl, by rw [seriesLabels, length_map]; rfl, fun hdistinct t k l ht hk => ?_⟩
  rw [seriesLabels, List.getElem?_map] at hk
  obtain ⟨bucket, hbucket, rfl⟩ := Option.map_eq_some_iff.mp hk
  rw [OutputGrid.cell_batch ht (List.getElem?_eq_some_iff.mp hbucket).1, hbucket,
    ← hdistinct.count_bucket (mem_of_getElem? hbucket) t]
  simp only [Option.map_some, Option.getD_some, saturatedCount_eq_zero]

variable {child : Child String (ValueBatch V)}

omit [DecidableEq V] in
theorem countAt_lost_add_kept (t : Nat) (l : List Label) :
    countAt format labelName map groups child.lost t l +
      countAt format labelName map groups child.kept t l =
        countAt format labelName map groups child.batches t l := by
  rw [countAt, countAt, countAt, ← countP_append, cellsOf_lost_append_kept]

omit [DecidableEq V] in
/-- Where the counts of the batches are the saturated counts of those that were kept, no cell of a
group is lost and no count saturates. -/
theorem kept_of_countAt_eq (h : ∀ e ∈ cellsOf child.batches, ∀ l,
      resultOf format labelName map groups e = some l →
        countAt format labelName map groups child.batches e.1.1 l =
          saturatedCount (countAt format labelName map groups child.kept e.1.1 l)) :
    (∀ e ∈ cellsOf child.lost, map[e.1.2]? = none) ∧
      ∀ t l, countAt format labelName map groups child.batches t l ≤ 2 ^ 32 - 1 := by
  have hcells := cellsOf_lost_append_kept child
  refine ⟨fun e he => ?_, fun t l => ?_⟩
  · cases hg : map[e.1.2]? with
    | none => rfl
    | some g =>
      obtain ⟨l, hl⟩ : ∃ l, resultOf format labelName map groups e = some l :=
        ⟨_, by rw [resultOf, hg]; rfl⟩
      have heq := h e (hcells ▸ mem_append_left _ he) l hl
      have hpos : 0 < countAt format labelName map groups child.lost e.1.1 l :=
        countP_pos_iff.mpr ⟨e, he, by simp [hl]⟩
      rw [← countAt_lost_add_kept, saturatedCount] at heq
      omega
  · by_contra hbig
    obtain ⟨e, he, hmatch⟩ := countP_pos_iff.mp (show 0 < countAt format labelName map groups
      child.batches t l by omega)
    obtain ⟨rfl, hl⟩ := of_decide_eq_true hmatch
    have heq := h e he l hl
    rw [saturatedCount] at heq
    omega

/-- `count_values` gives the right result exactly if no cell of a group comes before the last
pending result, the pairs of a group and a value are distinguished, and no count is above
`u32::MAX`. -/
theorem count_values_emits (hroom : ∀ cells, grid.allocate cells = .ok ()) (hsound : child.Sound)
    (hsteps : WithinSteps child.batches grid.stepCount)
    (hofNat : Set.InjOn ofNat {n | n ≤ (cellsOf child.batches).length}) :
    (∃ labels out, (∀ n, (calls (next (countValues grid ofNat format labelName map groups))
        (fresh child) n).filterMap Poll.emitted =
          if n ≤ child.pendings then [] else [.ok (labels, out)]) ∧
      Counted format labelName map groups grid ofNat child.batches labels out) ↔
    (∀ e ∈ cellsOf child.lost, map[e.1.2]? = none) ∧
      Distinguishes format labelName map groups child.batches ∧
      ∀ t l, countAt format labelName map groups child.batches t l ≤ 2 ^ 32 - 1 := by
  have hcells := cellsOf_lost_append_kept child
  have hsub : ∀ e ∈ cellsOf child.kept, e ∈ cellsOf child.batches :=
    fun e he => hcells ▸ mem_append_right _ he
  have hin : (∀ e ∈ cellsOf child.lost, map[e.1.2]? = none) → ∀ e ∈ cellsOf child.batches,
      ∀ g, map[e.1.2]? = some g → e ∈ cellsOf child.kept := by
    intro hlost e he g hg
    rw [← hcells] at he
    refine (mem_append.mp he).resolve_left fun hbefore => ?_
    rw [hlost e hbefore] at hg
    cases hg
  obtain ⟨out, hfinish, hrange, hrange', hcell⟩ := @countValues_eq _ child.kept grid ofNat format
    labelName map groups _ hroom
  have hcalls := (emits (countValues grid ofNat format labelName map groups) hsound).calls
  rw [hfinish] at hcalls
  constructor
  · rintro ⟨labels, out', hresult, hright⟩
    obtain ⟨rfl, rfl⟩ : seriesLabels format labelName map groups child.kept = labels ∧
        out = out' := by
      have h := (hcalls (child.pendings + 1)).symm.trans (hresult (child.pendings + 1))
      simpa using h
    have hdistinct := nodup_bucketLabels.mp hright.nodup
    obtain ⟨hlost, hsmall⟩ := @kept_of_countAt_eq _ format labelName map groups child (by
      intro e he l hl
      -- The result of a cell has a place, and the counts there agree.
      obtain ⟨k, hk⟩ := List.mem_iff_getElem?.mp ((hright.series l).mpr ⟨e, he, hl⟩)
      have hpos : countAt format labelName map groups child.batches e.1.1 l ≠ 0 :=
        Nat.ne_of_gt (countP_pos_iff.mpr ⟨e, he, by simp [hl]⟩)
      have heq := (hright.cells e.1.1 k l (hsteps.lt he) hk).symm.trans
        (hcell hdistinct e.1.1 k l (hsteps.lt he) hk)
      have hle : countAt format labelName map groups child.batches e.1.1 l ≤
        (cellsOf child.batches).length := countP_le_length
      rw [if_neg hpos] at heq
      split at heq
      · cases heq
      · refine hofNat hle ?_ (Option.some.inj heq)
        rw [← countAt_lost_add_kept] at hle
        exact (Nat.min_le_left _ _).trans ((Nat.le_add_left _ _).trans hle))
    refine ⟨hlost, fun e he e' he' g g' hg hg' => ?_, hsmall⟩
    exact hdistinct e (hin hlost e he g hg) e' (hin hlost e' he' g' hg') g g' hg hg'
  · rintro ⟨hlost, hdistinct, hsmall⟩
    have hresult : ∀ e ∈ cellsOf child.lost, resultOf format labelName map groups e = none := by
      intro e he
      rw [resultOf, hlost e he]
      rfl
    have hcountAt : ∀ t l, countAt format labelName map groups child.kept t l =
        countAt format labelName map groups child.batches t l := by
      intro t l
      rw [← countAt_lost_add_kept, Nat.right_eq_add, countAt, countP_eq_zero]
      intro e he
      simp [hresult e he]
    have hdistinct' : Distinguishes format labelName map groups child.kept :=
      fun e he e' he' => hdistinct e (hsub e he) e' (hsub e' he')
    have hseries : ∀ l, l ∈ seriesLabels format labelName map groups child.kept ↔
        ∃ e ∈ cellsOf child.batches, resultOf format labelName map groups e = some l := by
      intro l
      rw [seriesLabels, mem_bucketLabels]
      refine ⟨fun ⟨e, he, hl⟩ => ⟨e, hsub e he, hl⟩, fun ⟨e, he, hl⟩ => ⟨e, ?_, hl⟩⟩
      obtain ⟨g, hg, -⟩ := Option.map_eq_some_iff.mp hl
      exact hin hlost e he g hg
    have hnodup := nodup_bucketLabels.mpr hdistinct'
    refine ⟨_, _, hcalls, hnodup, hrange, hrange', hseries, ?_, sum_countAt hnodup hseries⟩
    intro t k l ht hk
    have hmin : saturatedCount (countAt format labelName map groups child.batches t l) =
        countAt format labelName map groups child.batches t l := Nat.min_eq_left (hsmall t l)
    rw [hcell hdistinct' t k l ht hk, hcountAt, hmin]

end

def threeOrMore (n : Nat) : String := if n = 3 then "3" else "more"

theorem count_values_one_group : ∃ (labels : List (List Label)) (out : ValueBatch Nat),
      (∀ n, (calls (next (countValues oneStepGrid id threeOrMore "v" [0, 0] [[]]))
        (fresh [.pending, .ready (.ok (oneStepBatch ⟨0, 2⟩ [some 3, some 3]))])
          n).filterMap Poll.emitted = if n ≤ 1 then [] else [.ok (labels, out)]) ∧
      [⟨"v", "3"⟩] ∈ labels := by
  have hall : ∀ e ∈ cellsOf [oneStepBatch ⟨0, 2⟩ [some 3, some 3]],
      ([0, 0][e.1.2]?, e.2) = (some 0, 3) := by decide +kernel
  have hdistinct : Distinguishes threeOrMore "v" [0, 0] [[]]
      [oneStepBatch ⟨0, 2⟩ [some 3, some 3]] := by
    intro e he e' he' g g' hg hg' _ _
    obtain ⟨h, hv⟩ := Prod.mk.inj (hall e he)
    obtain ⟨h', hv'⟩ := Prod.mk.inj (hall e' he')
    rw [hg] at h
    rw [hg'] at h'
    rw [hv, hv', Option.some.inj h, Option.some.inj h']
  have hsmall : ∀ t l, countAt threeOrMore "v" [0, 0] [[]] [oneStepBatch ⟨0, 2⟩ [some 3, some 3]]
      t l ≤ 2 ^ 32 - 1 := fun t l => countP_le_length.trans (by decide +kernel)
  obtain ⟨labels, out, hcalls, hright⟩ := (@count_values_emits _ oneStepGrid id threeOrMore "v"
    [0, 0] [[]] _ [.pending, .ready (.ok (oneStepBatch ⟨0, 2⟩ [some 3, some 3]))] (fun _ => rfl)
    (by simp [Child.Sound]) (by unfold WithinSteps; decide +kernel)
    Function.injective_id.injOn).mpr ⟨by decide +kernel, hdistinct, hsmall⟩
  exact ⟨labels, out, hcalls,
    (hright.series _).mpr ⟨((0, 0), 3), by decide +kernel, by decide +kernel⟩⟩

/-- The tile before a pending result is lost. Two groups that differ in the result label only give
two result series with the same labels. -/
theorem count_values_lost_and_twice :
    (calls (next (countValues oneStepGrid id threeOrMore "v" [0, 0] [[]]))
      (fresh (twoSeries [] [.pending])) 2).filterMap Poll.emitted =
      [.ok ([[⟨"v", "more"⟩]], oneStepBatch ⟨0, 1⟩ [some 1])] ∧
    (calls (next (countValues oneStepGrid id threeOrMore "v" [0, 1]
      [[⟨"v", "1"⟩], [⟨"v", "2"⟩]])) (fresh [.ready (.ok (oneStepBatch ⟨0, 2⟩ [some 3, some 3]))])
        1).filterMap Poll.emitted =
      [.ok ([[⟨"v", "3"⟩], [⟨"v", "3"⟩]], oneStepBatch ⟨0, 2⟩ [some 1, some 1])] := by
  decide +kernel

/-! ### The operator -/

namespace AggregateOp

variable {σ : Type} {asI64 : V → Int64} {absorb : σ → ValueBatch V → σ} {op : AggregateOp V σ}
  {finalise : Option (List Int64) → σ → Except String (ValueBatch V)} {out : ValueBatch V}

theorem next_of_loaded (h : op.paramLoaded = true) : op.next asI64 absorb finalise =
    if op.done || op.errored then (op, .ready none) else op.absorbAll absorb finalise := by
  simp [AggregateOp.next, loadParamValues, h]

def Over (op : AggregateOp V σ) : Prop :=
  (op.done || op.errored) = true ∨ op.emitted = true ∧ op.paramLoaded = true

theorem Over.next (h : op.Over) : (op.next asI64 absorb finalise).1.Over ∧
    (op.next asI64 absorb finalise).2.emitted = none := by
  by_cases hover : (op.done || op.errored) = true
  · rw [AggregateOp.next, if_pos hover]
    exact ⟨.inl hover, rfl⟩
  · obtain ⟨hemitted, hloaded⟩ := h.resolve_left hover
    rw [next_of_loaded hloaded, if_neg hover, absorbAll, if_pos hemitted]
    exact ⟨.inl rfl, rfl⟩

/-- The parameter is loaded, and nothing is emitted yet. -/
structure Started (op : AggregateOp V σ) : Prop where
  loaded : op.paramLoaded = true
  fresh : (op.done || op.errored) = false
  silent : op.emitted = false

theorem Started.next (h : op.Started) :
    op.next asI64 absorb finalise = op.absorbAll absorb finalise := by
  rw [next_of_loaded h.loaded, if_neg (by simp [h.fresh])]

theorem Started.emits {accums} (h : op.Started) (hsound : op.child.Sound)
    (hfinal : op.child.batches.foldl (fun state batch => (absorb state.1 batch, true))
      (op.accums, op.sawAnyBatch) = (accums, true))
    (hout : finalise op.paramValues accums = .ok out) :
    Emits (AggregateOp.next asI64 absorb finalise) op.child.pendings op (.ok out) := by
  induction hp : op.child.pendings generalizing op with
  | zero =>
    rcases @Child.drain_of_sound _ _ _ _ (fun state batch => (absorb state.1 batch, true)) hsound
      (op.accums, op.sawAnyBatch) with ⟨-, hdrain⟩ | ⟨rest, taken, -, -, hcount, -⟩
    · refine .now (t := { op with child := [], accums, sawAnyBatch := true, emitted := true }) ?_
        (Silent.of_invariant (I := Over) (fun _ => Over.next) (.inr ⟨rfl, h.loaded⟩))
      rw [hfinal] at hdrain
      rw [h.next]
      simp [absorbAll, h.silent, hdrain, hout]
    · omega
  | succ p ih =>
    rcases @Child.drain_of_sound _ _ _ _ (fun state batch => (absorb state.1 batch, true)) hsound
      (op.accums, op.sawAnyBatch) with ⟨hzero, -⟩ | ⟨rest, taken, hdrain, hrest, hcount, happend, -⟩
    · omega
    · rw [happend, foldl_append] at hfinal
      generalize taken.foldl _ _ = state at hdrain hfinal
      refine .later ?_ (@ih { op with child := rest, accums := state.1, sawAnyBatch := state.2 }
        ⟨h.loaded, h.fresh, h.silent⟩ hrest hfinal hout (by dsimp only; omega))
      rw [h.next]
      simp [absorbAll, h.silent, hdrain]

theorem Started.silent_of_no_batch (h : op.Started) (hsound : op.child.Sound)
    (hnone : op.child.batches = []) (hsaw : op.sawAnyBatch = false) :
    Silent (AggregateOp.next asI64 absorb finalise) op := by
  refine Silent.of_invariant (I := fun op : AggregateOp V σ => op.Over ∨ (op.Started ∧
    op.child.Sound ∧ op.child.batches = [] ∧ op.sawAnyBatch = false)) (fun op hop => ?_)
    (.inr ⟨h, hsound, hnone, hsaw⟩)
  rcases hop with hover | ⟨h, hsound, hnone, hsaw⟩
  · exact ⟨.inl hover.next.1, hover.next.2⟩
  · rw [h.next, absorbAll, if_neg (by simp [h.silent])]
    rcases @Child.drain_of_sound _ _ _ _ (fun state batch => (absorb state.1 batch, true)) hsound
      (op.accums, op.sawAnyBatch) with ⟨-, hdrain⟩ | ⟨rest, taken, hdrain, hrest, -, happend, -⟩
    · rw [hnone, foldl_nil, hsaw] at hdrain
      simp [hdrain, hsaw, Over, Poll.emitted]
    · obtain ⟨rfl, hrestnone⟩ := append_eq_nil_iff.mp (happend.symm.trans hnone)
      rw [foldl_nil] at hdrain
      rw [hdrain]
      exact ⟨.inr ⟨⟨h.loaded, h.fresh, h.silent⟩, hrest, hrestnone, hsaw⟩, rfl⟩

theorem next_of_load {op'} (hfresh : (op.done || op.errored) = false)
    (hload : op.loadParamValues asI64 = (op', .ready (.ok ()))) (h : op'.Started) :
    op.next asI64 absorb finalise = op'.next asI64 absorb finalise := by
  rw [h.next, AggregateOp.next, if_neg (by simp [hfresh]), hload]

def loaded (asI64 : V → Int64) (child : Child String (ValueBatch V))
    (param : Option (Child String (ValueBatch V))) (grid : OutputGrid) (accums : σ) :
    AggregateOp V σ :=
  ⟨child, none, param.bind fun param =>
    param.batches.foldl (loadBatch asI64) (some (replicate grid.stepCount 0)), true, accums,
    false, false, false, false⟩

theorem started_loaded (child : Child String (ValueBatch V))
    (param : Option (Child String (ValueBatch V))) (grid : OutputGrid) (accums : σ) :
    (loaded asI64 child param grid accums).Started := ⟨rfl, rfl, rfl⟩

section

-- What holds of the operator with its parameter holds before, since a call that loads goes on.
variable {P : Nat → AggregateOp V σ → Prop} {p : Nat}
  (hcongr : ∀ p s t, AggregateOp.next asI64 absorb finalise s = t.next asI64 absorb finalise →
    P p t → P p s)
  (hlater : ∀ p s t, AggregateOp.next asI64 absorb finalise s = (t, .pending) → P p t → P (p + 1) s)

include hcongr hlater

theorem Started.of_param (hop : op.Started) {param} (hparam : param.Sound) {values}
    (h : P p { op with
      paramChild := none
      paramValues := param.batches.foldl (loadBatch asI64) values
      paramLoaded := true }) :
    P (p + param.pendings) { op with
      paramChild := some param, paramValues := values, paramLoaded := false } := by
  induction hp : param.pendings generalizing param values with
  | zero =>
    rcases @Child.drain_of_sound _ _ _ _ (loadBatch asI64) hparam values with
      ⟨-, hdrain⟩ | ⟨rest, taken, -, -, hcount, -⟩
    · refine hcongr _ _ _ (@next_of_load _ _ _ _ _ _ { op with
        paramChild := none
        paramValues := param.batches.foldl (loadBatch asI64) values
        paramLoaded := true } hop.fresh ?_ ⟨rfl, hop.fresh, hop.silent⟩) h
      simp [loadParamValues, hdrain]
    · omega
  | succ n ih =>
    rcases @Child.drain_of_sound _ _ _ _ (loadBatch asI64) hparam values with
      ⟨hzero, -⟩ | ⟨rest, taken, hdrain, hrest, hcount, happend, -⟩
    · omega
    · rw [happend, foldl_append] at h
      refine hlater _ _ _ ?_ (ih hrest h (by omega))
      rw [AggregateOp.next, if_neg (by simp [hop.fresh])]
      simp [loadParamValues, hdrain]

theorem of_loaded {child param} (hparam : ∀ c ∈ param, c.Sound)
    {grid accums} (h : P p (loaded asI64 child param grid accums)) :
    P (p + (param.map Child.pendings).getD 0) (new child param grid accums) := by
  have hstarted := @started_loaded _ _ asI64 child param grid accums
  cases param with
  | none => exact hcongr _ _ _ (next_of_load rfl rfl hstarted) h
  | some param => exact hstarted.of_param hcongr hlater (hparam param rfl) h

end

variable {child : Child String (ValueBatch V)} {param : Option (Child String (ValueBatch V))}
  {grid : OutputGrid} {accums : σ}

theorem new_silent (hsound : child.Sound) (hparam : ∀ c ∈ param, c.Sound)
    (hnone : child.batches = []) :
    Silent (AggregateOp.next asI64 absorb finalise) (new child param grid accums) :=
  @of_loaded _ _ asI64 absorb finalise (fun _ => Silent (AggregateOp.next asI64 absorb finalise)) 0
    (fun _ _ _ => Silent.congr) (fun _ _ _ => Silent.later) _ _ hparam _ _
    ((started_loaded child param grid accums).silent_of_no_batch hsound hnone rfl)

theorem new_emits (hsound : child.Sound) (hparam : ∀ c ∈ param, c.Sound)
    (hsome : child.batches ≠ []) (hout : finalise (loaded asI64 child param grid accums).paramValues
      (child.batches.foldl absorb accums) = .ok out) :
    Emits (AggregateOp.next asI64 absorb finalise)
      (child.pendings + (param.map Child.pendings).getD 0) (new child param grid accums)
      (.ok out) := by
  have hfinal : ∀ (batches : List (ValueBatch V)) (accums : σ) saw, batches.foldl
      (fun state batch => (absorb state.1 batch, true)) (accums, saw) =
        (batches.foldl absorb accums, saw || !batches.isEmpty) := by
    intro batches
    induction batches with
    | nil => simp
    | cons batch batches ih => simp [ih]
  refine of_loaded (P := fun p op => Emits (AggregateOp.next asI64 absorb finalise) p op (.ok out))
    (fun _ _ _ => Emits.congr) (fun _ _ _ => Emits.later) hparam
      ((started_loaded child param grid accums).emits hsound ?_ hout)
  exact (hfinal child.batches accums false).trans (by simp [hsome])

end AggregateOp

/-! ### Aggregations -/

/-- The cells of a step that belong to a group. -/
def groupCells (map : List Nat) (batches : List (ValueBatch V)) (t g : Nat) :
    List ((Nat × Nat) × V) :=
  (cellsOf batches).filter fun e => e.1.1 = t ∧ map[e.1.2]? = some g

theorem nodup_groupCells (h : ((cellsOf batches).map Prod.fst).Nodup) {t g} :
    ((groupCells map batches t g).map fun e => e.1.2).Nodup := by
  refine (nodup_map_iff_inj_on (.filter _ (Nodup.of_map _ h))).mpr ?_
  intro e he e' he' heq
  obtain ⟨he, hstep⟩ := mem_filter.mp he
  obtain ⟨he', hstep'⟩ := mem_filter.mp he'
  refine inj_on_of_nodup_map h he he' (Prod.ext ?_ heq)
  exact (of_decide_eq_true hstep).1.trans (of_decide_eq_true hstep').1.symm

variable [LinearOrder V] {ofNat : Nat → V}

namespace Accumulator

/-- The accumulator has the count, the minimum and the maximum of the values. -/
structure Saw (vs : List V) (accum : Accumulator V) : Prop where
  count : accum.count = vs.length
  empty : accum.range = none → vs = []
  range : ∀ r, accum.range = some r →
    (r.1 ∈ vs ∧ ∀ v ∈ vs, r.1 ≤ v) ∧ r.2 ∈ vs ∧ ∀ v ∈ vs, v ≤ r.2

variable {accum : Accumulator V} {vs : List V}

theorem Saw.absorb (h : Saw vs accum) (v : V) : Saw (vs ++ [v]) (accum.absorb v) where
  count := by simp [Accumulator.absorb, h.count]
  empty hnone := by
    cases hrange : accum.range <;> simp [Accumulator.absorb, hrange] at hnone
  range r hr := by
    cases hrange : accum.range with
    | none =>
      obtain rfl : (v, v) = r := by simpa [Accumulator.absorb, hrange] using hr
      simp [h.empty hrange]
    | some old =>
      obtain ⟨⟨hmin, hle⟩, hmax, hge⟩ := h.range old hrange
      obtain rfl : (min v old.1, max old.2 v) = r := by
        simpa [Accumulator.absorb, hrange, min_def_lt, max_def_lt] using hr
      refine ⟨⟨?_, fun w hw => ?_⟩, ?_, fun w hw => ?_⟩
      · rcases min_choice v old.1 with heq | heq <;> simp [heq, hmin]
      · rcases mem_append.mp hw with hw | hw
        · exact (min_le_right _ _).trans (hle w hw)
        · exact mem_singleton.mp hw ▸ min_le_left v old.1
      · rcases max_choice old.2 v with heq | heq <;> simp [heq, hmax]
      · rcases mem_append.mp hw with hw | hw
        · exact (hge w hw).trans (le_max_left _ _)
        · exact mem_singleton.mp hw ▸ le_max_right old.2 v

theorem saw_foldl (vs : List V) : Saw vs (vs.foldl Accumulator.absorb ⟨0, none⟩) := by
  refine foldl_history (I := Saw) ⟨rfl, fun _ => rfl, by simp⟩ ?_
  rintro done v rest accum - h
  exact h.absorb v

/-- The result of an aggregation over these values. -/
def Result (ofNat : Nat → V) (vs : List V) (r : V) : AggregateKind → Prop
  | .count => r = ofNat vs.length
  | .group => r = ofNat 1
  | .min => r ∈ vs ∧ ∀ v ∈ vs, r ≤ v
  | .max => r ∈ vs ∧ ∀ v ∈ vs, v ≤ r

theorem Saw.value (h : Saw vs accum) (kind : AggregateKind) :
    (vs = [] → accum.value ofNat kind = none) ∧
      (vs ≠ [] → ∃ r, accum.value ofNat kind = some r ∧ Result ofNat vs r kind) := by
  refine ⟨fun hnil => by simp [Accumulator.value, h.count, hnil], fun hne => ?_⟩
  have hcount : accum.count ≠ 0 := by simp [h.count, hne]
  obtain ⟨range, hrange⟩ := Option.ne_none_iff_exists'.mp (mt h.empty hne)
  obtain ⟨hmin, hmax⟩ := h.range range hrange
  cases kind with
  | min => exact ⟨range.1, by simp [Accumulator.value, hcount, hrange], hmin⟩
  | max => exact ⟨range.2, by simp [Accumulator.value, hcount, hrange], hmax⟩
  | count => exact ⟨_, by simp [Accumulator.value, hcount], congrArg ofNat h.count⟩
  | group => exact ⟨_, by simp [Accumulator.value, hcount], rfl⟩

end Accumulator

theorem getElem?_absorb (entries : List ((Nat × Nat) × V))
    (accums : List (Accumulator V)) (hmap : ∀ g ∈ map, g < n) {t g} (hg : g < n) :
    (entries.foldl (absorbEntry map n) accums)[t * n + g]? = accums[t * n + g]?.map fun accum =>
      ((entries.filter fun e => e.1.1 = t ∧ map[e.1.2]? = some g).map Prod.snd).foldl
        Accumulator.absorb accum := by
  induction entries generalizing accums with
  | nil => simp
  | cons e entries ih =>
    rw [foldl_cons, ih, absorbEntry]
    cases hgroup : map[e.1.2]? with
    | none => simp [hgroup]
    | some group =>
      have hcell : e.1.1 * n + group = t * n + g ↔ e.1.1 = t ∧ group = g :=
        ⟨fun h => Prod.mk.inj (@cell_inj _ (e.1.1, group) (t, g)
          (hmap group (mem_of_getElem? hgroup)) hg h), fun h => by rw [h.1, h.2]⟩
      dsimp only
      rw [getElem?_modify, filter_cons]
      cases accums[t * n + g]? with
      | none => rfl
      | some =>
        simp only [Option.map_eq_map, Option.map_some, hgroup, Option.some.injEq, hcell]
        by_cases h : e.1.1 = t ∧ group = g <;> simp [h]

theorem foldl_absorbBatch (batches : List (ValueBatch V))
    (accums : List (Accumulator V)) : batches.foldl (absorbBatchStreaming map n) accums =
      (cellsOf batches).foldl (absorbEntry map n) accums := by
  rw [cellsOf, foldl_flatMap]
  rfl

namespace AggregateOp

theorem groupKeyLabels_sorted {x} (h : sortByNameAndValue x = x) (grouping : AggregateGrouping) :
    sortByNameAndValue (groupKeyLabels x grouping) = groupKeyLabels x grouping := by
  have hpairwise := pairwise_sortBy (fun l : Label => toLex ((asBytes l.name).map UInt8.toNat,
    (asBytes l.value).map UInt8.toNat)) x
  rw [show sortBy _ x = x from h] at hpairwise
  cases grouping <;> exact Pairwise.insertionSort_eq (hpairwise.filter _)

omit [LinearOrder V] in
/-- Batches inside of the grid and of the roster are absorbed at indices that exist, in the grid of
accumulators and in the buffer of all cells. -/
theorem absorbed_inside {roster : List (List Label)} (grouping : AggregateGrouping)
    {batches : List (ValueBatch V)} {grid : OutputGrid}
    (hsteps : WithinSteps batches grid.stepCount)
    (hseries : ∀ e ∈ cellsOf batches, e.1.2 < roster.length) {e} (he : e ∈ cellsOf batches) :
    let table := buildGroupMap roster grouping
    (∃ g, table.1[e.1.2]? = some g ∧
      e.1.1 * table.2.length + g < grid.stepCount * table.2.length) ∧
    e.1.1 * table.1.length + e.1.2 < grid.stepCount * table.1.length := by
  have htable : Interned _ (buildGroupMap roster grouping) := interned_internAll _
  have hlen : (buildGroupMap roster grouping).1.length = roster.length := by
    simpa using htable.length
  have hin : e.1.2 < (buildGroupMap roster grouping).1.length := by
    rw [hlen]
    exact hseries e he
  obtain ⟨g, hg⟩ : ∃ g, (buildGroupMap roster grouping).1[e.1.2]? = some g :=
    ⟨_, List.getElem?_eq_getElem hin⟩
  exact ⟨⟨g, hg, @cell_lt _ _ (e.1.1, g) (hsteps.lt he) (htable.lt (mem_of_getElem? hg))⟩,
    @cell_lt _ _ e.1 (hsteps.lt he) hin⟩

/-- An aggregation emits one batch, over the whole grid, with the result of the values of each group
at each step, whatever the tiles and the pending results are. -/
theorem aggregate_emits {roster : List (List Label)} (grouping : AggregateGrouping)
    (kind : AggregateKind) {child : Child String (ValueBatch V)} {grid : OutputGrid}
    (hsorted : ∀ x ∈ roster, sortByNameAndValue x = x) (hsound : child.Sound)
    (hroom : ∀ cells, grid.allocate cells = .ok ())
    (hnodup : ((cellsOf child.batches).map Prod.fst).Nodup) :
    let table := buildGroupMap roster grouping
    let emitted := fun n => (calls (nextStreaming ofNat kind table grid)
      (newStreaming child table grid) n).filterMap Poll.emitted
    (child.batches = [] → ∀ n, emitted n = []) ∧
    (child.batches ≠ [] → ∃ out : ValueBatch V,
      (∀ n, emitted n = if n ≤ child.pendings then [] else [.ok out]) ∧
      out.stepRange = ⟨0, grid.stepCount⟩ ∧ out.seriesRange = ⟨0, table.2.length⟩ ∧
      ∀ t g, t < grid.stepCount → g < table.2.length →
        let cells := groupCells table.1 child.batches t g
        (cells.map fun e => e.1.2).Nodup ∧ (cells = [] → out.cell t g = none) ∧
          (cells ≠ [] → ∃ r, out.cell t g = some r ∧
            Accumulator.Result ofNat (cells.map Prod.snd) r kind)) ∧
    ∀ (i j : Nat) (x y : List Label), roster[i]? = some x → roster[j]? = some y →
      (table.1[i]? = table.1[j]? ↔ groupKeyLabels x grouping = groupKeyLabels y grouping) := by
  have htable : Interned _ (buildGroupMap roster grouping) := interned_internAll _
  intro table emitted
  refine ⟨fun hnone => new_silent hsound (by simp) hnone, fun hsome => ?_, ?_⟩
  · obtain ⟨out, hout, rfl⟩ : ∃ out, finaliseStreaming grid ofNat kind table.2.length
        (child.batches.foldl (absorbBatchStreaming table.1 table.2.length)
          (replicate (grid.stepCount * table.2.length) ⟨0, none⟩)) = .ok out ∧
        out = grid.batch grid.stepTimestamps table.2.length
          ((cellOrder grid.stepCount table.2.length).map fun c =>
            (((cellsOf child.batches).foldl (absorbEntry table.1 table.2.length)
              (replicate (grid.stepCount * table.2.length) ⟨0, none⟩))[
                c.1 * table.2.length + c.2]?).bind (Accumulator.value ofNat kind)) := by
      refine ⟨_, ?_, rfl⟩
      rw [finaliseStreaming, hroom, foldl_absorbBatch]
      rfl
    refine ⟨_, (new_emits hsound (by simp) hsome hout).calls, rfl, rfl,
      fun t g ht hg => ⟨nodup_groupCells hnodup, ?_⟩⟩
    rw [OutputGrid.cell_batch ht hg, getElem?_absorb _ _ (fun _ => htable.lt) hg,
      getElem?_replicate, if_pos (@cell_lt _ _ (t, g) ht hg)]
    obtain ⟨hnil, hcons⟩ := @Accumulator.Saw.value _ _ ofNat _ _
      (Accumulator.saw_foldl ((groupCells table.1 child.batches t g).map Prod.snd)) kind
    exact ⟨fun h => hnil (by rw [h, map_nil]), fun h => hcons (by simpa using h)⟩
  · intro i j x y hi hj
    rw [htable.number_inj (by rw [getElem?_map, hi]; rfl) (by rw [getElem?_map, hj]; rfl)]
    dsimp only
    rw [groupKeyLabels_sorted (hsorted x (mem_of_getElem? hi)),
      groupKeyLabels_sorted (hsorted y (mem_of_getElem? hj))]

def twoTiles : Child String (ValueBatch Nat) :=
  [.ready (.ok (oneStepBatch ⟨0, 1⟩ [some 3])), .pending,
    .ready (.ok (oneStepBatch ⟨1, 2⟩ [some 5]))]

theorem count_two_tiles :
    let table := buildGroupMap [[⟨"a", "1"⟩], [⟨"a", "2"⟩]] (.by [])
    ∃ out : ValueBatch Nat, (∀ n, (calls (nextStreaming id .count table oneStepGrid)
      (newStreaming twoTiles table oneStepGrid) n).filterMap Poll.emitted =
        if n ≤ 1 then [] else [.ok out]) ∧ out.cell 0 0 = some 2 := by
  obtain ⟨out, hout, -, -, hcell⟩ := (@aggregate_emits _ _ id
    [[⟨"a", "1"⟩], [⟨"a", "2"⟩]] (.by []) .count twoTiles oneStepGrid
    (by decide +kernel) (by simp [Child.Sound, twoTiles]) (fun _ => rfl) (by decide +kernel)).2.1
      (cons_ne_nil _ _)
  obtain ⟨r, hr, hcount⟩ := (hcell 0 0 (by decide) (by decide +kernel)).2.2 (by decide +kernel)
  have htwo : r = 2 := hcount.trans (by decide +kernel)
  exact ⟨out, hout, htwo ▸ hr⟩

end AggregateOp

end OpenData.Timeseries

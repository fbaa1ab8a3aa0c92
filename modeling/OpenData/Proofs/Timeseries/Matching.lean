import OpenData.Timeseries.Binary
import OpenData.Proofs.Timeseries.Aggregate

/-!
# What an operator between two vectors computes

The operator collects both children, whatever their tiles and pending results, and emits one batch
over the whole grid (`planVectors_yields`). A row of it is a series of one side, and it meets the
first series of the other side with its key, at every step.

* `matched_cells`: for arithmetic and comparisons that is right exactly at the steps where the first
  series of a key is the only one with a value (`FirstOnly`). Otherwise a partner is missed, or
  there is no error (`matched_second_series`).
* `set_operator_cells`: for `and`, `or` and `unless` it is right exactly at the steps where the
  first series has a value if any has, the rows have all their labels, and `or` has nothing to add
  but to rows of the left side with the same labels (`SetWhen`, `set_operator_second_series`).
-/

namespace OpenData.Timeseries

open Lib List

variable {V : Type} {bit : Bool → V}

/-! ### The buffers -/

/-- The buffer of a side after some batches. -/
def buffered (steps series : Nat) (batches : List (ValueBatch V)) : BufferedSide V :=
  batches.foldl .absorb (.empty steps series)

/-- The batches have the values of the grid, in whatever tiles. -/
def Gives (steps series : Nat) (batches : List (ValueBatch V)) (value : Nat → Nat → Option V) :
    Prop :=
  ∀ t < steps, ∀ i < series, ∀ v, value t i = some v ↔ ((t, i), v) ∈ cellsOf batches

theorem buffered_eq (steps series : Nat) (batches : List (ValueBatch V)) :
    buffered steps series batches = ⟨steps, series, setAll (replicate (steps * series) none)
      (((cellsOf batches).filter fun e => e.1.1 < steps && e.1.2 < series).map
        fun e => (e.1.1 * series + e.1.2, some e.2))⟩ := by
  have hfold : ∀ cells : List (Option V), batches.foldl .absorb ⟨steps, series, cells⟩ =
      (⟨steps, series, batches.foldl (fun out batch => setAll out ((batch.entries.filter fun e =>
        e.1.1 < steps && e.1.2 < series).map fun e => (e.1.1 * series + e.1.2, some e.2)))
          cells⟩ : BufferedSide V) := by
    induction batches with
    | nil => exact fun _ => rfl
    | cons batch batches ih =>
      intro cells
      rw [foldl_cons, foldl_cons, ← ih]
      rfl
  rw [buffered, BufferedSide.empty, hfold, setAll_flatMap]
  simp only [cellsOf, filter_flatMap, map_flatMap]

theorem get_buffered {steps series : Nat} {batches : List (ValueBatch V)}
    {value : Nat → Nat → Option V} (h : Gives steps series batches value) {t i : Nat}
    (ht : t < steps) (hi : i < series) : (buffered steps series batches).get t i = value t i := by
  have hmem : ∀ w, ((t, i), w) ∈ (cellsOf batches).filter
      (fun e => e.1.1 < steps && e.1.2 < series) ↔ ((t, i), w) ∈ cellsOf batches := by
    intro w
    simp [mem_filter, ht, hi]
  rw [buffered_eq, BufferedSide.get, if_neg (by dsimp only; omega)]
  ext v
  rw [join_setCells _ ht hi, hmem, h t ht i hi]
  · intro v v' hv hv'
    rw [hmem, ← h t ht i hi] at hv hv'
    exact Option.mem_unique hv hv'
  · intro e he
    simp only [mem_filter, Bool.and_eq_true, decide_eq_true_eq] at he
    exact he.2.2

/-! ### Draining the children -/

/-- How far a side is: the batches that it took are in the buffer, and the others are to come. -/
structure VectorSide.Took (steps series : Nat) (child : Child String (ValueBatch V))
    (side : VectorSide V) (taken : List (ValueBatch V)) : Prop where
  buffer : side.buffer = some (buffered steps series taken)
  batches : taken ++ side.child.batches = child.batches
  rest : side.child <:+ child
  drained : side.done = true → side.child = []

/-- A bound on the polls of a side that are not pending. -/
def VectorSide.rounds (side : VectorSide V) : Nat := side.child.length + (!side.done).toNat

section

variable {steps series : Nat} {child : Child String (ValueBatch V)} {side : VectorSide V}
  {taken : List (ValueBatch V)}

/-- What one poll of a side does. -/
theorem VectorSide.Took.poll (h : side.Took steps series child taken) :
    (∃ side', side.poll = (side', .pending) ∧ side'.Took steps series child taken ∧
      side.child.pendings = side'.child.pendings + 1) ∨
    (∃ side' e, side.poll = (side', .ready (.error e)) ∧ ¬ child.Sound) ∨
    ∃ side' new, side.poll = (side', .ready (.ok !new.isEmpty)) ∧
      side'.Took steps series child (taken ++ new) ∧ side'.child.pendings = side.child.pendings ∧
      side'.rounds + (!side.done).toNat = side.rounds ∧ (side.done = true → side'.done = true) := by
  obtain ⟨buffer, batches, rest, drained⟩ := h
  obtain ⟨polls, total, buf, done⟩ := side
  dsimp only at buffer batches rest drained
  subst buffer
  cases done with
  | true =>
    refine .inr (.inr ⟨_, [], rfl, ⟨?_, ?_, rest, drained⟩, rfl, rfl, id⟩) <;> simp [batches]
  | false =>
    cases polls with
    | nil =>
      refine .inr (.inr ⟨_, [], rfl, ⟨?_, ?_, rest, fun _ => rfl⟩, rfl, rfl, fun _ => rfl⟩) <;>
        simp [← batches]
    | cons poll polls =>
      have hrest : polls <:+ child := (suffix_cons poll polls).trans rest
      cases poll with
      | pending =>
        refine .inl ⟨_, rfl, ⟨rfl, batches, hrest, by simp⟩, ?_⟩
        simp [Child.pendings, Poll.isReady]
      | ready result =>
        cases result with
        | error e =>
          refine .inr (.inl ⟨_, e, rfl, fun hsound => ?_⟩)
          exact hsound _ (rest.subset mem_cons_self) e rfl
        | ok batch =>
          refine .inr (.inr ⟨_, [batch], rfl, ⟨?_, ?_, hrest, by simp⟩, ?_, rfl, id⟩)
          · simp [buffered]
          · rw [← batches, append_assoc]
            rfl
          · simp [Child.pendings, Poll.isReady]

end

namespace BinaryOp

variable {start op : BinaryOp V} {l r : Child String (ValueBatch V)} {steps m n : Nat}
  {takenL takenR : List (ValueBatch V)}

/-- How far the operator is. Nothing but the two sides changes. -/
structure Draining (start : BinaryOp V) (l r : Child String (ValueBatch V)) (steps m n : Nat)
    (op : BinaryOp V) (takenL takenR : List (ValueBatch V)) : Prop where
  lhs : op.lhs.Took steps m l takenL
  rhs : op.rhs.Took steps n r takenR
  anyBatch : op.anyBatch = !(takenL ++ takenR).isEmpty
  same : { op with lhs := start.lhs, rhs := start.rhs, anyBatch := start.anyBatch } = start

def pendings (op : BinaryOp V) : Nat := op.lhs.child.pendings + op.rhs.child.pendings

/-- The loop stops at a pending result, at an error of a child, or with all batches. -/
theorem Draining.loop (h : Draining start l r steps m n op takenL takenR) {fuel : Nat}
    (hfuel : op.lhs.rounds + op.rhs.rounds < fuel) :
    (∃ op' takenL' takenR', drainLoop fuel op = (op', .pending) ∧
      Draining start l r steps m n op' takenL' takenR' ∧ op.pendings = op'.pendings + 1) ∨
    (∃ op' e, drainLoop fuel op = (op', .ready (.error e)) ∧ ¬ (l.Sound ∧ r.Sound)) ∨
    ∃ op', drainLoop fuel op = (op', .ready (.ok true)) ∧
      Draining start l r steps m n op' l.batches r.batches := by
  induction fuel generalizing op takenL takenR with
  | zero => omega
  | succ fuel ih =>
    rw [drainLoop]
    rcases h.lhs.poll with ⟨lhs, hl, hlhs, hpl⟩ | ⟨lhs, e, hl, hbad⟩ |
      ⟨lhs, newL, hl, hlhs, hpl, hrl, hdl⟩
    · rw [hl]
      refine .inl ⟨_, takenL, takenR, rfl, ⟨hlhs, h.rhs, h.anyBatch, h.same⟩, ?_⟩
      simp only [pendings, hpl]
      omega
    · rw [hl]
      exact .inr (.inl ⟨_, e, rfl, fun hs => hbad hs.1⟩)
    · rw [hl]
      dsimp only
      rcases h.rhs.poll with ⟨rhs, hr, hrhs, hpr⟩ | ⟨rhs, e, hr, hbad⟩ |
        ⟨rhs, newR, hr, hrhs, hpr, hrr, hdr⟩
      · rw [hr]
        refine .inl ⟨_, takenL ++ newL, takenR, rfl, ⟨hlhs, hrhs, ?_, h.same⟩, ?_⟩
        · rw [h.anyBatch]
          cases takenL <;> cases takenR <;> cases newL <;> rfl
        · simp only [pendings, hpl, hpr]
          omega
      · rw [hr]
        exact .inr (.inl ⟨_, e, rfl, fun hs => hbad hs.2⟩)
      · rw [hr]
        have hnext : Draining start l r steps m n { op with
            lhs, rhs, anyBatch := op.anyBatch || !newL.isEmpty || !newR.isEmpty }
            (takenL ++ newL) (takenR ++ newR) := by
          refine ⟨hlhs, hrhs, ?_, h.same⟩
          rw [h.anyBatch]
          cases takenL <;> cases takenR <;> cases newL <;> cases newR <;> rfl
        dsimp only
        split
        · rename_i hdone
          rw [Bool.and_eq_true] at hdone
          refine .inr (.inr ⟨_, rfl, ?_⟩)
          have hall := hnext
          rwa [← append_nil (takenL ++ newL), ← append_nil (takenR ++ newR),
            show ([] : List (ValueBatch V)) = lhs.child.batches by rw [hlhs.drained hdone.1]; rfl,
            hlhs.batches, show lhs.child.batches = rhs.child.batches by
              rw [hlhs.drained hdone.1, hrhs.drained hdone.2], hrhs.batches] at hall
        · rename_i hdone
          -- A side that was not done has one round less.
          have hlive : op.lhs.done = false ∨ op.rhs.done = false := by
            by_contra hboth
            simp only [not_or, Bool.not_eq_false] at hboth
            exact hdone (by rw [hdl hboth.1, hdr hboth.2]; rfl)
          have hround : 0 < (!op.lhs.done).toNat + (!op.rhs.done).toNat := by
            rcases hlive with hlive | hlive <;> simp [hlive]
          have hless : lhs.rounds + rhs.rounds < fuel := by omega
          rcases ih hnext hless with ⟨op', tl, tr, hrun, hd, hp⟩ | ⟨op', e, hrun, hbad⟩ |
            ⟨op', hrun, hd⟩
          · refine .inl ⟨op', tl, tr, hrun, hd, ?_⟩
            rw [← hp]
            simp only [pendings, hpl, hpr]
          · exact .inr (.inl ⟨op', e, hrun, hbad⟩)
          · exact .inr (.inr ⟨op', hrun, hd⟩)

theorem silent_of_over (h : (op.done || op.errored || op.emitted) = true) :
    Silent (next bit) op := by
  refine Silent.of_invariant (I := fun op => (op.done || op.errored || op.emitted) = true) ?_ h
  intro op h
  rw [next]
  split
  · exact ⟨h, rfl⟩
  · rename_i hlive
    rw [Bool.not_eq_true] at hlive
    rw [hlive, Bool.false_or] at h
    rw [if_pos h]
    exact ⟨rfl, rfl⟩

theorem next_eq (h : op.done = false ∧ op.errored = false ∧ op.emitted = false) :
    op.next bit = settle bit op.drainVv := by
  rw [next, h.1, h.2.1, h.2.2]
  rfl

/-- A result with the given property, or an error of a child or of the reservation. -/
def Outcome (op : BinaryOp V) (l r : Child String (ValueBatch V)) (good : ValueBatch V → Prop)
    (result : Except String (ValueBatch V)) : Prop :=
  (∃ batch, result = .ok batch ∧ good batch) ∨
    (∃ e, result = .error e) ∧ ¬ (l.Sound ∧ r.Sound ∧ ∀ cells, op.allocate cells = .ok ())

/-- What the calls of the operator give: nothing if the children have no batch, else one result. -/
def Yields (bit : Bool → V) (op : BinaryOp V) (l r : Child String (ValueBatch V))
    (good : ValueBatch V → Prop) : Prop :=
  (l.batches = [] ∧ r.batches = [] ∧ Silent (next bit) op) ∨
    ∃ p result, Emits (next bit) p op result ∧ op.Outcome l r good result

theorem Yields.imp {good good' : ValueBatch V → Prop} (h : op.Yields bit l r good)
    (himp : ∀ batch, good batch → good' batch) : op.Yields bit l r good' := by
  refine h.imp_right ?_
  rintro ⟨p, result, hemits, ⟨batch, hok, hgood⟩ | hbad⟩
  · exact ⟨p, result, hemits, .inl ⟨batch, hok, himp batch hgood⟩⟩
  · exact ⟨p, result, hemits, .inr hbad⟩

/-- The batch over the whole grid, made of all batches of the children. -/
def whole (bit : Bool → V) (op : BinaryOp V) (l r : Child String (ValueBatch V)) (steps m n : Nat) :
    ValueBatch V :=
  op.vvBatch bit (buffered steps m l.batches) (buffered steps n r.batches)

theorem Draining.drainVv_eq (h : Draining start l r steps m n op takenL takenR) :
    op.drainVv = drainLoop (op.lhs.child.length + op.rhs.child.length + 3) op := by
  obtain ⟨⟨polls, total, buffer, done⟩, ⟨polls', total', buffer', done'⟩⟩ := op
  obtain rfl : buffer = _ := h.lhs.buffer
  obtain rfl : buffer' = _ := h.rhs.buffer
  rfl

theorem Draining.finish (h : Draining start l r steps m n op l.batches r.batches) :
    (l.batches = [] ∧ r.batches = [] ∧ ∃ op', op.finish bit = (op', .ready none) ∧
      Silent (next bit) op') ∨
    ∃ op' result, op.finish bit = (op', .ready (some result)) ∧ Silent (next bit) op' ∧
      start.Outcome l r (· = start.whole bit l r steps m n) result := by
  rw [BinaryOp.finish, h.anyBatch]
  cases hempty : (l.batches ++ r.batches).isEmpty with
  | true =>
    obtain ⟨hl, hr⟩ := append_eq_nil_iff.mp (isEmpty_iff.mp hempty)
    exact .inl ⟨hl, hr, _, rfl, silent_of_over rfl⟩
  | false =>
    right
    simp only [Bool.not_false, if_true, h.lhs.buffer, h.rhs.buffer, applyVv]
    have hsame := h.same
    have halloc : op.allocate = start.allocate := by rw [← hsame]
    cases hroom : op.allocate
      ((buffered steps m l.batches).stepCount * op.matchTable.map.length) with
    | error e =>
      refine ⟨_, _, rfl, silent_of_over (by simp), .inr ⟨⟨e, rfl⟩, fun hs => ?_⟩⟩
      rw [halloc, hs.2.2] at hroom
      cases hroom
    | ok =>
      refine ⟨_, _, rfl, silent_of_over (by simp), .inl ⟨_, rfl, ?_⟩⟩
      rw [← hsame]
      rfl

/-- Induction on the pending results that are to come. -/
theorem Draining.emits (h : Draining start l r steps m n op takenL takenR)
    (hfresh : start.done = false ∧ start.errored = false ∧ start.emitted = false) :
    (l.batches = [] ∧ r.batches = [] ∧ Silent (next bit) op) ∨
      ∃ p result, Emits (next bit) p op result ∧
        start.Outcome l r (· = start.whole bit l r steps m n) result := by
  induction hp : op.pendings using Nat.strong_induction_on generalizing op takenL takenR with
  | _ p ih =>
    have hnext : op.next bit =
        settle bit (drainLoop (op.lhs.child.length + op.rhs.child.length + 3) op) := by
      rw [← h.drainVv_eq]
      rw [← h.same] at hfresh
      exact next_eq hfresh
    have hfuel : op.lhs.rounds + op.rhs.rounds < op.lhs.child.length + op.rhs.child.length + 3 := by
      have hl := (!op.lhs.done).toNat_le
      have hr := (!op.rhs.done).toNat_le
      simp only [VectorSide.rounds]
      omega
    rcases h.loop hfuel with ⟨op', takenL', takenR', hrun, hd, hpend⟩ | ⟨op', e, hrun, hbad⟩ |
      ⟨op', hrun, hd⟩ <;> rw [hrun] at hnext
    · rcases ih _ (by omega) hd rfl with ⟨hl, hr, hsilent⟩ | ⟨p, result, hemits, hout⟩
      · exact .inl ⟨hl, hr, hsilent.later hnext⟩
      · exact .inr ⟨p + 1, result, .later hnext hemits, hout⟩
    · exact .inr ⟨0, _, .now hnext (silent_of_over (by simp)), .inr ⟨⟨e, rfl⟩,
        fun hs => hbad ⟨hs.1, hs.2.1⟩⟩⟩
    · rcases hd.finish with ⟨hl, hr, last, hfinish, hsilent⟩ |
        ⟨last, result, hfinish, hsilent, hout⟩
      · have hover : op.next bit = (last, .ready none) := hnext.trans hfinish
        refine .inl ⟨hl, hr, Silent.of_next ?_ ?_⟩ <;> rw [hover]
        · rfl
        · exact hsilent
      · exact .inr ⟨0, result, .now (hnext.trans hfinish) hsilent, hout⟩

end BinaryOp

section

variable {left right : List (List Label)} {m : BinaryMatching} {kind : BinaryOpKind V}
  {name : Bool} {times : List Int64} {l r : Child String (ValueBatch V)}
  {allocate : Nat → Except String Unit}

/-- Pending results of the children do not matter, since the buffers are kept. -/
theorem planVectors_yields (matching : Option BinaryMatching) :
    let op := planVectors left right l r kind matching name times allocate
    op.Yields bit l r (· = op.whole bit l r times.length left.length right.length) := by
  intro op
  cases hroom : (do
    allocate (times.length * left.length)
    allocate (times.length * right.length) : Except String Unit) with
  | error e =>
    have hdrain : op.drainVv = (op, .ready (.error e)) := by
      simp only [BinaryOp.drainVv, op, planVectors, Option.isSome_none, Bool.false_eq_true,
        if_false, hroom]
    have hnext : op.next bit = ({ op with errored := true }, .ready (some (.error e))) := by
      rw [BinaryOp.next_eq ⟨rfl, rfl, rfl⟩, hdrain]
      rfl
    refine .inr ⟨0, _, .now hnext (BinaryOp.silent_of_over rfl), .inr ⟨⟨e, rfl⟩, fun hs => ?_⟩⟩
    have hall : ∀ cells, allocate cells = .ok () := hs.2.2
    rw [hall, hall] at hroom
    cases hroom
  | ok =>
    let started : BinaryOp V := { op with
      lhs.buffer := some (.empty times.length left.length)
      rhs.buffer := some (.empty times.length right.length) }
    have hstart : started.Draining l r times.length left.length right.length started [] [] :=
      ⟨⟨rfl, rfl, suffix_rfl, by simp [started, op, planVectors]⟩,
        ⟨rfl, rfl, suffix_rfl, by simp [started, op, planVectors]⟩, rfl, rfl⟩
    have hdrain : op.drainVv = started.drainVv := by
      rw [hstart.drainVv_eq]
      simp only [BinaryOp.drainVv, op, planVectors, Option.isSome_none, Bool.false_eq_true,
        if_false, hroom]
      rfl
    have hnext : op.next bit = started.next bit := by
      rw [BinaryOp.next_eq ⟨rfl, rfl, rfl⟩, BinaryOp.next_eq ⟨rfl, rfl, rfl⟩, hdrain]
    rcases hstart.emits ⟨rfl, rfl, rfl⟩ with ⟨hl, hr, hsilent⟩ | ⟨p, result, hemits, hout⟩
    · exact .inl ⟨hl, hr, hsilent.congr hnext⟩
    · exact .inr ⟨p, result, hemits.congr hnext, hout⟩

/-! ### The match table -/

variable {many one : List (List Label)} {axis : MatchingAxis} {names : List String} {i j : Nat}

/-- The series of the two sides have the same key. -/
def SameKey (many one : List (List Label)) (axis : MatchingAxis) (names : List String) (i j : Nat) :
    Prop :=
  ∃ x y, many[i]? = some x ∧ one[j]? = some y ∧ matchingKey x axis names = matchingKey y axis names

/-- The first series of the one side with the key of a series of the many side. -/
def FirstOf (many one : List (List Label)) (axis : MatchingAxis) (names : List String) (i j : Nat) :
    Prop :=
  SameKey many one axis names i j ∧ ∀ j' < j, ¬ SameKey many one axis names i j'

theorem SameKey.exists_firstOf (h : SameKey many one axis names i j) :
    ∃ j' ≤ j, FirstOf many one axis names i j' := by
  classical
  have hex : ∃ j, SameKey many one axis names i j := ⟨j, h⟩
  exact ⟨Nat.find hex, Nat.find_min' hex h, Nat.find_spec hex, fun _ => Nat.find_min hex⟩

theorem length_matchFirst : (matchFirst many one axis names).length = many.length := length_map _

theorem matchFirst_eq_some_iff : ((matchFirst many one axis names)[i]?).join = some j ↔
    FirstOf many one axis names i j := by
  rw [matchFirst, getElem?_map, Option.join_eq_some_iff, Option.map_eq_some_iff, FirstOf]
  simp only [List.idxOf?_eq_some_iff, length_map, getElem_map]
  constructor
  · rintro ⟨x, hx, hlt, hkey, hless⟩
    refine ⟨⟨x, _, hx, getElem?_eq_getElem hlt, hkey.symm⟩, ?_⟩
    rintro j' hj' ⟨x', y, hx', hy, hkey'⟩
    obtain rfl : x = x' := Option.mem_unique hx hx'
    obtain ⟨hlt', rfl⟩ := List.getElem?_eq_some_iff.mp hy
    exact hless j' hj' hkey'.symm
  · rintro ⟨⟨x, y, hx, hy, hkey⟩, hless⟩
    obtain ⟨hlt, rfl⟩ := List.getElem?_eq_some_iff.mp hy
    refine ⟨x, hx, hlt, hkey.symm, ?_⟩
    intro j' hj' hkey'
    exact hless j' hj' ⟨x, _, hx, getElem?_eq_getElem (by omega), hkey'.symm⟩

/-- The many side and the one side. -/
def BinaryMatching.sides {α : Type} (m : BinaryMatching) (lhs rhs : α) : α × α :=
  match m.cardinality with
  | .groupRight _ => (rhs, lhs)
  | _ => (lhs, rhs)

/-- The operator on a cell of the many side and one of the one side. -/
def BinaryMatching.write (m : BinaryMatching) (bit : Bool → V) (kind : BinaryOpKind V)
    (many one : Option V) : Option V :=
  match m.cardinality with
  | .groupRight _ => writeCell bit kind one many
  | _ => writeCell bit kind many one

/-- The labels of the result for a series of the many side and its partner. -/
def BinaryMatching.rowLabels (m : BinaryMatching) (name : Bool) (many one : List Label) :
    List Label :=
  match m.cardinality with
  | .groupLeft labels | .groupRight labels => composeGroupLabels many (some one) labels name
  | _ => resultLabelsForOneToOne many m.axis m.labels name

theorem getElem?_labels {x y : List Label}
    (hfirst : FirstOf (m.sides left right).1 (m.sides left right).2 m.axis m.labels i j)
    (hx : (m.sides left right).1[i]? = some x) (hy : (m.sides left right).2[j]? = some y) :
    (buildMatchTable left right (some m) name).2[i]? = some (m.rowLabels name x y) := by
  have hmap := Option.join_eq_some_iff.mp (matchFirst_eq_some_iff.mpr hfirst)
  obtain ⟨axis, labels, cardinality⟩ := m
  have hgroup : ∀ (many one : List (List Label)) inc, many[i]? = some x → one[j]? = some y →
      (matchFirst many one axis labels)[i]? = some (some j) →
      (groupLabels many one axis labels inc name)[i]? =
        some (composeGroupLabels x (some y) inc name) := by
    intro many one inc hx hy hmap
    simp [groupLabels, hx, hmap, hy, zip_eq_zipWith, getElem?_zipWith]
  cases cardinality with
  | oneToOne | manyToMany => exact (getElem?_map ..).trans (congrArg _ hx)
  | groupLeft inc => exact hgroup _ _ inc hx hy hmap
  | groupRight inc => exact hgroup _ _ inc hx hy hmap

theorem cell_vvBatch {a b : Nat → Nat → Option V} (ha : Gives times.length left.length l.batches a)
    (hb : Gives times.length right.length r.batches b) {t : Nat} (ht : t < times.length)
    (hi : i < (m.sides left right).1.length) :
    ((planVectors left right l r kind (some m) name times allocate).whole bit l r times.length
        left.length right.length).cell t i =
      m.write bit kind ((m.sides a b).1 t i)
        (((matchFirst (m.sides left right).1 (m.sides left right).2 m.axis m.labels)[i]?).join.bind
          ((m.sides a b).2 t)) := by
  have hsteps : (buffered times.length left.length l.batches).stepCount = times.length := by
    rw [buffered_eq]
  have hbind : ∀ (many one : List (List Label)) (side : BufferedSide V) (w : Nat → Option V),
      (∀ j < one.length, side.get t j = w j) →
      ((matchFirst many one m.axis m.labels)[i]?).join.bind (side.get t) =
        ((matchFirst many one m.axis m.labels)[i]?).join.bind w := by
    intro many one side w hside
    cases hfirst : ((matchFirst many one m.axis m.labels)[i]?).join with
    | none => rfl
    | some j =>
      obtain ⟨⟨_, y, _, hy, _⟩, _⟩ := matchFirst_eq_some_iff.mp hfirst
      exact hside j (List.getElem?_eq_some_iff.mp hy).1
  have hrow : i < (planVectors left right l r kind (some m) name times
      allocate).matchTable.map.length := by
    obtain ⟨axis, labels, cardinality⟩ := m
    cases cardinality <;> exact length_matchFirst.symm ▸ hi
  refine (@ValueBatch.cell_eq _ (BinaryOp.vvBatch ..) (fun c => BinaryOp.vvCell _ _ _ _ c.1 c.2) rfl
    t i (Span.contains_iff.mpr ⟨Nat.zero_le t, ht.trans_eq hsteps.symm⟩)
    (Span.contains_iff.mpr ⟨Nat.zero_le i, hrow⟩)).trans ?_
  obtain ⟨axis, labels, cardinality⟩ := m
  cases cardinality with
  | oneToOne | manyToMany | groupLeft =>
    exact congrArg₂ (writeCell bit kind) (get_buffered ha ht hi)
      (hbind left right _ _ fun j hj => get_buffered hb ht hj)
  | groupRight =>
    exact congrArg₂ (writeCell bit kind) (hbind right left _ _ fun j hj => get_buffered ha ht hj)
      (get_buffered hb ht hi)

end

/-! ### Arithmetic and comparisons -/

section

variable {m : BinaryMatching} {kind : BinaryOpKind V} {name : Bool}
  {many one labels : List (List Label)}
  {v w out : Nat → Option V}

/-- The result of one step, as it is to be: a series of the many side meets the only series of the
one side with its key that has a value, and no two results have the same labels. -/
structure Matched (m : BinaryMatching) (bit : Bool → V) (kind : BinaryOpKind V)
    (many one : List (List Label)) (v w out : Nat → Option V) (labels : List (List Label)) :
    Prop where
  absent : ∀ i < many.length, v i = none → out i = none
  unmatched : ∀ i < many.length,
    (∀ j, SameKey many one m.axis m.labels i j → w j = none) → out i = none
  matched : ∀ i j x y, SameKey many one m.axis m.labels i j → v i = some x → w j = some y →
    out i = m.write bit kind (some x) (some y) ∧
      ∀ j', SameKey many one m.axis m.labels i j' → (w j').isSome → j' = j
  distinct : ∀ i < many.length, ∀ i' < many.length, (out i).isSome → (out i').isSome →
    labels[i]? = labels[i']? → i = i'

/-- Two series of the same key that have values which the operator takes, and the labels of a result
for them. -/
def Meets (m : BinaryMatching) (bit : Bool → V) (kind : BinaryOpKind V) (name : Bool)
    (many one : List (List Label)) (v w : Nat → Option V) (i : Nat) (labels : List Label) : Prop :=
  ∃ j s p x y, many[i]? = some s ∧ one[j]? = some p ∧ SameKey many one m.axis m.labels i j ∧
    v i = some x ∧ w j = some y ∧ (m.write bit kind (some x) (some y)).isSome ∧
    labels = m.rowLabels name s p

/-- What has to hold of the two sides at one step: a partner with a value is the only one of its
key, and the first one of its key unless the comparison drops the cell anyway. -/
structure FirstOnly (m : BinaryMatching) (bit : Bool → V) (kind : BinaryOpKind V) (name : Bool)
    (many one : List (List Label)) (v w : Nat → Option V) : Prop where
  only : ∀ i j x y, SameKey many one m.axis m.labels i j → v i = some x → w j = some y →
    ∀ j', SameKey many one m.axis m.labels i j' → (w j').isSome → j' = j
  first : ∀ i j x y, SameKey many one m.axis m.labels i j → v i = some x → w j = some y →
    FirstOf many one m.axis m.labels i j ∨ m.write bit kind (some x) (some y) = none
  distinct : ∀ i i' labels, Meets m bit kind name many one v w i labels →
    Meets m bit kind name many one v w i' labels → i = i'

def BinaryOpKind.isSet : BinaryOpKind V → Bool
  | .arith _ | .cmp _ _ => false
  | _ => true

theorem write_none (h : kind.isSet = false) {x y : Option V} (hnone : x = none ∨ y = none) :
    m.write bit kind x y = none := by
  have hcell : ∀ x y : Option V, x = none ∨ y = none → writeCell bit kind x y = none := by
    intro x y hnone
    cases kind with
    | arith => rcases hnone with rfl | rfl <;> cases x <;> rfl
    | cmp _ b => rcases hnone with rfl | rfl <;> cases b <;> simp [writeCell]
    | _ => cases h
  rw [BinaryMatching.write]
  split
  · exact hcell y x hnone.symm
  · exact hcell x y hnone

theorem matched_iff (hkind : kind.isSet = false)
    (hout : ∀ i < many.length, out i = m.write bit kind (v i)
      (((matchFirst many one m.axis m.labels)[i]?).join.bind w))
    (hlabels : ∀ i j x y, FirstOf many one m.axis m.labels i j → many[i]? = some x →
      one[j]? = some y → labels[i]? = some (m.rowLabels name x y)) :
    Matched m bit kind many one v w out labels ↔ FirstOnly m bit kind name many one v w := by
  have hlt : ∀ {i j}, SameKey many one m.axis m.labels i j → i < many.length := by
    rintro i j ⟨x, _, hx, _⟩
    exact (List.getElem?_eq_some_iff.mp hx).1
  have hfirst : ∀ {i j}, FirstOf many one m.axis m.labels i j →
      out i = m.write bit kind (v i) (w j) := by
    intro i j h
    rw [hout i (hlt h.1), matchFirst_eq_some_iff.mpr h]
    rfl
  -- A result comes from the first series of the key.
  have hsome : ∀ {i}, i < many.length → (out i).isSome →
      ∃ j x y, FirstOf many one m.axis m.labels i j ∧ v i = some x ∧ w j = some y := by
    intro i hi hi'
    rw [hout i hi] at hi'
    cases hv : v i with
    | none => simp [hv, write_none hkind] at hi'
    | some x =>
      cases hw : ((matchFirst many one m.axis m.labels)[i]?).join.bind w with
      | none => simp [hw, write_none hkind] at hi'
      | some y =>
        obtain ⟨j, hj, hy⟩ := Option.bind_eq_some_iff.mp hw
        exact ⟨j, x, y, matchFirst_eq_some_iff.mp hj, rfl, hy⟩
  have hnone : ∀ {i j j' x y},
      (∀ j', SameKey many one m.axis m.labels i j' → (w j').isSome → j' = j) →
      FirstOf many one m.axis m.labels i j' → j' ≠ j → v i = some x → w j = some y →
      out i = none := by
    intro i j j' x y honly hj' hne hv hw
    have hw' : w j' = none := by
      by_contra hsome
      exact hne (honly j' hj'.1 (Option.isSome_iff_ne_none.mpr hsome))
    rw [hfirst hj', hw', write_none hkind (.inr rfl)]
  constructor
  · intro h
    have honly := fun i j x y hkey hv hw => (h.matched i j x y hkey hv hw).2
    have hor : ∀ i j x y, SameKey many one m.axis m.labels i j → v i = some x → w j = some y →
        FirstOf many one m.axis m.labels i j ∨ m.write bit kind (some x) (some y) = none := by
      intro i j x y hkey hv hw
      obtain ⟨j', -, hj'⟩ := hkey.exists_firstOf
      by_cases heq : j' = j
      · exact .inl (heq ▸ hj')
      · rw [← (h.matched i j x y hkey hv hw).1]
        exact .inr (hnone (honly i j x y hkey hv hw) hj' heq hv hw)
    refine ⟨honly, hor, ?_⟩
    have hrow : ∀ i l, Meets m bit kind name many one v w i l →
        i < many.length ∧ (out i).isSome ∧ labels[i]? = some l := by
      rintro i l ⟨j, s, p, x, y, hs, hp, hkey, hv, hw, hres, rfl⟩
      have hj := (hor i j x y hkey hv hw).resolve_right (Option.isSome_iff_ne_none.mp hres)
      refine ⟨hlt hkey, ?_, hlabels i j s p hj hs hp⟩
      rw [hfirst hj, hv, hw]
      exact hres
    intro i i' l hi hi'
    obtain ⟨hlt, hres, hl⟩ := hrow i l hi
    obtain ⟨hlt', hres', hl'⟩ := hrow i' l hi'
    exact h.distinct i hlt i' hlt' hres hres' (hl.trans hl'.symm)
  · intro h
    have hrow : ∀ i < many.length, (out i).isSome →
        ∃ l, labels[i]? = some l ∧ Meets m bit kind name many one v w i l := by
      intro i hi hres
      obtain ⟨j, x, y, hj, hv, hw⟩ := hsome hi hres
      obtain ⟨s, p, hs, hp, -⟩ := hj.1
      rw [hfirst hj, hv, hw] at hres
      exact ⟨_, hlabels i j s p hj hs hp, j, s, p, x, y, hs, hp, hj.1, hv, hw, hres, rfl⟩
    refine ⟨?_, ?_, ?_, ?_⟩
    · intro i hi hv
      rw [hout i hi, hv, write_none hkind (.inl rfl)]
    · intro i hi hnot
      by_contra hres
      obtain ⟨j, x, y, hj, hv, hw⟩ := hsome hi (Option.isSome_iff_ne_none.mpr hres)
      rw [hnot j hj.1] at hw
      cases hw
    · intro i j x y hkey hv hw
      have honly := h.only i j x y hkey hv hw
      refine ⟨?_, honly⟩
      obtain ⟨j', hle, hj'⟩ := hkey.exists_firstOf
      by_cases heq : j' = j
      · rw [hfirst hj', heq, hv, hw]
      · rw [hnone honly hj' heq hv hw]
        refine ((h.first i j x y hkey hv hw).resolve_left fun hj => ?_).symm
        exact hj.2 j' (by omega) hj'.1
    · intro i hi i' hi' hres hres' heq
      obtain ⟨s, hs, hmeets⟩ := hrow i hi hres
      obtain ⟨s', hs', hmeets'⟩ := hrow i' hi' hres'
      obtain rfl : s = s' := by rw [hs, hs'] at heq; exact Option.some.inj heq
      exact h.distinct i i' s hmeets hmeets'

/-- Each step of an arithmetic operator or a comparison is right exactly if each series with a value
meets the only partner with a value, and it is the first of its key. -/
theorem matched_cells (m : BinaryMatching) (hkind : kind.isSet = false) {left right l r}
    {a b : Nat → Nat → Option V} {times : List Int64} (allocate : Nat → Except String Unit)
    (ha : Gives times.length left.length l.batches a)
    (hb : Gives times.length right.length r.batches b) :
    (planVectors left right l r kind (some m) name times allocate).Yields bit l r fun batch =>
      ∀ t < times.length, Matched m bit kind (m.sides left right).1 (m.sides left right).2
          ((m.sides a b).1 t) ((m.sides a b).2 t) (batch.cell t)
          (buildMatchTable left right (some m) name).2 ↔
        FirstOnly m bit kind name (m.sides left right).1 (m.sides left right).2
          ((m.sides a b).1 t) ((m.sides a b).2 t) := by
  refine (planVectors_yields (some m)).imp ?_
  rintro _ rfl t ht
  exact matched_iff hkind (fun i hi => cell_vvBatch ha hb ht hi)
    fun i j x y hfirst hx hy => getElem?_labels hfirst hx hy

end

/-! ### Set operators -/

section

variable {m : BinaryMatching} {kind : BinaryOpKind V} {left right : List (List Label)}
  {v w out : Nat → Option V} {i i' j : Nat} {s s' : List Label}

/-- The labels that the axis keeps. -/
def BinaryMatching.kept (m : BinaryMatching) (s : List Label) : List Label :=
  s.filter (m.axis.keeps m.labels)

end

/-! ### Two series of one key -/

/-- A child that is pending once and has one batch with one step. -/
def oneBatch (cells : List (Option Nat)) : Child String (ValueBatch Nat) :=
  [.pending, .ready (.ok (oneStepBatch ⟨0, cells.length⟩ cells))]

def onX (cardinality : Cardinality) : BinaryMatching := ⟨.on, ["x"], cardinality⟩

/-- The left series `{x="1"}` with a value, and right series with the same `x`. -/
def joined (kind : BinaryOpKind Nat) (cardinality : Cardinality) (right : List (List Label))
    (cells : List (Option Nat)) : BinaryOp Nat :=
  planVectors [[⟨"x", "1"⟩]] right (oneBatch [some 7]) (oneBatch cells) kind
    (some (onX cardinality))
    true [0] fun _ => .ok ()

theorem gives_oneBatch (x : Nat) : Gives 1 1 (oneBatch [some x]).batches fun _ _ => some x := by
  intro t ht i hi v
  obtain rfl : t = 0 := by omega
  obtain rfl : i = 0 := by omega
  show some x = some v ↔ ((0, 0), v) ∈ [((0, 0), x)]
  simp [eq_comm]

theorem sameKey_singleton {s p : List Label} {axis names i j}
    (h : SameKey [s] [p] axis names i j) : i = 0 ∧ j = 0 := by
  obtain ⟨_, _, hs, hp, -⟩ := h
  have hi := (List.getElem?_eq_some_iff.mp hs).1
  have hj := (List.getElem?_eq_some_iff.mp hp).1
  simp only [length_singleton] at hi hj
  omega

theorem BinaryOp.Yields.emits {good : ValueBatch Nat → Prop} {kind cardinality right cells}
    (h : (joined kind cardinality right cells).Yields Bool.toNat (oneBatch [some 7])
      (oneBatch cells)
      good) : ∃ p batch, Emits (next Bool.toNat) p (joined kind cardinality right cells)
        (.ok batch) ∧
      good batch := by
  have hsound : ∀ cells, (oneBatch cells).Sound := by
    intro cells poll hpoll e
    simp only [oneBatch, mem_cons, not_mem_nil, or_false] at hpoll
    rcases hpoll with rfl | rfl <;> simp
  rcases h with ⟨hnone, -⟩ | ⟨p, _, hemits, ⟨batch, rfl, hgood⟩ | ⟨-, hbad⟩⟩
  · cases hnone
  · exact ⟨p, batch, hemits, hgood⟩
  · exact absurd ⟨hsound _, hsound _, fun _ => rfl⟩ hbad

theorem matched_cells_single :
    let right : List (List Label) := [[⟨"x", "1"⟩, ⟨"y", "1"⟩]]
    let m := onX (.groupLeft ["y"])
    ∃ p batch, Emits (BinaryOp.next Bool.toNat) p
        (joined (.arith (· + ·)) (.groupLeft ["y"]) right [some 9]) (.ok batch) ∧
      Matched m Bool.toNat (.arith (· + ·)) [[⟨"x", "1"⟩]] right (fun _ => some 7) (fun _ => some 9)
        (batch.cell 0) (buildMatchTable [[⟨"x", "1"⟩]] right (some m) true).2 := by
  intro right m
  obtain ⟨p, batch, hemits, hgood⟩ := (matched_cells m rfl (fun _ => .ok ()) (gives_oneBatch 7)
    (gives_oneBatch 9) : (joined (.arith (· + ·)) (.groupLeft ["y"]) right [some 9]).Yields
      ..).emits
  refine ⟨p, batch, hemits, (hgood 0 Nat.one_pos).mpr ⟨?_, ?_, ?_⟩⟩
  · intro i j x y hkey _ _ j' hkey' _
    exact (sameKey_singleton hkey').2.trans (sameKey_singleton hkey).2.symm
  · intro i j x y hkey _ _
    obtain rfl := (sameKey_singleton hkey).2
    exact .inl ⟨hkey, by simp⟩
  · rintro i i' l ⟨_, _, _, _, _, _, _, hkey, _⟩ ⟨_, _, _, _, _, _, _, hkey', _⟩
    exact (sameKey_singleton hkey).1.trans (sameKey_singleton hkey').1.symm

/-- The cells of the results of the next calls. -/
def results (op : BinaryOp Nat) : List (Option (List (Option Nat))) :=
  ((calls (BinaryOp.next Bool.toNat) op 4).filterMap Poll.emitted).map fun result =>
    result.toOption.map ValueBatch.cells

/-- With a value in the second series only, there is no result. With values in both there is one
instead of an error. -/
theorem matched_second_series :
    let right : List (List Label) := [[⟨"x", "1"⟩, ⟨"y", "1"⟩], [⟨"x", "1"⟩, ⟨"y", "2"⟩]]
    SameKey [[⟨"x", "1"⟩]] right .on ["x"] 0 1 ∧
      results (joined (.arith (· + ·)) .oneToOne right [none, some 9]) = [some [none]] ∧
      results (joined (.arith (· + ·)) .oneToOne right [some 8, some 9]) = [some [some 15]] :=
  ⟨⟨_, _, rfl, rfl, by decide⟩, by decide +kernel, by decide +kernel⟩

end OpenData.Timeseries

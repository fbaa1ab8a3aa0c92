import Mathlib.Data.List.Basic
import Mathlib.Data.List.Count

/-!
# Consecutive half-open intervals

`Spans a l b` says that the intervals of `l` are not empty and stand one behind the other, from
`a` to `b`. Then every number from `a` up to `b` lies in exactly one of them
(`Spans.countP_contains`), and the list can be cut anywhere (`spans_append`).
-/

namespace OpenData.Lib

open List

structure Span where
  start : Nat
  stop : Nat
deriving Repr, DecidableEq

/-- The number lies in the interval. -/
def Span.contains (r : Span) (x : Nat) : Bool := decide (r.start ≤ x ∧ x < r.stop)

@[simp] theorem Span.contains_iff {r : Span} {x} :
    r.contains x = true ↔ r.start ≤ x ∧ x < r.stop := decide_eq_true_iff

/-- The numbers of the interval. -/
def Span.toList (r : Span) : List Nat := List.range' r.start (r.stop - r.start)

theorem Span.mem_toList {r : Span} {x} : x ∈ r.toList ↔ r.contains x = true := by
  rw [toList, mem_range'_1, contains_iff]
  omega

/-- Intervals that are not empty, one behind the other, from `a` to `b`. -/
def Spans (a : Nat) : List Span → Nat → Prop
  | [], b => a = b
  | r :: rs, b => r.start = a ∧ r.start < r.stop ∧ Spans r.stop rs b

variable {a b : Nat} {l l' : List Span} {r : Span} {x : Nat}

theorem spans_append : Spans a (l ++ l') b ↔ ∃ m, Spans a l m ∧ Spans m l' b := by
  induction l generalizing a with
  | nil => simp [Spans]
  | cons r rs ih => simp only [cons_append, Spans, ih, and_assoc, exists_and_left]

theorem Spans.snoc (h : Spans a l r.start) (hr : r.start < r.stop) : Spans a (l ++ [r]) r.stop :=
  spans_append.mpr ⟨r.start, h, rfl, hr, rfl⟩

theorem Spans.le (h : Spans a l b) : a ≤ b := by
  induction l generalizing a with
  | nil => exact Nat.le_of_eq h
  | cons r rs ih =>
    obtain ⟨rfl, hlt, hrest⟩ := h
    have hle := ih hrest
    omega

theorem Spans.unique {b'} (h : Spans a l b) (h' : Spans a l b') : b = b' := by
  induction l generalizing a with
  | nil => exact h.symm.trans h'
  | cons r rs ih => exact ih h.2.2 h'.2.2

theorem Spans.bounds (h : Spans a l b) (hr : r ∈ l) :
    a ≤ r.start ∧ r.start < r.stop ∧ r.stop ≤ b := by
  induction l generalizing a with
  | nil => cases hr
  | cons r' rs ih =>
    obtain ⟨rfl, hlt, hrest⟩ := h
    rcases mem_cons.mp hr with rfl | hr
    · exact ⟨Nat.le_refl _, hlt, hrest.le⟩
    · have hb := ih hrest hr
      omega

theorem Spans.countP_contains (h : Spans a l b) (x : Nat) :
    l.countP (fun r => r.contains x) = if a ≤ x ∧ x < b then 1 else 0 := by
  induction l generalizing a with
  | nil =>
    obtain rfl : a = b := h
    rw [countP_nil, if_neg (by omega)]
  | cons r rs ih =>
    obtain ⟨rfl, hlt, hrest⟩ := h
    have hle := hrest.le
    -- The number is in the first interval, or it is left to the others.
    rw [countP_cons, ih hrest]
    by_cases hin : r.start ≤ x ∧ x < r.stop
    · rw [if_pos (Span.contains_iff.mpr hin), if_neg (by omega), if_pos (by omega)]
    · rw [if_neg (fun hc => hin (Span.contains_iff.mp hc)), Nat.add_zero]
      by_cases hrest : r.stop ≤ x ∧ x < b
      · rw [if_pos hrest, if_pos (by omega)]
      · rw [if_neg hrest, if_neg (by omega)]

theorem Spans.exists_contains (h : Spans a l b) (ha : a ≤ x) (hb : x < b) :
    ∃ r ∈ l, r.start ≤ x ∧ x < r.stop := by
  have hcount := h.countP_contains x
  rw [if_pos ⟨ha, hb⟩] at hcount
  have hpos : 0 < l.countP (fun r => r.contains x) := by omega
  obtain ⟨r, hr, hc⟩ := countP_pos_iff.mp hpos
  exact ⟨r, hr, Span.contains_iff.mp hc⟩

theorem countP_product (l l' : List Span) (x y : Nat) :
    (l.flatMap fun r => l'.map fun r' => (r, r')).countP
        (fun t => t.1.contains x && t.2.contains y) =
      l.countP (fun r => r.contains x) * l'.countP (fun r => r.contains y) := by
  induction l with
  | nil => simp
  | cons r l ih =>
    have hrow : (l'.map fun r' => (r, r')).countP (fun t => t.1.contains x && t.2.contains y) =
        (if r.contains x then 1 else 0) * l'.countP (fun r => r.contains y) := by
      rw [countP_map]
      cases hr : r.contains x with
      | true | false => simp [Function.comp_def, hr]
    rw [flatMap_cons, countP_append, ih, countP_cons, hrow, Nat.add_mul, Nat.add_comm]

theorem Spans.head_ne (h : Spans a (r :: l) b) {r'} (hr' : r' ∈ l) : r ≠ r' := by
  rintro rfl
  obtain ⟨-, hlt, hrest⟩ := h
  have hb := hrest.bounds hr'
  omega

end OpenData.Lib

import Mathlib.Data.List.TakeWhile

/-!
# Cutting an ordered list at a threshold

A loop that walks an ordered list and stops at the first element past a threshold sees the same
elements as a filter over the whole list. The order is stated for the test itself: `Cut p l` says
that once the test `p` fails in `l`, it fails for all elements that follow.
-/

namespace OpenData.Lib

open List

variable {α : Type} {p : α → Bool}

def Cut (p : α → Bool) (l : List α) : Prop := l.Pairwise fun a b => p b = true → p a = true

variable {l : List α}

theorem Cut.of_pairwise {r : α → α → Prop} (h : l.Pairwise r)
    (hp : ∀ a b, r a b → p b = true → p a = true) : Cut p l :=
  h.imp fun {a b} hab => hp a b hab

theorem Cut.tail {a} (h : Cut p (a :: l)) : Cut p l := (pairwise_cons.mp h).2

theorem Cut.filter_of_neg {a} (h : Cut p (a :: l)) (ha : p a = false) : l.filter p = [] := by
  rw [filter_eq_nil_iff]
  intro b hb hpb
  exact absurd ((pairwise_cons.mp h).1 b hb hpb) (by simp [ha])

theorem Cut.takeWhile_eq_filter (h : Cut p l) : l.takeWhile p = l.filter p := by
  induction l with
  | nil => rfl
  | cons a l ih =>
    cases ha : p a with
    | true => rw [takeWhile_cons_of_pos ha, filter_cons_of_pos ha, ih h.tail]
    | false =>
      rw [takeWhile_cons_of_neg (by simp [ha]), filter_cons_of_neg (by simp [ha]),
        h.filter_of_neg ha]

theorem Cut.dropWhile_eq_filter (h : Cut p l) : l.dropWhile p = l.filter fun a => !p a := by
  induction l with
  | nil => rfl
  | cons a l ih =>
    cases ha : p a with
    | true => rw [dropWhile_cons_of_pos ha, filter_cons_of_neg (by simp [ha]), ih h.tail]
    | false =>
      have hall : l.filter (fun b => !p b) = l := by
        rw [filter_eq_self]
        intro b hb
        have hnone := filter_eq_nil_iff.mp (h.filter_of_neg ha) b hb
        simpa using hnone
      rw [dropWhile_cons_of_neg (by simp [ha]), filter_cons_of_pos (by simp [ha]), hall]

/-! ### Cursors -/

def reach (p : α → Bool) (l : List α) : Nat := (l.takeWhile p).length

/-- A walk that starts further on, at an element that a walk from the front gets to, ends at the
same place. -/
theorem add_length_takeWhile_drop {i} (h : i ≤ reach p l) :
    i + ((l.drop i).takeWhile p).length = reach p l := by
  induction l generalizing i with
  | nil => simpa [reach] using h
  | cons a l ih =>
    cases i with
    | zero => simp [reach]
    | succ =>
      cases ha : p a with
      | false => simp [reach, ha] at h
      | true =>
        have hreach : reach p (a :: l) = reach p l + 1 := by
          rw [reach, takeWhile_cons_of_pos ha, length_cons, reach]
        rw [hreach] at h ⊢
        rw [drop_succ_cons, ← ih (Nat.le_of_succ_le_succ h)]
        omega

theorem reach_le {q : α → Bool} (h : ∀ a, p a = true → q a = true) (l : List α) :
    reach p l ≤ reach q l := by
  induction l with
  | nil => exact Nat.le_refl _
  | cons a l ih =>
    cases ha : p a with
    | false => simp [reach, takeWhile_cons, ha]
    | true =>
      simp only [reach, takeWhile_cons_of_pos ha, takeWhile_cons_of_pos (h a ha), length_cons]
      exact Nat.succ_le_succ ih

theorem take_reach (p : α → Bool) (l : List α) : l.take (reach p l) = l.takeWhile p := by
  have htake : (l.takeWhile p ++ l.dropWhile p).take (reach p l) = l.takeWhile p := take_left
  rwa [takeWhile_append_dropWhile] at htake

theorem drop_reach (p : α → Bool) (l : List α) : l.drop (reach p l) = l.dropWhile p := by
  have hdrop : (l.takeWhile p ++ l.dropWhile p).drop (reach p l) = l.dropWhile p := drop_left
  rwa [takeWhile_append_dropWhile] at hdrop

theorem Cut.slice {q : α → Bool} (hp : Cut p l) (hq : Cut q l)
    (hle : ∀ a, p a = true → q a = true) :
    (l.take (reach q l)).drop (reach p l) = l.filter fun a => q a && !p a := by
  have hrest : Cut q (l.dropWhile p) := List.Pairwise.sublist (dropWhile_sublist p) hq
  have hreach : reach q l - reach p l = reach q (l.dropWhile p) := by
    rw [← add_length_takeWhile_drop (reach_le hle l), drop_reach, Nat.add_sub_cancel_left]
    rfl
  rw [drop_take, drop_reach, hreach, take_reach, hrest.takeWhile_eq_filter,
    hp.dropWhile_eq_filter, filter_filter]

end OpenData.Lib

import Mathlib.Logic.Function.Basic

/-!
# An object under compare-and-swap

`Cell α` is one object of a store that versions its objects: no object yet, or a value with a
version. `Cell.put` is the conditional write: it commits exactly when the object has the version
the writer expects (`none` expects no object), and every commit gives a new version.
-/

namespace OpenData.Lib

inductive Cell (α : Type) where
  | absent
  | present (value : α) (version : Nat)

namespace Cell

variable {α : Type}

def version : Cell α → Option Nat
  | absent => none
  | present _ v => some v

/-- The conditional write. `none` is a conflict. -/
def put (c : Cell α) (expected : Option Nat) (a : α) : Option (Cell α) :=
  if c.version = expected then
    match expected with
    | none => some (present a 0)
    | some v => some (present a (v + 1))
  else none

theorem put_version (c : Cell α) (a : α) : ∃ v, c.put c.version a = some (present a v) := by
  cases c with
  | absent => exact ⟨0, rfl⟩
  | present b v => exact ⟨v + 1, if_pos rfl⟩

/-- The position of a cell in the order of versions. -/
def rank : Cell α → Nat
  | absent => 0
  | present _ v => v + 1

/-- `seen` is the present cell, or it is outdated. -/
def Older (seen c : Cell α) : Prop := seen = c ∨ seen.rank < c.rank

variable {seen c c' : Cell α} {a : α}

theorem Older.refl (c : Cell α) : Older c c := Or.inl rfl

theorem rank_eq_of_version_eq (h : seen.version = c.version) : seen.rank = c.rank := by
  cases seen <;> cases c <;> simp_all [version, rank]

variable {expected : Option Nat}

theorem put_cases (h : c.put expected a = some c') :
    c.version = expected ∧ c.rank < c'.rank ∧ ∃ v, c' = present a v := by
  unfold put at h
  split at h
  · rename_i hver
    refine ⟨hver, ?_⟩
    cases c with
    | absent =>
      obtain rfl := hver
      cases h
      exact ⟨by simp [rank], 0, rfl⟩
    | present b v =>
      obtain rfl := hver
      cases h
      exact ⟨by simp [rank], v + 1, rfl⟩
  · cases h

theorem Older.put (h : Older seen c) (hput : c.put expected a = some c') :
    Older seen c' := by
  obtain ⟨-, hlt, -⟩ := put_cases hput
  rcases h with rfl | hlt'
  · exact Or.inr hlt
  · exact Or.inr (Nat.lt_trans hlt' hlt)

theorem eq_of_put (h : Older seen c) (hput : c.put seen.version a = some c') : seen = c := by
  obtain ⟨hver, -, -⟩ := put_cases hput
  rcases h with heq | hlt
  · exact heq
  · have hrank := rank_eq_of_version_eq hver
    omega

end Cell

end OpenData.Lib

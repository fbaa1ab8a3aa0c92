import OpenData.Lib.Span

/-!
# A range in chunks of bounded size

`chunksFrom size n start` are the numbers from `start` up to `n` in chunks of `size`, the last of
which may be shorter. There is one equation for each case of the loop that takes them, and the
chunks are consecutive (`spans_chunksFrom`).
-/

namespace OpenData.Lib

variable {size n start : Nat}

def chunksLoop (size n : Nat) : Nat → Nat → List Span
  | 0, _ => []
  | fuel + 1, start =>
    if start < n then
      ⟨start, min (start + size) n⟩ :: chunksLoop size n fuel (min (start + size) n)
    else []

def chunksFrom (size n start : Nat) : List Span := chunksLoop size n (n - start) start

theorem chunksLoop_of_le (fuel : Nat) (h : n ≤ start) : chunksLoop size n fuel start = [] := by
  cases fuel with
  | zero => rfl
  | succ => rw [chunksLoop, if_neg (Nat.not_lt.mpr h)]

theorem chunksLoop_eq (hsize : 0 < size) {fuel fuel'} (h : n - start ≤ fuel)
    (h' : n - start ≤ fuel') : chunksLoop size n fuel start = chunksLoop size n fuel' start := by
  induction fuel generalizing start fuel' with
  | zero =>
    have hle : n ≤ start := by omega
    rw [chunksLoop_of_le _ hle, chunksLoop_of_le _ hle]
  | succ fuel ih =>
    by_cases hlt : start < n
    · obtain ⟨fuel', rfl⟩ : ∃ k, fuel' = k + 1 := ⟨fuel' - 1, by omega⟩
      have hrest : chunksLoop size n fuel (min (start + size) n) =
          chunksLoop size n fuel' (min (start + size) n) := ih (by omega) (by omega)
      rw [chunksLoop, chunksLoop, if_pos hlt, if_pos hlt, hrest]
    · rw [chunksLoop_of_le _ (Nat.not_lt.mp hlt), chunksLoop_of_le _ (Nat.not_lt.mp hlt)]

theorem chunksFrom_of_le (h : n ≤ start) : chunksFrom size n start = [] := chunksLoop_of_le _ h

theorem chunksFrom_of_lt (hsize : 0 < size) (h : start < n) : chunksFrom size n start =
      ⟨start, min (start + size) n⟩ :: chunksFrom size n (min (start + size) n) := by
  obtain ⟨fuel, hfuel⟩ : ∃ k, n - start = k + 1 := ⟨n - start - 1, by omega⟩
  have hrest : chunksLoop size n fuel (min (start + size) n) =
      chunksFrom size n (min (start + size) n) := chunksLoop_eq hsize (by omega) (Nat.le_refl _)
  rw [chunksFrom, hfuel, chunksLoop, if_pos h, hrest]

theorem spans_chunksFrom (hsize : 0 < size) (h : start ≤ n) :
    Spans start (chunksFrom size n start) n := by
  induction hd : n - start using Nat.strongRecOn generalizing start with
  | ind d ih =>
    rcases Nat.lt_or_eq_of_le h with hlt | rfl
    · rw [chunksFrom_of_lt hsize hlt]
      refine ⟨rfl, by simp only; omega, ?_⟩
      exact ih (n - min (start + size) n) (by omega) (Nat.min_le_right _ _) rfl
    · rw [chunksFrom_of_le (Nat.le_refl _)]
      rfl

end OpenData.Lib

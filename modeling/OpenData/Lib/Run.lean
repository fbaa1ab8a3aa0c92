import Mathlib.Data.List.Basic

/-!
# Runs of a labelled step function

A system is a step function `step : σ → ℓ → Option σ`. The label carries every choice that the
system does not make itself (which party moves, which call fails), so `step` is a function, and
`none` says that the label is not enabled in the state.
-/

namespace OpenData.Lib

open List

variable {σ ℓ : Type}

/-- The labels `ls` lead from `s0` to the last index, and `ok` allowed every label in the state
before it. -/
inductive Run (step : σ → ℓ → Option σ) (ok : σ → ℓ → Prop) (s0 : σ) : List ℓ → σ → Prop
  | nil : Run step ok s0 [] s0
  | snoc {ls : List ℓ} {s s' : σ} {l : ℓ} :
      Run step ok s0 ls s → ok s l → step s l = some s' → Run step ok s0 (ls ++ [l]) s'

/-- The condition that allows every step. -/
def anyStep (_ : σ) (_ : ℓ) : Prop := True

instance (s : σ) (l : ℓ) : Decidable (anyStep s l) := .isTrue trivial

variable {step : σ → ℓ → Option σ} {ok : σ → ℓ → Prop} {s0 s : σ} {ls : List ℓ} {ok' : σ → ℓ → Prop}

namespace Run

/-- A property of the labels so far and of the state holds along a run when it holds at the
start and every allowed step keeps it. -/
theorem history {I : List ℓ → σ → Prop} (hrun : Run step ok s0 ls s) (hinit : I [] s0)
    (hstep : ∀ ls s l s', I ls s → ok s l → step s l = some s' → I (ls ++ [l]) s') : I ls s := by
  induction hrun with
  | nil => exact hinit
  | snoc _ hok hs ih => exact hstep _ _ _ _ ih hok hs

theorem invariant {I : σ → Prop} (hrun : Run step ok s0 ls s) (hinit : I s0)
    (hstep : ∀ s l s', I s → ok s l → step s l = some s' → I s') : I s :=
  hrun.history (I := fun _ s => I s) hinit (fun _ s l s' => hstep s l s')

theorem invariant_reachable {I : σ → Prop} (hrun : Run step ok s0 ls s) (hinit : I s0)
    (hstep : ∀ ls s l s', Run step ok s0 ls s → I s → ok s l → step s l = some s' → I s') :
    I s := by
  induction hrun with
  | nil => exact hinit
  | snoc hrun hok hs ih => exact hstep _ _ _ _ hrun ih hok hs

theorem single {l s'} (hok : ok s l) (hs : step s l = some s') : Run step ok s [l] s' := by
  show Run step ok s ([] ++ [l]) s'
  exact Run.nil.snoc hok hs

theorem trans {ls' s'} (h1 : Run step ok s0 ls s) (h2 : Run step ok s ls' s') :
    Run step ok s0 (ls ++ ls') s' := by
  induction h2 with
  | nil => rwa [append_nil]
  | snoc _ hok hs ih =>
    rw [← append_assoc]
    exact ih.snoc hok hs

theorem eq_of_nil (h : Run step ok s0 [] s) : s = s0 := by
  generalize hall : [] = all at h
  cases h with
  | nil => rfl
  | snoc => exact absurd hall (by simp)

theorem exists_of_snoc {l s'} (h : Run step ok s0 (ls ++ [l]) s') :
    ∃ s, Run step ok s0 ls s ∧ ok s l ∧ step s l = some s' := by
  generalize hall : ls ++ [l] = all at h
  cases h with
  | nil => exact absurd hall (by simp)
  | snoc hrun hok hs =>
    obtain ⟨rfl, heq⟩ := append_inj' hall rfl
    obtain rfl : l = _ := by simpa using heq
    exact ⟨_, hrun, hok, hs⟩

theorem mono (hrun : Run step ok s0 ls s) (h : ∀ s l, ok s l → ok' s l) : Run step ok' s0 ls s := by
  induction hrun with
  | nil => exact Run.nil
  | snoc _ hok hs ih => exact ih.snoc (h _ _ hok) hs

theorem mono_reachable (hrun : Run step ok s0 ls s)
    (h : ∀ ls s l, Run step ok s0 ls s → ok s l → ok' s l) : Run step ok' s0 ls s := by
  induction hrun with
  | nil => exact Run.nil
  | snoc hrun hok hs ih => exact ih.snoc (h _ _ _ hrun hok) hs

theorem and_labels (hrun : Run step ok s0 ls s) (h : ∀ l ∈ ls, ∀ s, ok' s l) :
    Run step (fun s l => ok s l ∧ ok' s l) s0 ls s := by
  induction hrun with
  | nil => exact Run.nil
  | @snoc ls s s' l _ hok hs ih =>
    refine (ih fun l' hl' => h l' (mem_append_left _ hl')).snoc ⟨hok, ?_⟩ hs
    exact h l (mem_append_right _ (mem_singleton.mpr rfl)) s

theorem of_labels (hrun : Run step ok s0 ls s) (h : ∀ l ∈ ls, ∀ s, ok' s l) :
    Run step ok' s0 ls s :=
  (hrun.and_labels h).mono fun _ _ hok => hok.2

/-- A map `f` to the states of a second system, under which every step is a step of the second
system or leaves the image as it is, maps runs to runs. -/
theorem project {τ κ : Type} {step' : τ → κ → Option τ} {ok' : τ → κ → Prop} (f : σ → τ)
    (hrun : Run step ok s0 ls s) (hstep : ∀ s l s', ok s l → step s l = some s' →
      f s' = f s ∨ ∃ k, ok' (f s) k ∧ step' (f s) k = some (f s')) :
    ∃ ks, Run step' ok' (f s0) ks (f s) := by
  induction hrun with
  | nil => exact ⟨[], Run.nil⟩
  | snoc _ hok hs ih =>
    obtain ⟨ks, hks⟩ := ih
    rcases hstep _ _ _ hok hs with heq | ⟨k, hk, hs'⟩
    · exact ⟨ks, heq ▸ hks⟩
    · exact ⟨ks ++ [k], hks.snoc hk hs'⟩

theorem embed {τ κ : Type} {step' : τ → κ → Option τ} (g : σ → τ) (h : ℓ → κ)
    (hrun : Run step ok s0 ls s)
    (hstep : ∀ l ∈ ls, ∀ s s', step s l = some s' → step' (g s) (h l) = some (g s')) :
    Run step' anyStep (g s0) (ls.map h) (g s) := by
  induction hrun with
  | nil => exact Run.nil
  | @snoc ls s s' l _ _ hs ih =>
    have hls := ih fun l' hl' => hstep l' (mem_append_left _ hl')
    have hl := hstep l (mem_append_right _ (mem_singleton.mpr rfl)) s s' hs
    rw [map_append]
    exact hls.snoc trivial hl

/-- A list of labels that `List.foldlM` runs through, with a check of the condition before every
step, is a run under the condition. -/
theorem of_check {check : σ → ℓ → Bool} (hcheck : ∀ s l, check s l = true → ok s l)
    (h : ls.foldlM (fun s l => if check s l then step s l else none) s0 = some s) :
    Run step ok s0 ls s := by
  induction ls generalizing s0 with
  | nil =>
    simp only [List.foldlM_nil, Option.pure_def, Option.some.injEq] at h
    exact h ▸ Run.nil
  | cons l ls ih =>
    rw [List.foldlM_cons] at h
    cases hl : check s0 l with
    | false => simp [hl] at h
    | true =>
      cases hs : step s0 l with
      | none => simp [hl, hs] at h
      | some =>
        have hrest := ih (by simpa [hl, hs] using h)
        exact (single (hcheck s0 l hl) hs).trans hrest

theorem of_foldlM (h : ls.foldlM step s0 = some s) : Run step anyStep s0 ls s := by
  have hall : ∀ (s : σ) (l : ℓ), (fun _ _ => true : σ → ℓ → Bool) s l = true → anyStep s l :=
    fun _ _ _ => trivial
  exact of_check hall (by simpa using h)

/-- A run along given labels is computed: the condition is decided before every step, and `p` in the
last state. -/
theorem exists_of_check [∀ s l, Decidable (ok s l)] {p : σ → Prop} [DecidablePred p]
    (h : (ls.foldlM (fun s l => if ok s l then step s l else none) s0).any (fun s => p s) = true) :
    ∃ s, Run step ok s0 ls s ∧ p s := by
  obtain ⟨s, hs, hp⟩ := (Option.any_eq_true _ _).mp h
  exact ⟨s, of_check (fun _ _ hok => of_decide_eq_true hok) (by simpa using hs),
    of_decide_eq_true hp⟩

end Run

theorem forall_update {κ ν : Type} [DecidableEq κ] {table : κ → Option ν} {P : κ → ν → Prop} {k v}
    (hall : ∀ k' v', table k' = some v' → P k' v') (hnew : P k v) (k' : κ) (v' : ν)
    (h : Function.update table k (some v) k' = some v') : P k' v' := by
  by_cases hne : k' = k
  · subst hne
    rw [Function.update_self, Option.some.injEq] at h
    exact h ▸ hnew
  · rw [Function.update_of_ne hne] at h
    exact hall k' v' h

end OpenData.Lib

import Mathlib.Data.List.Forall2

/-!
# Loops over lists in a monad

A loop whose body returns a value at every element of the list is the loop without the monad. The
lemmas are used at `Except` and `Option`, where they say that a loop does not fail.
-/

namespace OpenData.Lib

open List

universe u v w

variable {m : Type u → Type v} [Monad m] [LawfulMonad m] {α : Type w} {β : Type u} {l : List α}
  {g : α → β}

theorem mapM_eq_pure {f : α → m β} (h : ∀ a ∈ l, f a = pure (g a)) : l.mapM f = pure (l.map g) := by
  induction l with
  | nil => simp
  | cons a l ih =>
    rw [mapM_cons, h a mem_cons_self, ih fun b hb => h b (mem_cons_of_mem a hb)]
    simp

theorem foldlM_eq_pure {f : β → α → m β} {g : β → α → β} (h : ∀ b, ∀ a ∈ l, f b a = pure (g b a))
    (b : β) : l.foldlM f b = pure (l.foldl g b) := by
  induction l generalizing b with
  | nil => simp
  | cons a l ih =>
    rw [foldlM_cons, h b a mem_cons_self, pure_bind,
      ih fun b c hc => h b c (mem_cons_of_mem a hc), foldl_cons]

variable {γ : Type*}

theorem foldlM_flatMap {f : β → γ → m β} {g : α → List γ} {F : β → α → m β}
    (h : ∀ a ∈ l, ∀ b, F b a = (g a).foldlM f b) (b : β) :
    l.foldlM F b = (l.flatMap g).foldlM f b := by
  induction l generalizing b with
  | nil => rfl
  | cons a l ih =>
    rw [foldlM_cons, flatMap_cons, foldlM_append, h a mem_cons_self]
    exact bind_congr fun b => ih (fun c hc => h c (mem_cons_of_mem a hc)) b

theorem foldl_history {I : List α → γ → Prop} {f : γ → α → γ} {b} (hinit : I [] b)
    (hstep : ∀ done a rest b, l = done ++ a :: rest → I done b → I (done ++ [a]) (f b a)) :
    I l (l.foldl f b) := by
  have hloop : ∀ (rest done : List α) (b : γ), l = done ++ rest → I done b →
      I l (rest.foldl f b) := by
    intro rest
    induction rest with
    | nil =>
      intro done b hl hb
      rw [append_nil] at hl
      exact hl ▸ hb
    | cons a rest ih =>
      intro done b hl hb
      exact ih (done ++ [a]) (f b a) (by simpa using hl) (hstep done a rest b hl hb)
  exact hloop l [] b rfl hinit

variable {results : List β}

section

variable {ε : Type*}

theorem exists_of_bind_eq_ok {α β : Type u} {x} {f : α → Except ε β} {b}
    (h : x >>= f = .ok b) : ∃ a, x = .ok a ∧ f a = .ok b := by
  cases x with
  | error => simp [bind, Except.bind] at h
  | ok a => exact ⟨a, rfl, h⟩

theorem toOption_eq_some {α : Type u} {x : Except ε α} {a} : x.toOption = some a ↔ x = .ok a := by
  cases x <;> simp [Except.toOption]

variable {f : β → α → Except ε β}

theorem foldlM_history {I : List α → β → Prop} {b b'} (h : l.foldlM f b = .ok b') (hinit : I [] b)
    (hstep : ∀ done b a b', I done b → f b a = .ok b' → I (done ++ [a]) b') : I l b' := by
  have hloop : ∀ (done l : List α) (b : β), I done b →
      l.foldlM f b = .ok b' → I (done ++ l) b' := by
    intro done l
    induction l generalizing done with
    | nil =>
      intro b hb h
      obtain rfl : b = b' := by simpa [pure, Except.pure] using h
      rwa [append_nil]
    | cons a l ih =>
      intro b hb h
      rw [foldlM_cons] at h
      obtain ⟨mid, hmid, h⟩ := exists_of_bind_eq_ok h
      have hrest := ih (done ++ [a]) mid (hstep done b a mid hb hmid) h
      rwa [append_assoc] at hrest
  exact hloop [] l b hinit h

theorem foldlM_frame {g : β → γ} {b b'}
    (h : l.foldlM f b = .ok b') (hf : ∀ a ∈ l, ∀ b b', f b a = .ok b' → g b' = g b) :
    g b' = g b := by
  induction l generalizing b with
  | nil =>
    obtain rfl : b = b' := by simpa [pure, Except.pure] using h
    rfl
  | cons a l ih =>
    rw [foldlM_cons] at h
    obtain ⟨mid, hmid, h⟩ := exists_of_bind_eq_ok h
    obtain ⟨ha, hl⟩ := forall_mem_cons.mp hf
    rw [ih h hl, ha b mid hmid]

variable {f : α → Except ε β}

theorem forall₂_of_mapM_eq_ok (h : l.mapM f = .ok results) :
    Forall₂ (fun a b => f a = .ok b) l results := by
  induction l generalizing results with
  | nil =>
    obtain rfl : [] = results := by simpa [pure, Except.pure] using h
    exact .nil
  | cons a l ih =>
    rw [mapM_cons] at h
    obtain ⟨b, hb, hrest⟩ := exists_of_bind_eq_ok h
    obtain ⟨bs, hbs, hlast⟩ := exists_of_bind_eq_ok hrest
    obtain rfl : b :: bs = results := by simpa [pure, Except.pure] using hlast
    exact .cons hb (ih hbs)

theorem mem_of_mapM_eq_ok (h : l.mapM f = .ok results) {b} (hb : b ∈ results) :
    ∃ a ∈ l, f a = .ok b := by
  obtain ⟨i, hi, rfl⟩ := mem_iff_getElem.mp hb
  obtain ⟨hlength, hget⟩ := forall₂_iff_get.mp (forall₂_of_mapM_eq_ok h)
  exact ⟨l[i], getElem_mem (hlength ▸ hi), hget i (hlength ▸ hi) hi⟩

theorem eq_map_of_mapM_eq_ok (hg : ∀ a b, f a = .ok b → b = g a)
    (h : l.mapM f = .ok results) : results = l.map g ∧ ∀ a ∈ l, f a = .ok (g a) := by
  have hall := forall₂_of_mapM_eq_ok h
  clear h
  induction hall with
  | nil => exact ⟨rfl, by simp⟩
  | cons hb _ ih =>
    obtain rfl := hg _ _ hb
    obtain ⟨rfl, hall⟩ := ih
    exact ⟨rfl, forall_mem_cons.mpr ⟨hb, hall⟩⟩

theorem forall₂_of_mapM {P : α → β → Prop} (h : ∀ a ∈ l, ∃ b, f a = .ok b ∧ P a b) :
    ∃ bs, l.mapM f = .ok bs ∧ List.Forall₂ P l bs := by
  induction l with
  | nil => exact ⟨[], by simp [pure, Except.pure], .nil⟩
  | cons a l ih =>
    obtain ⟨⟨b, hb, hP⟩, hl⟩ := forall_mem_cons.mp h
    obtain ⟨bs, hbs, hPs⟩ := ih hl
    refine ⟨b :: bs, ?_, .cons hP hPs⟩
    simp [mapM_cons, hb, hbs, bind, Except.bind, pure, Except.pure]

theorem mapM_eq_error {e} (hall : ∀ a ∈ l, (∃ b, f a = .ok b) ∨ f a = .error e)
    (hsome : ∃ a ∈ l, f a = .error e) : l.mapM f = .error e := by
  induction l with
  | nil =>
    obtain ⟨a, ha, -⟩ := hsome
    cases ha
  | cons a l ih =>
    obtain ⟨ha, hl⟩ := forall_mem_cons.mp hall
    rw [mapM_cons]
    rcases ha with ⟨b, hb⟩ | ha
    · have hrest : l.mapM f = .error e := by
        refine ih hl ?_
        obtain ⟨c, hc, hfail⟩ := hsome
        rcases mem_cons.mp hc with rfl | hc
        · rw [hb] at hfail
          cases hfail
        · exact ⟨c, hc, hfail⟩
      simp [hb, hrest, bind, Except.bind]
    · simp [ha, bind, Except.bind]

theorem filterMap_toOption_of_mapM {l : List (Except ε β)} (h : l.mapM id = .ok results) :
    l.filterMap Except.toOption = results := by
  have hall := forall₂_of_mapM_eq_ok h
  clear h
  induction hall with
  | nil => rfl
  | cons hb _ ih =>
    obtain rfl := hb
    show _ :: filterMap Except.toOption _ = _
    rw [ih]

end

/-! ### Writes into a list -/

variable {γ : Type} {writes : List (Nat × γ)} {out : List γ} {i : Nat}

def setAll (out : List γ) (writes : List (Nat × γ)) : List γ :=
  writes.foldl (fun out w => out.set w.1 w.2) out

theorem getElem?_setAll (hi : i < out.length)
    (hone : ∀ c c', (i, c) ∈ writes → (i, c') ∈ writes → c = c') (c : γ) :
    (setAll out writes)[i]? = some c ↔
      (i, c) ∈ writes ∨ i ∉ writes.map Prod.fst ∧ out[i]? = some c := by
  induction writes generalizing out with
  | nil => simp [setAll]
  | cons w writes ih =>
    refine (ih (by simpa using hi) fun c c' h h' =>
      hone c c' (mem_cons_of_mem w h) (mem_cons_of_mem w h')).trans ?_
    by_cases hw : w.1 = i
    · subst hw
      have hmem : w.1 ∈ writes.map Prod.fst → (w.1, w.2) ∈ writes := by
        intro h
        obtain ⟨w', hw', heq⟩ := mem_map.mp h
        have hval := hone w'.2 w.2 (mem_cons_of_mem w (heq ▸ hw')) mem_cons_self
        exact (Prod.ext heq hval : w' = w) ▸ hw'
      by_cases hin : w.1 ∈ writes.map Prod.fst
      · have hw' := hmem hin
        simp only [hin, not_true_eq_false, false_and, or_false, mem_cons, map_cons, true_or]
        exact ⟨.inr, fun h => h.elim (fun h => h ▸ hw') id⟩
      · have hnot : (w.1, c) ∉ writes := fun h => hin (mem_map.mpr ⟨_, h, rfl⟩)
        simp [hnot, hin, hi, Prod.ext_iff, eq_comm]
    · have hne : (i, c) ≠ w := fun h => hw (h ▸ rfl)
      simp [getElem?_set_ne hw, hne, Ne.symm hw]

theorem setAll_flatMap {δ : Type} (f : δ → List (Nat × γ)) (l : List δ) :
    l.foldl (fun out d => setAll out (f d)) out = setAll out (l.flatMap f) := by
  simp [setAll, foldl_flatMap]

end OpenData.Lib

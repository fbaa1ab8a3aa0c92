import Mathlib.Data.List.Nodup
import OpenData.Lib.Monadic

/-!
# Values in groups

A merge combines an existing value with a list of operands, and may fail. A store that may merge
consecutive operands on their own before they reach the existing value needs the merge not to see
the groups. `regroup` reduces that to the values' meanings: the merge encodes a function of what its
arguments stand for, and that function does not see the groups.
-/

namespace OpenData.Lib

open List Option

variable {α β : Type} {R : β → α → Prop} {l : List β}

theorem filter_eq_singleton_of_nodup_flatMap [DecidableEq α] {g : β → List α}
    (h : (l.flatMap g).Nodup) {b a} (hb : b ∈ l) (ha : a ∈ g b) :
    l.filter (fun c => a ∈ g c) = [b] := by
  induction l with
  | nil => exact absurd hb not_mem_nil
  | cons c l ih =>
    rw [flatMap_cons] at h
    obtain ⟨-, hl, hdisjoint⟩ := nodup_append.mp h
    rcases mem_cons.mp hb with rfl | hb
    · rw [filter_cons_of_pos (by simpa using ha), filter_eq_nil_iff.mpr]
      intro c hc hmem
      exact hdisjoint a ha a (mem_flatMap.mpr ⟨c, hc, by simpa using hmem⟩) rfl
    · rw [filter_cons_of_neg, ih hl hb]
      intro hmem
      exact hdisjoint a (by simpa using hmem) a (mem_flatMap.mpr ⟨b, hb, ha⟩) rfl

theorem exists_forall₂ (h : ∀ v ∈ l, ∃ a, R v a) : ∃ as, Forall₂ R l as := by
  induction l with
  | nil => exact ⟨[], .nil⟩
  | cons v l ih =>
    obtain ⟨⟨a, ha⟩, hl⟩ := forall_mem_cons.mp h
    obtain ⟨as, has⟩ := ih hl
    exact ⟨a :: as, .cons ha has⟩

variable {existing : Option β} {operands : List β}

theorem exists_of_forall₂_append {values} (h : Forall₂ R (existing.toList ++ operands) values) :
    ∃ e as, Option.Rel R existing e ∧ Forall₂ R operands as ∧ values = e.toList ++ as := by
  cases existing with
  | none => exact ⟨none, values, .none, h, rfl⟩
  | some =>
    cases h with
    | @cons _ a _ as ha has => exact ⟨some a, as, .some ha, has, rfl⟩

theorem exists_of_mem_forall₂ {as} (h : Forall₂ R l as) {a} (ha : a ∈ as) : ∃ v ∈ l, R v a := by
  induction h with
  | nil => exact absurd ha not_mem_nil
  | @cons v b l as hv _ ih =>
    rcases mem_cons.mp ha with rfl | ha
    · exact ⟨v, mem_cons_self, hv⟩
    · obtain ⟨w, hw, hr⟩ := ih ha
      exact ⟨w, mem_cons_of_mem v hw, hr⟩

theorem forall₂_append_of_rel {e as}
    (hexisting : Option.Rel R existing e) (h : Forall₂ R operands as) :
    Forall₂ R (existing.toList ++ operands) (e.toList ++ as) := by
  cases hexisting with
  | none => exact h
  | some ha => exact .cons ha h

variable {groups : List (List β)}

theorem exists_forall₂_groups (h : ∀ v ∈ existing.toList ++ groups.flatten, ∃ a, R v a) :
    ∃ e gs, Option.Rel R existing e ∧ Forall₂ (Forall₂ R) groups gs := by
  obtain ⟨gs, hgs⟩ : ∃ gs, Forall₂ (Forall₂ R) groups gs :=
    exists_forall₂ fun g hg => exists_forall₂ fun v hv =>
      h v (mem_append_right _ (mem_flatten.mpr ⟨g, hg, hv⟩))
  cases existing with
  | none => exact ⟨none, gs, .none, hgs⟩
  | some v =>
    obtain ⟨a, ha⟩ := h v (by simp)
    exact ⟨some a, gs, .some ha, hgs⟩

/-- A merge that returns a function of what its arguments stand for may regroup its operands if the
function may: both results are results for the same value. -/
theorem regroup {merge : Option β → List β → Option β} (Returns : α → Option β → Prop)
    (value : Option α → List α → α) (Ok : Option α → List α → Prop)
    (hspec : ∀ {existing operands e as}, Option.Rel R existing e → Forall₂ R operands as →
      Ok e as → Returns (value e as) (merge existing operands))
    (hreads : ∀ {operands as v}, Forall₂ R operands as → Ok none as →
      Returns (value none as) (some v) → R v (value none as)) {e gs results}
    (hexisting : Option.Rel R existing e)
    (hgroups : Forall₂ (Forall₂ R) groups gs) (hflat : Ok e gs.flatten)
    (hgroup : ∀ g ∈ gs, Ok none g) (hresult : Ok e (gs.map (value none)))
    (hvalue : value e (gs.map (value none)) = value e gs.flatten)
    (hresults : groups.mapM (merge none) = some results) :
    ∃ a, Returns a (merge existing results) ∧ Returns a (merge existing groups.flatten) := by
  have hread : Forall₂ R results (gs.map (value none)) := by
    clear hflat hresult hvalue
    induction hgroups generalizing results with
    | nil =>
      obtain rfl : results = [] := by simpa using hresults.symm
      exact .nil
    | @cons operands as groups gs hoperands _ ih =>
      obtain ⟨hok, hgroup⟩ := forall_mem_cons.mp hgroup
      rw [mapM_cons] at hresults
      obtain ⟨v, hv, hresults⟩ := bind_eq_some_iff.mp hresults
      obtain ⟨rest, hrest, hresults⟩ := bind_eq_some_iff.mp hresults
      obtain rfl : v :: rest = results := by simpa using hresults
      exact .cons (hreads hoperands hok (hv ▸ hspec .none hoperands hok)) (ih hgroup hrest)
  exact ⟨_, hvalue ▸ hspec hexisting hread hresult, hspec hexisting (rel_flatten hgroups) hflat⟩

theorem getLast?_of_mapM_getLast? {results} (h : groups.mapM List.getLast? = some results) :
    results.getLast? = groups.flatten.getLast? := by
  induction groups generalizing results with
  | nil =>
    obtain rfl : results = [] := by simpa using h.symm
    rfl
  | cons g groups ih =>
    rw [mapM_cons] at h
    obtain ⟨v, hv, h⟩ := bind_eq_some_iff.mp h
    obtain ⟨rest, hrest, h⟩ := bind_eq_some_iff.mp h
    obtain rfl : v :: rest = results := by simpa using h
    rw [flatten_cons, getLast?_append, getLast?_cons, ih hrest, hv]
    cases groups.flatten.getLast? <;> rfl

end OpenData.Lib

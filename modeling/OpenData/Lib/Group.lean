import OpenData.Lib.Monadic

/-!
# Pairs collected by their keys

`groupPairs` collects the values of each key in the order of the pairs, and the keys in the order in
which they come first. `scatter` appends lists to the columns of a table, each to the column at its
index.
-/

namespace OpenData.Lib

open List

section

variable {κ ν : Type} [DecidableEq κ]

def pushTo (k : κ) (v : ν) : List (κ × List ν) → List (κ × List ν)
  | [] => [(k, [v])]
  | (k', vs) :: rest => if k' = k then (k', vs ++ [v]) :: rest else (k', vs) :: pushTo k v rest

def groupPairs (pairs : List (κ × ν)) : List (κ × List ν) :=
  pairs.foldl (fun groups pair => pushTo pair.1 pair.2 groups) []

def valuesOf (k : κ) (pairs : List (κ × ν)) : List ν :=
  (pairs.filter fun pair => pair.1 = k).map Prod.snd

variable {v : ν} {pairs : List (κ × ν)} {k : κ}

theorem mem_valuesOf : v ∈ valuesOf k pairs ↔ (k, v) ∈ pairs := by
  simp [valuesOf]

theorem valuesOf_append (k : κ) (pairs : List (κ × ν)) (k' : κ) (v : ν) :
    valuesOf k (pairs ++ [(k', v)]) = valuesOf k pairs ++ if k' = k then [v] else [] := by
  by_cases h : k' = k <;> simp [valuesOf, h]

variable {groups : List (κ × List ν)}

theorem mem_keys_pushTo {k'} :
    k' ∈ (pushTo k v groups).map Prod.fst ↔ k' = k ∨ k' ∈ groups.map Prod.fst := by
  induction groups with
  | nil => simp [pushTo]
  | cons group rest ih =>
    obtain ⟨k0, vs⟩ := group
    rw [pushTo]
    split
    next heq => simp [heq]
    next =>
      rw [map_cons, mem_cons, ih, map_cons, mem_cons]
      tauto

theorem nodup_keys_pushTo
    (h : (groups.map Prod.fst).Nodup) : ((pushTo k v groups).map Prod.fst).Nodup := by
  induction groups with
  | nil => simp [pushTo]
  | cons group rest ih =>
    obtain ⟨k0, vs⟩ := group
    obtain ⟨hfresh, hrest⟩ := nodup_cons.mp h
    rw [pushTo]
    split
    next => exact h
    next hne =>
      refine nodup_cons.mpr ⟨fun hmem => ?_, ih hrest⟩
      rcases mem_keys_pushTo.mp hmem with heq | hmem
      · exact hne heq
      · exact hfresh hmem

structure Grouped (pairs : List (κ × ν)) (groups : List (κ × List ν)) : Prop where
  nodup : (groups.map Prod.fst).Nodup
  values : ∀ group ∈ groups, group.2 = valuesOf group.1 pairs
  keys : ∀ k, k ∈ groups.map Prod.fst ↔ k ∈ pairs.map Prod.fst

theorem values_pushTo (hnodup : (groups.map Prod.fst).Nodup)
    (hvalues : ∀ group ∈ groups, group.2 = valuesOf group.1 pairs)
    (hnew : k ∉ groups.map Prod.fst → valuesOf k pairs = []) :
    ∀ group ∈ pushTo k v groups, group.2 = valuesOf group.1 (pairs ++ [(k, v)]) := by
  induction groups with
  | nil =>
    intro group hgroup
    obtain rfl := mem_singleton.mp hgroup
    simp [valuesOf_append, hnew (by simp)]
  | cons first rest ih =>
    obtain ⟨k0, vs⟩ := first
    obtain ⟨hfresh, hrest⟩ := nodup_cons.mp hnodup
    have hfirst : vs = valuesOf k0 pairs := hvalues _ mem_cons_self
    have hothers := fun group hgroup => hvalues group (mem_cons_of_mem _ hgroup)
    intro group hgroup
    rw [pushTo] at hgroup
    split at hgroup
    next heq =>
      subst heq
      rcases mem_cons.mp hgroup with rfl | hgroup
      · simp [valuesOf_append, hfirst]
      · -- The key of another group is another one.
        have hne : k0 ≠ group.1 := fun h => hfresh (mem_map.mpr ⟨group, hgroup, h.symm⟩)
        rw [valuesOf_append, if_neg hne, append_nil]
        exact hothers group hgroup
    next hne =>
      rcases mem_cons.mp hgroup with rfl | hgroup
      · rw [valuesOf_append, if_neg (Ne.symm hne), append_nil]
        exact hfirst
      · refine ih hrest hothers (fun hnot => hnew ?_) group hgroup
        simp only [map_cons, mem_cons, not_or]
        exact ⟨Ne.symm hne, hnot⟩

theorem grouped_groupPairs (pairs : List (κ × ν)) : Grouped pairs (groupPairs pairs) := by
  refine foldl_history (I := fun done groups => Grouped done groups) ⟨by simp, by simp, by simp⟩ ?_
  rintro done ⟨k, v⟩ rest groups - h
  refine ⟨nodup_keys_pushTo h.nodup, values_pushTo h.nodup h.values fun hnot => ?_, fun k' => ?_⟩
  · refine eq_nil_iff_forall_not_mem.mpr fun v hv => hnot ?_
    exact (h.keys k).mpr (mem_map_of_mem (mem_valuesOf.mp hv))
  · rw [mem_keys_pushTo, h.keys k', map_append, mem_append]
    simp only [map_cons, map_nil, mem_singleton]
    exact or_comm

end

section

variable {α : Type}

def scatter (columns : List (List α)) (items : List (Nat × List α)) : List (List α) :=
  items.foldl (fun columns item => columns.modify item.1 (· ++ item.2)) columns

theorem length_scatter (columns : List (List α)) (items : List (Nat × List α)) :
    (scatter columns items).length = columns.length := by
  refine foldl_history (I := fun _ (table : List (List α)) => table.length = columns.length) rfl ?_
  intro _ item _ table _ h
  rw [length_modify, h]

end

variable {κ : Type} {keys : List κ} {table : List Nat × List κ} {i g : Nat} {k : κ}

structure Interned (keys : List κ) (table : List Nat × List κ) : Prop where
  nodup : table.2.Nodup
  length : table.1.length = keys.length
  number : ∀ (i : Nat) (k : κ), keys[i]? = some k →
    ∃ g, table.1[i]? = some g ∧ table.2[g]? = some k

theorem Interned.number_iff (h : Interned keys table) (hi : keys[i]? = some k) :
    table.1[i]? = some g ↔ table.2[g]? = some k := by
  obtain ⟨g', hg', hk'⟩ := h.number i k hi
  rw [hg', Option.some.injEq]
  refine ⟨fun heq => heq ▸ hk', fun hk => ?_⟩
  exact (List.getElem?_inj (List.getElem?_eq_some_iff.mp hk').1 h.nodup).mp (hk'.trans hk.symm)

theorem Interned.lt (h : Interned keys table) (hg : g ∈ table.1) : g < table.2.length := by
  obtain ⟨i, hi⟩ := mem_iff_getElem?.mp hg
  have hlt : i < keys.length := h.length ▸ (List.getElem?_eq_some_iff.mp hi).1
  have hk := (h.number_iff (List.getElem?_eq_getElem hlt)).mp hi
  exact (List.getElem?_eq_some_iff.mp hk).1

theorem Interned.number_inj (h : Interned keys table) {j : Nat} {k'} (hi : keys[i]? = some k)
    (hj : keys[j]? = some k') : table.1[i]? = table.1[j]? ↔ k = k' := by
  obtain ⟨g, hg, hk⟩ := h.number i k hi
  rw [hg, eq_comm, h.number_iff hj, hk, Option.some.injEq]

variable [DecidableEq κ]

def internAll (keys : List κ) : List Nat × List κ :=
  keys.foldl (fun table k => match table.2.idxOf? k with
    | some g => (table.1 ++ [g], table.2)
    | none => (table.1 ++ [table.2.length], table.2 ++ [k])) ([], [])

theorem interned_internAll (keys : List κ) : Interned keys (internAll keys) := by
  refine foldl_history (I := Interned) ⟨nodup_nil, rfl, by simp⟩ ?_
  rintro done k rest ⟨numbers, known⟩ - h
  have hnumber : ∀ (more : List κ) (g : Nat), (known ++ more)[g]? = some k → ∀ (i : Nat) (k' : κ),
      (done ++ [k])[i]? = some k' →
        ∃ g', (numbers ++ [g])[i]? = some g' ∧ (known ++ more)[g']? = some k' := by
    intro more g hg i k' hi
    rcases Nat.lt_or_ge i done.length with hlt | hge
    · rw [List.getElem?_append_left hlt] at hi
      obtain ⟨g', hg', hk'⟩ := h.number i k' hi
      exact ⟨g', List.getElem?_append_left (h.length ▸ hlt) ▸ hg',
        List.getElem?_append_left (List.getElem?_eq_some_iff.mp hk').1 ▸ hk'⟩
    · rw [List.getElem?_append_right hge, List.getElem?_singleton] at hi
      split at hi
      next hzero =>
        cases hi
        refine ⟨g, ?_, hg⟩
        rw [List.getElem?_append_right (h.length ▸ hge), h.length, hzero]
        rfl
      next => cases hi
  have hlength : ∀ g : Nat, (numbers ++ [g]).length = (done ++ [k]).length := by
    simp [show numbers.length = done.length from h.length]
  dsimp only
  split
  next g hg =>
    obtain ⟨hlt, hk, -⟩ := List.idxOf?_eq_some_iff.mp hg
    refine ⟨h.nodup, hlength g, ?_⟩
    have := hnumber [] g (by simpa [hk] using List.getElem?_eq_getElem hlt)
    simpa using this
  next hnone =>
    have hnot : k ∉ known := List.idxOf?_eq_none_iff.mp hnone
    refine ⟨nodup_append.mpr ⟨h.nodup, by simp, ?_⟩, hlength _, hnumber [k] _ (by simp)⟩
    rintro a ha b hb rfl
    exact hnot (mem_singleton.mp hb ▸ ha)

end OpenData.Lib

import Mathlib.Data.List.AList

/-!
# Finite tables

A table is an association list without repeated keys. What is written here goes beyond single
insertions: a change of one entry from what was there (`alter`), and the insertion or removal of
many entries, each with the lookup afterwards.
-/

namespace OpenData.Lib

open List Option AList

abbrev Table (κ ν : Type) := AList fun _ : κ => ν

namespace Table

variable {κ ν : Type} [DecidableEq κ]

/-- The entry of the key becomes `f` of what it was. -/
def alter (t : Table κ ν) (k : κ) (f : Option ν → ν) : Table κ ν :=
  insert k (f (lookup k t)) t

def insertAll (t : Table κ ν) (entries : List (κ × ν)) : Table κ ν :=
  entries.foldl (fun t e => insert e.1 e.2 t) t

def eraseAll (t : Table κ ν) (keys : List κ) : Table κ ν :=
  keys.foldl (fun t k => erase k t) t

def toList (t : Table κ ν) : List (κ × ν) := t.entries.map fun e => (e.1, e.2)

theorem mem_toList {t : Table κ ν} {k v} : (k, v) ∈ t.toList ↔ lookup k t = some v := by
  rw [← mem_def, mem_lookup_iff, toList, List.mem_map]
  constructor
  · rintro ⟨⟨k', v'⟩, hmem, heq⟩
    obtain ⟨rfl, rfl⟩ := Prod.mk.inj heq
    exact hmem
  · exact fun hmem => ⟨_, hmem, rfl⟩

omit [DecidableEq κ] in
theorem keys_toList (t : Table κ ν) : t.toList.map Prod.fst = t.keys := by
  rw [toList, List.map_map]
  rfl

omit [DecidableEq κ] in
theorem nodup_toList (t : Table κ ν) : (t.toList.map Prod.fst).Nodup := t.keys_toList ▸ t.keys_nodup

theorem lookup_alter (t : Table κ ν) (k k' : κ) (f : Option ν → ν) : lookup k' (t.alter k f) =
      if k' = k then some (f (lookup k t)) else lookup k' t := by
  unfold alter
  split
  · rename_i heq
    rw [heq, lookup_insert]
  · rename_i hne
    exact lookup_insert_ne hne

theorem lookup_insertAll (t : Table κ ν) (entries : List (κ × ν)) (k : κ) :
    lookup k (t.insertAll entries) =
      ((entries.reverse.find? (·.1 = k)).map Prod.snd).or (lookup k t) := by
  induction entries generalizing t with
  | nil => rfl
  | cons e entries ih =>
    show lookup k (insertAll (insert e.1 e.2 t) entries) = _
    rw [ih, List.reverse_cons, List.find?_append, Option.map_or, Option.or_assoc]
    congr 1
    by_cases hk : e.1 = k
    · subst hk
      simp
    · rw [lookup_insert_ne (Ne.symm hk)]
      simp [hk]

theorem lookup_insertAll_toList (t u : Table κ ν) (k : κ) :
    lookup k (t.insertAll u.toList) = (lookup k u).or (lookup k t) := by
  rw [lookup_insertAll]
  congr 1
  refine Option.ext fun v => ?_
  rw [← mem_toList (t := u)]
  constructor
  · intro h
    obtain ⟨e, he, rfl⟩ := map_eq_some_iff.mp h
    have hkey : e.1 = k := by simpa using find?_some he
    rw [← hkey]
    exact mem_reverse.mp (mem_of_find?_eq_some he)
  · intro h
    cases hfind : u.toList.reverse.find? (·.1 = k) with
    | none =>
      have hnot := find?_eq_none.mp hfind _ (mem_reverse.mpr h)
      simp at hnot
    | some e =>
      have hkey : e.1 = k := by simpa using find?_some hfind
      have hmem := mem_reverse.mp (mem_of_find?_eq_some hfind)
      have hsame : e.2 = v := by
        rw [show e = (k, e.2) from Prod.ext hkey rfl, mem_toList] at hmem
        rw [mem_toList, hmem] at h
        exact Option.some.inj h
      rw [map_some, hsame]

omit [DecidableEq κ] in
theorem foldl_of_key {β : Type} {l : List (κ × ν)} {k} {f : β → κ × ν → β}
    (hf : ∀ b e, e.1 ≠ k → f b e = b) (hl : (l.map Prod.fst).Nodup) (b : β) :
    (∀ v, (k, v) ∈ l → l.foldl f b = f b (k, v)) ∧ (k ∉ l.map Prod.fst → l.foldl f b = b) := by
  induction l generalizing b with
  | nil => simp
  | cons e l ih =>
    obtain ⟨hhead, htail⟩ := nodup_cons.mp hl
    rw [foldl_cons]
    constructor
    · intro v hv
      rcases mem_cons.mp hv with rfl | hv
      · exact (ih htail _).2 hhead
      · have hne : e.1 ≠ k := fun heq => hhead (mem_map.mpr ⟨(k, v), hv, heq.symm⟩)
        rw [hf b e hne]
        exact (ih htail b).1 v hv
    · intro hk
      obtain ⟨hne, hk⟩ := not_or.mp fun h => hk (mem_cons.mpr h)
      rw [hf b e (Ne.symm hne)]
      exact (ih htail b).2 hk

theorem foldl_toList {β : Type} (t : Table κ ν) {k : κ} {f : β → κ × ν → β}
    (hf : ∀ b e, e.1 ≠ k → f b e = b) (b : β) :
    t.toList.foldl f b = (lookup k t).elim b fun v => f b (k, v) := by
  obtain ⟨hsome, hnone⟩ := foldl_of_key hf t.nodup_toList b
  cases hlookup : lookup k t with
  | some v => exact hsome v (mem_toList.mpr hlookup)
  | none =>
    refine hnone fun hk => ?_
    obtain ⟨e, he, hkey⟩ := mem_map.mp hk
    rw [mem_toList.mp (show (k, e.2) ∈ t.toList from hkey ▸ he)] at hlookup
    cases hlookup

theorem lookup_eraseAll (t : Table κ ν) (keys : List κ) (k : κ) :
    lookup k (t.eraseAll keys) = if k ∈ keys then none else lookup k t := by
  induction keys generalizing t with
  | nil => rfl
  | cons k' keys ih =>
    show lookup k (eraseAll (erase k' t) keys) = _
    rw [ih]
    by_cases hk : k = k'
    · subst hk
      simp
    · rw [lookup_erase_ne hk]
      simp [hk]

end Table

end OpenData.Lib

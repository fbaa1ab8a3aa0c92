import Mathlib.Data.Finmap
import OpenData.Lib.Sorted

/-!
# Logs of updates over a finite map

An update appends an entry for a key or deletes the key. A log is a list of updates, and what it
does to a finite map is `replay`: the updates one after the other. Three other ways to use a log do
the same.
-/

namespace OpenData.Lib

open List

inductive Update (κ ν : Type) where
  | append (key : κ) (value : ν)
  | delete (key : κ)
deriving Repr, DecidableEq

namespace Update

variable {κ ν : Type}

def key : Update κ ν → κ
  | append k _ => k
  | delete k => k

def value? : Update κ ν → Option ν
  | append _ v => some v
  | delete _ => none

/-- The entries that are appended. -/
def appends (log : List (Update κ ν)) : List (κ × ν) :=
  log.filterMap fun u => u.value?.map fun v => (u.key, v)

end Update

variable {κ ν : Type} [DecidableEq κ]

def toMap (entries : List (κ × ν)) : Finmap fun _ : κ => ν :=
  entries.foldr (fun e m => m.insert e.1 e.2) ∅

@[simp] theorem toMap_nil : toMap ([] : List (κ × ν)) = ∅ := rfl

theorem lookup_toMap (entries : List (κ × ν)) (k : κ) :
    (toMap entries).lookup k = (entries.find? (·.1 = k)).map Prod.snd := by
  induction entries with
  | nil => rfl
  | cons e entries ih =>
    show ((toMap entries).insert e.1 e.2).lookup k = _
    by_cases hk : e.1 = k
    · subst hk
      simp
    · rw [Finmap.lookup_insert_of_ne _ (Ne.symm hk), ih, find?_cons_of_neg (by simpa using hk)]

variable {entries : List (κ × ν)} {k : κ}

theorem mem_iff_lookup_toMap (h : (entries.map Prod.fst).Nodup)
    {v} : (k, v) ∈ entries ↔ (toMap entries).lookup k = some v := by
  rw [lookup_toMap]
  induction entries with
  | nil => simp
  | cons e entries ih =>
    rw [map_cons, nodup_cons] at h
    by_cases hk : e.1 = k
    · subst hk
      have hnot : (e.1, v) ∉ entries := fun hmem => h.1 (mem_map.mpr ⟨_, hmem, rfl⟩)
      simp [hnot, Prod.ext_iff, eq_comm]
    · have hne : (k, v) ≠ e := fun heq => hk (congrArg Prod.fst heq).symm
      rw [mem_cons, ih h.2, find?_cons_of_neg (by simpa using hk)]
      simp [hne]

/-! ### Replay -/

namespace Update

def apply (m : Finmap fun _ : κ => ν) : Update κ ν → Finmap fun _ : κ => ν
  | append k v => m.insert k v
  | delete k => m.erase k

end Update

def replay (m : Finmap fun _ : κ => ν) (log : List (Update κ ν)) : Finmap fun _ : κ => ν :=
  log.foldl Update.apply m

variable (m : Finmap fun _ : κ => ν)

@[simp] theorem replay_nil : replay m [] = m := rfl

theorem replay_append (log log' : List (Update κ ν)) :
    replay m (log ++ log') = replay (replay m log) log' := foldl_append

def latest (k : κ) : List (Update κ ν) → Option (Update κ ν)
  | [] => none
  | u :: log => (latest k log).or (if u.key = k then some u else none)

theorem lookup_replay (log : List (Update κ ν)) (k : κ) :
    (replay m log).lookup k = (latest k log).elim (m.lookup k) Update.value? := by
  induction log generalizing m with
  | nil => rfl
  | cons u log ih =>
    show (replay (u.apply m) log).lookup k = _
    rw [ih, latest]
    cases latest k log with
    | some => rfl
    | none =>
      by_cases hk : u.key = k
      · subst hk
        cases u <;> simp [Update.apply, Update.key, Update.value?]
      · rw [if_neg hk]
        cases u with
        | append => exact Finmap.lookup_insert_of_ne _ (Ne.symm hk)
        | delete => exact Finmap.lookup_erase_ne (Ne.symm hk)

variable {log : List (Update κ ν)}

theorem latest_eq_none_iff : latest k log = none ↔ ∀ u ∈ log, u.key ≠ k := by
  induction log with
  | nil => simp [latest]
  | cons u log ih =>
    rw [latest, Option.or_eq_none_iff, ih, forall_mem_cons, and_comm]
    simp

variable {u : Update κ ν}

theorem key_of_latest (h : latest k log = some u) : u ∈ log ∧ u.key = k := by
  induction log with
  | nil => exact absurd h (by simp [latest])
  | cons u' log ih =>
    rcases Option.or_eq_some_iff.mp h with h | ⟨-, h⟩
    · exact ⟨mem_cons_of_mem _ (ih h).1, (ih h).2⟩
    · obtain ⟨hk, rfl⟩ : u'.key = k ∧ u' = u := by simpa using h
      exact ⟨mem_cons_self, hk⟩

/-! ### The last update of each key -/

def dedupe : List (Update κ ν) → List (Update κ ν)
  | [] => []
  | u :: log => if log.any (·.key = u.key) then dedupe log else u :: dedupe log

theorem mem_of_mem_dedupe (h : u ∈ dedupe log) : u ∈ log := by
  induction log with
  | nil => exact h
  | cons u' log ih =>
    rw [dedupe] at h
    split at h
    · exact mem_cons_of_mem _ (ih h)
    · rcases mem_cons.mp h with rfl | h
      · exact mem_cons_self
      · exact mem_cons_of_mem _ (ih h)

theorem latest_dedupe (k : κ) (log : List (Update κ ν)) : latest k (dedupe log) = latest k log := by
  induction log with
  | nil => rfl
  | cons u log ih =>
    rw [dedupe]
    split
    · rename_i hany
      rw [ih, latest]
      by_cases hk : u.key = k
      · -- The update is hidden by the later one.
        obtain ⟨u', hmem, hkey⟩ : ∃ u' ∈ log, u'.key = u.key := by simpa using hany
        cases hlatest : latest k log with
        | some => rfl
        | none => exact absurd (hkey.trans hk) (latest_eq_none_iff.mp hlatest u' hmem)
      · simp [hk]
    · rw [latest, ih, latest]

theorem nodup_keys_dedupe (log : List (Update κ ν)) : ((dedupe log).map Update.key).Nodup := by
  induction log with
  | nil => simp [dedupe]
  | cons u log ih =>
    rw [dedupe]
    split
    · exact ih
    · rename_i hany
      refine nodup_cons.mpr ⟨fun hmem => hany ?_, ih⟩
      obtain ⟨u', hmem', hkey⟩ := mem_map.mp hmem
      simpa using ⟨u', mem_of_mem_dedupe hmem', hkey⟩

theorem find?_eq_latest (h : (log.map Update.key).Nodup) (k : κ) :
    log.find? (·.key = k) = latest k log := by
  induction log with
  | nil => rfl
  | cons u log ih =>
    rw [map_cons, nodup_cons] at h
    rw [latest, ← ih h.2]
    by_cases hk : u.key = k
    · have hnone : log.find? (·.key = k) = none := by
        refine find?_eq_none.mpr fun u' hu' heq => h.1 ?_
        exact mem_map.mpr ⟨u', hu', by simpa [hk] using heq⟩
      simp [hk, hnone]
    · simp [hk]

theorem latest_eq_some_iff (h : (log.map Update.key).Nodup) :
    latest k log = some u ↔ u ∈ log ∧ u.key = k := by
  refine ⟨key_of_latest, fun hu => ?_⟩
  obtain ⟨hmem, hkey⟩ := hu
  induction log with
  | nil => exact absurd hmem not_mem_nil
  | cons u' log ih =>
    rw [map_cons, nodup_cons] at h
    rcases mem_cons.mp hmem with rfl | hmem
    · have hnone : latest k log = none := latest_eq_none_iff.mpr fun u' hu' heq =>
          h.1 (mem_map.mpr ⟨u', hu', heq.trans hkey.symm⟩)
      simp [latest, hnone, hkey]
    · simp [latest, ih h.2 hmem]

variable {log' : List (Update κ ν)}

theorem latest_perm (hperm : log.Perm log')
    (h : (log.map Update.key).Nodup) (k : κ) : latest k log = latest k log' := by
  refine Option.ext fun u => ?_
  rw [latest_eq_some_iff h, latest_eq_some_iff ((hperm.map Update.key).nodup_iff.mp h),
    hperm.mem_iff]

/-! ### The entries of a log -/

def logMap (log : List (Update κ ν)) : Finmap fun _ : κ => ν := toMap (Update.appends log)

omit [DecidableEq κ] in
theorem nodup_appends (h : (log.map Update.key).Nodup) :
    ((Update.appends log).map Prod.fst).Nodup := by
  refine h.sublist ?_
  induction log with
  | nil => exact Sublist.refl _
  | cons u log ih =>
    rw [map_cons, nodup_cons] at h
    cases u with
    | append k => exact (ih h.2).cons_cons k
    | delete k => exact (ih h.2).cons k

theorem lookup_logMap (h : (log.map Update.key).Nodup) (k : κ) :
    (logMap log).lookup k = (latest k log).bind Update.value? := by
  rw [logMap, lookup_toMap, ← find?_eq_latest h]
  induction log with
  | nil => rfl
  | cons u log ih =>
    rw [map_cons, nodup_cons] at h
    have hrest := ih h.2
    cases u with
    | append k' =>
      by_cases hk : k' = k
      · simp [Update.appends, Update.key, Update.value?, hk]
      · simpa [Update.appends, Update.key, Update.value?, hk] using hrest
    | delete k' =>
      by_cases hk : k' = k
      · -- A deleted key has no entry further on either.
        subst hk
        have hnone : ∀ e ∈ Update.appends log, e.1 ≠ k' := by
          rintro e he rfl
          obtain ⟨u, hu, hvalue⟩ := mem_filterMap.mp he
          obtain ⟨v, -, rfl⟩ := Option.map_eq_some_iff.mp hvalue
          exact h.1 (mem_map.mpr ⟨u, hu, rfl⟩)
        have hfind : (Update.appends log).find? (·.1 = k') = none :=
          find?_eq_none.mpr fun e he => by simpa using hnone e he
        simpa [Update.appends, Update.key, Update.value?] using hfind
      · simpa [Update.appends, Update.key, Update.value?, hk] using hrest

/-! ### Edits of a list of entries -/

def updateEntries (entries : List (κ × ν)) (log : List (Update κ ν)) : List (κ × ν) :=
  (entries.filter fun e => (dedupe log).all fun u => u.key ≠ e.1) ++ Update.appends (dedupe log)

theorem nodup_updateEntries (h : (entries.map Prod.fst).Nodup)
    (log : List (Update κ ν)) : ((updateEntries entries log).map Prod.fst).Nodup := by
  rw [updateEntries, map_append, nodup_append]
  refine ⟨h.sublist (filter_sublist.map _), nodup_appends (nodup_keys_dedupe log), ?_⟩
  rintro k hk k' hk' rfl
  obtain ⟨e, he, rfl⟩ := mem_map.mp hk
  obtain ⟨e', he', hkey⟩ := mem_map.mp hk'
  obtain ⟨u, hu, hvalue⟩ := mem_filterMap.mp he'
  obtain ⟨v, -, rfl⟩ := Option.map_eq_some_iff.mp hvalue
  have hkeep := all_eq_true.mp (mem_filter.mp he).2 u hu
  exact absurd hkey (by simpa using hkeep)

theorem toMap_updateEntries (entries : List (κ × ν)) (log : List (Update κ ν)) :
    toMap (updateEntries entries log) = replay (toMap entries) log := by
  refine Finmap.ext_lookup fun k => ?_
  have happends : ((Update.appends (dedupe log)).find? (·.1 = k)).map Prod.snd =
      (latest k log).bind Update.value? := by
    rw [← lookup_toMap, ← logMap, lookup_logMap (nodup_keys_dedupe log), latest_dedupe]
  -- What is kept of the old entries for the key: all of them, or none.
  have hkept : (entries.filter fun e => (dedupe log).all fun u => u.key ≠ e.1).find? (·.1 = k) =
      if latest k log = none then entries.find? (·.1 = k) else none := by
    rw [find?_filter]
    split
    · rename_i hnone
      congr 1
      funext e
      by_cases he : e.1 = k
      · have hall : ∀ u ∈ dedupe log, u.key ≠ k := fun u hu =>
          latest_eq_none_iff.mp hnone u (mem_of_mem_dedupe hu)
        simpa [he] using hall
      · simp [he]
    · rename_i hsome
      obtain ⟨u, hu⟩ := Option.ne_none_iff_exists'.mp hsome
      rw [← latest_dedupe] at hu
      obtain ⟨hmem, hkey⟩ := key_of_latest hu
      refine find?_eq_none.mpr fun e _ hkeep => ?_
      simp only [all_eq_true, decide_eq_true_eq] at hkeep
      exact hkeep.1 u hmem (hkey.trans hkeep.2.symm)
  rw [lookup_toMap, updateEntries, find?_append, hkept, lookup_replay, lookup_toMap]
  cases hlatest : latest k log with
  | none =>
    rw [hlatest] at happends
    have hnone : (Update.appends (dedupe log)).find? (·.1 = k) = none := by
      simpa using happends
    simp [hnone]
  | some =>
    rw [hlatest] at happends
    simpa using happends

/-! ### Logs as values -/

theorem logMap_of_latest {old new merged : List (Update κ ν)} (hold : (old.map Update.key).Nodup)
    (hmerged : (merged.map Update.key).Nodup)
    (h : ∀ k, latest k merged = (latest k new).or (latest k old)) :
    logMap merged = replay (logMap old) new := by
  refine Finmap.ext_lookup fun k => ?_
  rw [lookup_logMap hmerged, h, lookup_replay, lookup_logMap hold]
  cases latest k new <;> rfl

theorem logMap_eq_replay (h : (log.map Update.key).Nodup) : logMap log = replay ∅ log := by
  refine Finmap.ext_lookup fun k => ?_
  rw [lookup_logMap h, lookup_replay, Finmap.lookup_empty]
  cases latest k log <;> rfl

theorem replay_congr (h : ∀ k, latest k log = latest k log')
    (m : Finmap fun _ : κ => ν) : replay m log = replay m log' := by
  refine Finmap.ext_lookup fun k => ?_
  rw [lookup_replay, lookup_replay, h]

end OpenData.Lib

import OpenData.Lib.Monadic
import OpenData.Vector.Centroids

/-!
# Posting lists as finite maps

A posting list is stored as a sorted log of updates and kept in memory as a list of entries. What it
means is a finite map from ids to vectors: `logMap` of the log, `toMap` of the list. Every way to
change a posting list is a replay of updates on this map.
-/

namespace OpenData.Vector

open Lib

variable {V : Type}

/-! ### Results -/

@[simp] theorem ensure_eq_ok {c : Prop} [Decidable c] {u} : ensure c = .ok u ↔ c := by
  unfold ensure
  split <;> simp [*]

@[simp] theorem expect_eq_ok {α : Type} {x} {a : α} : expect x = .ok a ↔ x = some a := by
  cases x <;> simp [expect]

theorem of_ensure_bind {α : Type} {c : Prop} [Decidable c] {f : Unit → Result α} {a}
    (h : ensure c >>= f = .ok a) : c ∧ f () = .ok a := by
  obtain ⟨u, hu, hrest⟩ := exists_of_bind_eq_ok h
  exact ⟨ensure_eq_ok.mp hu, hrest⟩

theorem of_expect_bind {α β : Type} {x} {f : α → Result β} {b : β}
    (h : expect x >>= f = .ok b) : ∃ a, x = some a ∧ f a = .ok b := by
  obtain ⟨a, ha, hrest⟩ := exists_of_bind_eq_ok h
  exact ⟨a, expect_eq_ok.mp ha, hrest⟩

/-! ### Stored lists -/

variable (value : PostingListValue V) (updates : List (PostingUpdate V))

namespace PostingListValue

theorem nodup_keys : (value.postings.map Update.key).Nodup := by
  refine List.pairwise_map.mpr (value.sorted.imp fun h heq => ?_)
  exact absurd (congrArg VectorId.id heq) h.ne

theorem latest_fromPostingUpdates (k : VectorId) (updates : List (PostingUpdate V)) :
    latest k (fromPostingUpdates updates).postings = latest k updates := by
  rw [← latest_dedupe k updates]
  exact latest_perm (perm_sortBy _ _) (nodup_keys (fromPostingUpdates updates)) k

theorem logMap_fromPostingUpdates :
    logMap (fromPostingUpdates updates).postings = replay ∅ updates := by
  rw [logMap_eq_replay (nodup_keys _)]
  exact replay_congr (fun k => latest_fromPostingUpdates k updates) ∅

variable (existing : Option (PostingListValue V))

theorem logMap_mergeBatch (value : PostingListValue V) :
    logMap (mergeBatch existing [value]).postings =
      replay (existing.elim ∅ fun old => logMap old.postings) value.postings := by
  cases existing with
  | none => exact logMap_eq_replay value.nodup_keys
  | some old =>
    refine logMap_of_latest old.nodup_keys (nodup_keys _) fun k => ?_
    have hsorted : ∀ s ∈ [old.postings, value.postings],
        s.Pairwise fun u u' : PostingUpdate V => u.key.id < u'.key.id := by
      simpa using ⟨old.sorted, value.sorted⟩
    have hkey : (fun u : PostingUpdate V => decide (u.key = k)) =
        fun u => decide (u.key.id = k.id) := by
      funext u
      exact decide_eq_decide.mpr VectorId.id_injective.eq_iff.symm
    rw [← find?_eq_latest (nodup_keys _), ← find?_eq_latest value.nodup_keys,
      ← find?_eq_latest old.nodup_keys, hkey]
    show (kWayMerge (fun u => u.key.id) [old.postings, value.postings]).find? _ = _
    rw [kWayMerge_eq hsorted, find?_lastWinsMerge]
    simp [lastWins]

theorem logMap_mergeBatch_fromPostingUpdates :
    logMap (mergeBatch existing [fromPostingUpdates updates]).postings =
      replay (existing.elim ∅ fun old => logMap old.postings) updates := by
  rw [logMap_mergeBatch]
  exact replay_congr (fun k => latest_fromPostingUpdates k updates) _

end PostingListValue

/-! ### Lists in memory -/

namespace PostingList

theorem nodup_fromValue : ((fromValue value).map Prod.fst).Nodup := nodup_appends value.nodup_keys

theorem toMap_update (postings : PostingList V) (updates : List (PostingUpdate V)) :
    toMap (postings.update updates) = replay (toMap postings) updates :=
  toMap_updateEntries postings updates

theorem nodup_update {postings : PostingList V} (h : (postings.map Prod.fst).Nodup)
    (updates : List (PostingUpdate V)) : ((postings.update updates).map Prod.fst).Nodup :=
  nodup_updateEntries h updates

end PostingList

/-- The list stands for the map, without duplicates. -/
structure Represents (postings : PostingList V) (m : Finmap fun _ : VectorId => V) : Prop where
  map_eq : toMap postings = m
  nodup : (postings.map Prod.fst).Nodup

namespace Represents

variable {postings : PostingList V} {m : Finmap fun _ : VectorId => V}

theorem mem_iff (h : Represents postings m) {x v} : (x, v) ∈ postings ↔ m.lookup x = some v := by
  rw [mem_iff_lookup_toMap h.nodup, h.map_eq]

theorem mem_map (h : Represents postings m) {p} (hp : p ∈ postings) : p.1 ∈ m :=
  Finmap.mem_of_lookup_eq_some (h.mem_iff.mp hp)

theorem update (h : Represents postings m) (updates : List (PostingUpdate V)) :
    Represents (PostingList.update postings updates) (replay m updates) :=
  ⟨by rw [PostingList.toMap_update, h.map_eq], PostingList.nodup_update h.nodup updates⟩

theorem fromValue : Represents (PostingList.fromValue value) (logMap value.postings) :=
  ⟨rfl, PostingList.nodup_fromValue value⟩

theorem fromPostingUpdates :
    Represents (PostingList.fromValue (PostingListValue.fromPostingUpdates updates))
      (replay ∅ updates) :=
  PostingListValue.logMap_fromPostingUpdates updates ▸ fromValue _

theorem nil : Represents ([] : PostingList V) ∅ := ⟨rfl, List.nodup_nil⟩

theorem eq_nil (h : Represents postings ∅) : postings = [] := by
  refine List.eq_nil_iff_forall_not_mem.mpr fun p hp => ?_
  exact absurd (h.mem_map hp) (Finmap.notMem_empty)

end Represents

end OpenData.Vector

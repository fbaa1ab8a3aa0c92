import Mathlib.Data.List.Induction
import Mathlib.Data.List.TakeWhile
import OpenData.Buffer.Spec

/-!
# The queue after a list of calls

The facts about `Queue.after` and `contributions` that need no bytes and no interleaving. All of
them go by induction on the calls, the last call at the end.
-/

namespace OpenData.Buffer

open List Queue

variable {calls : List (OpId × Call)} {op : OpId} {call : Call}

/-! ### One more call -/

theorem Queue.after_append (calls : List (OpId × Call)) (op : OpId) (call : Call) :
    after (calls ++ [(op, call)]) = (after calls).apply call := by
  rw [after, foldl_append]
  rfl

theorem enqueuesOf_append_enqueue (calls : List (OpId × Call)) (op : OpId) (location : String)
    (metadata : List Metadata) : enqueuesOf (calls ++ [(op, .enqueue location metadata)])
      = enqueuesOf calls ++ [(op, location, metadata)] := by
  rw [enqueuesOf, filterMap_append]
  rfl

def Call.NoEnqueue (call : Call) : Prop := ∀ location metadata, call ≠ .enqueue location metadata

theorem enqueuesOf_append_other (calls : List (OpId × Call)) (op : OpId) (h : call.NoEnqueue) :
    enqueuesOf (calls ++ [(op, call)]) = enqueuesOf calls := by
  rw [enqueuesOf, filterMap_append]
  cases call with
  | enqueue location metadata => exact absurd rfl (h location metadata)
  | initializeConsumer | peek | read | dequeue => exact append_nil _

theorem contributions_append_enqueue (calls : List (OpId × Call)) (op : OpId) (location : String)
    (metadata : List Metadata) :
    contributions (calls ++ [(op, .enqueue location metadata)]) = contributions calls ++
      [(op, { sequence := UInt64.ofNat (enqueuesOf calls).length, location, metadata })] := by
  rw [contributions, enqueuesOf_append_enqueue, mapIdx_concat]
  rfl

theorem contributions_append_other (calls : List (OpId × Call)) (op : OpId) (h : call.NoEnqueue) :
    contributions (calls ++ [(op, call)]) = contributions calls := by
  rw [contributions, enqueuesOf_append_other calls op h]
  rfl

@[simp] theorem length_contributions (calls : List (OpId × Call)) :
    (contributions calls).length = (enqueuesOf calls).length := by
  simp [contributions]

theorem calls_induction {P : List (OpId × Call) → Prop} (calls : List (OpId × Call)) (nil : P [])
    (enqueue : ∀ calls op location metadata, P calls →
      P (calls ++ [(op, .enqueue location metadata)]))
    (other : ∀ calls op call, call.NoEnqueue → P calls → P (calls ++ [(op, call)])) : P calls := by
  induction calls using List.reverseRecOn with
  | nil => exact nil
  | append_singleton calls c ih =>
    obtain ⟨op, call⟩ := c
    cases call with
    | enqueue location metadata => exact enqueue calls op location metadata ih
    | initializeConsumer | peek | read | dequeue => exact other calls op _ nofun ih

/-! ### Numbers -/

theorem apply_other (q : Queue) (h : call.NoEnqueue) :
    (q.apply call).nextSequence = q.nextSequence ∧ (q.apply call).entries <:+ q.entries := by
  cases call with
  | enqueue location metadata => exact absurd rfl (h location metadata)
  | initializeConsumer | peek | read => exact ⟨rfl, suffix_rfl⟩
  | dequeue c throughSequence => exact ⟨rfl, dropWhile_suffix _⟩

theorem after_nextSequence (calls : List (OpId × Call)) :
    (after calls).nextSequence = UInt64.ofNat (enqueuesOf calls).length := by
  induction calls using calls_induction with
  | nil => rfl
  | enqueue calls op location metadata ih =>
    rw [after_append, enqueuesOf_append_enqueue, length_append]
    show (after calls).nextSequence + 1 = _
    rw [ih, UInt64.ofNat_add]
    rfl
  | other calls op call h ih =>
    rw [after_append, enqueuesOf_append_other _ _ h, (apply_other _ h).1, ih]

theorem after_entries (calls : List (OpId × Call)) :
    (after calls).entries <:+ (contributions calls).map Prod.snd := by
  induction calls using calls_induction with
  | nil => exact suffix_rfl
  | enqueue calls op location metadata ih =>
    -- Both lists grow by the same entry.
    obtain ⟨gone, hgone⟩ := ih
    rw [after_append, contributions_append_enqueue, map_append, ← after_nextSequence, ← hgone]
    exact ⟨gone, (append_assoc ..).symm⟩
  | other calls op call h ih =>
    rw [after_append, contributions_append_other _ _ h]
    exact (apply_other _ h).2.trans ih

theorem contributions_sequence (h : (enqueuesOf calls).length < 2 ^ 64) :
    (contributions calls).map (fun p => p.2.sequence.toNat)
      = range' 0 (enqueuesOf calls).length := by
  apply ext_getElem
  · simp
  · intro i hi hi'
    have hlt : i < (enqueuesOf calls).length := by simpa using hi
    simp only [contributions, getElem_map, getElem_mapIdx, getElem_range', UInt64.toNat_ofNat']
    omega

theorem after_consecutive (h : (enqueuesOf calls).length < 2 ^ 64) :
    ∃ first, (after calls).entries.map (fun e => e.sequence.toNat)
        = range' first (after calls).entries.length ∧
      first + (after calls).entries.length = (enqueuesOf calls).length := by
  have hsuffix := (after_entries calls).map (fun e => e.sequence.toNat)
  have hle : (after calls).entries.length ≤ (enqueuesOf calls).length := by
    simpa using (after_entries calls).length_le
  rw [map_map] at hsuffix
  change _ <:+ (contributions calls).map (fun p => p.2.sequence.toNat) at hsuffix
  rw [contributions_sequence h, suffix_iff_eq_drop, drop_range'] at hsuffix
  simp only [length_map, length_range', Nat.mul_one, Nat.zero_add] at hsuffix
  refine ⟨(enqueuesOf calls).length - (after calls).entries.length, ?_, by omega⟩
  rw [hsuffix]
  congr 1
  omega

/-! ### Who added what -/

variable {e : QueueEntry}

theorem mem_contributions :
    (op, e) ∈ contributions calls → (op, .enqueue e.location e.metadata) ∈ calls := by
  induction calls using calls_induction with
  | nil => exact fun h => absurd h not_mem_nil
  | enqueue calls op' location metadata ih =>
    intro h
    rw [contributions_append_enqueue, mem_append, mem_singleton] at h
    rcases h with h | h
    · exact mem_append_left _ (ih h)
    · obtain ⟨rfl, rfl⟩ := Prod.mk.inj h
      exact mem_append_right _ (mem_singleton.mpr rfl)
  | other calls op' call h ih =>
    intro hmem
    rw [contributions_append_other _ _ h] at hmem
    exact mem_append_left _ (ih hmem)

theorem count_enqueuesOf (op : OpId) (calls : List (OpId × Call)) :
    (∀ call, (op, call) ∈ calls → ¬ call.NoEnqueue) →
      ((enqueuesOf calls).map Prod.fst).count op = (calls.map Prod.fst).count op := by
  induction calls using calls_induction with
  | nil => exact fun _ => rfl
  | enqueue calls op' location metadata ih =>
    intro h
    have hrest := ih fun call' hcall' => h call' (mem_append_left _ hcall')
    rw [enqueuesOf_append_enqueue, map_append, map_append, count_append, count_append, hrest]
    rfl
  | other calls op' call hno ih =>
    intro h
    have hrest := ih fun call' hcall' => h call' (mem_append_left _ hcall')
    have hne : op' ≠ op := by
      rintro rfl
      exact h call (mem_append_right _ (mem_singleton.mpr rfl)) hno
    rw [enqueuesOf_append_other _ _ hno, hrest, map_append, count_append]
    simp [hne]

theorem length_filter_contributions (calls : List (OpId × Call)) (op : OpId) :
    ((contributions calls).filter (fun p => p.1 == op)).length
      = ((enqueuesOf calls).map Prod.fst).count op := by
  have hfst : (contributions calls).map Prod.fst = (enqueuesOf calls).map Prod.fst := by
    apply ext_getElem
    · simp
    · intro i hi hi'
      simp [contributions]
  rw [← hfst, List.count, countP_map, ← countP_eq_length_filter]
  rfl

theorem filter_contributions {location metadata}
    (hown : ∀ call, (op, call) ∈ calls → call = .enqueue location metadata)
    (honce : (calls.map Prod.fst).count op = 1) :
    ∃ e, (contributions calls).filter (fun p => p.1 == op) = [(op, e)] ∧
      e.location = location ∧ e.metadata = metadata := by
  have hcount := count_enqueuesOf op calls
    fun call hcall hno => hno location metadata (hown call hcall)
  have hlen := length_filter_contributions calls op
  rw [hcount, honce, length_eq_one_iff] at hlen
  obtain ⟨⟨op', e⟩, hfilter⟩ := hlen
  have hmem : (op', e) ∈ (contributions calls).filter (fun p => p.1 == op) := by
    rw [hfilter]
    exact mem_singleton.mpr rfl
  rw [mem_filter] at hmem
  have hop : op' = op := by simpa using hmem.2
  subst hop
  have hcall := hown _ (mem_contributions hmem.1)
  obtain ⟨hloc, hmeta⟩ := Call.enqueue.inj hcall
  exact ⟨e, hfilter, hloc, hmeta⟩

theorem filter_contributions_nil (hnone : (calls.map Prod.fst).count op = 0) :
    (contributions calls).filter (fun p => p.1 == op) = [] := by
  have hnot : op ∉ calls.map Prod.fst := count_eq_zero.mp hnone
  rw [filter_eq_nil_iff]
  rintro ⟨op', e⟩ hmem heq
  have hop : op' = op := by simpa using heq
  subst hop
  exact hnot (mem_map_of_mem (mem_contributions hmem))

/-! ### The front of the queue -/

/-- How many entries have left the queue. They left from the front, so this is also the number of
the first entry that is still there, or the next number when none is. -/
def front (calls : List (OpId × Call)) : Nat :=
  (enqueuesOf calls).length - (after calls).entries.length

theorem front_add_length (calls : List (OpId × Call)) :
    front calls + (after calls).entries.length = (enqueuesOf calls).length := by
  have hle := (after_entries calls).length_le
  rw [length_map, length_contributions] at hle
  rw [front]
  omega

theorem after_entries_eq_drop (calls : List (OpId × Call)) :
    (after calls).entries = ((contributions calls).map Prod.snd).drop (front calls) := by
  have h := suffix_iff_eq_drop.mp (after_entries calls)
  rw [length_map, length_contributions] at h
  exact h

section

variable (h : (enqueuesOf calls).length < 2 ^ 64)
include h

theorem sequence_after_entries : (after calls).entries.map (fun e => e.sequence.toNat)
      = range' (front calls) (after calls).entries.length := by
  obtain ⟨first, hseq, hlen⟩ := after_consecutive h
  have hfront := front_add_length calls
  rw [hseq, show first = front calls by omega]

theorem front_le_of_mem (he : e ∈ (after calls).entries) :
    front calls ≤ e.sequence.toNat ∧ e.sequence.toNat < (enqueuesOf calls).length := by
  have hmem := mem_map_of_mem (f := fun e : QueueEntry => e.sequence.toNat) he
  have hfront := front_add_length calls
  rw [sequence_after_entries h, mem_range'_1] at hmem
  omega

theorem mem_entries_of_front_le
    (he : (op, e) ∈ contributions calls) (hfront : front calls ≤ e.sequence.toNat) :
    e ∈ (after calls).entries := by
  obtain ⟨i, hi, hget⟩ := mem_iff_getElem.mp he
  have hseq : e.sequence.toNat = i := by
    have hnum := congrArg (fun l : List Nat => l[i]?) (contributions_sequence h)
    rw [length_contributions] at hi
    simpa [hget, hi] using hnum
  rw [after_entries_eq_drop, mem_iff_getElem]
  refine ⟨i - front calls, by simp; rw [length_contributions] at hi; omega, ?_⟩
  have hadd : front calls + (i - front calls) = i := by omega
  simp [hadd, hget]

end

theorem length_takeWhile_of_range' {α : Type} (f : α → Nat) (t : Nat) (l : List α) (a : Nat)
    (h : l.map f = range' a l.length) :
    (l.takeWhile (fun x => decide (f x ≤ t))).length = min l.length (t + 1 - a) := by
  induction l generalizing a with
  | nil => simp
  | cons x l ih =>
    rw [map_cons, length_cons, List.range'_succ] at h
    obtain ⟨hx, hl⟩ := List.cons.inj h
    have ih' := ih (a + 1) hl
    by_cases hle : a ≤ t
    · simp only [hx, hle, takeWhile_cons, decide_true, if_true, length_cons, ih']
      omega
    · simp only [hx, hle, takeWhile_cons, decide_false, length_cons]
      simp
      omega

theorem length_removed (h : (enqueuesOf calls).length < 2 ^ 64) (throughSequence : UInt64) :
    ((after calls).removed throughSequence).length
      = min (after calls).entries.length (throughSequence.toNat + 1 - front calls) := by
  have hle : (fun e : QueueEntry => decide (e.sequence ≤ throughSequence))
      = fun e => decide (e.sequence.toNat ≤ throughSequence.toNat) := by
    funext e
    exact decide_eq_decide.mpr UInt64.le_iff_toNat_le
  rw [← length_takeWhile_of_range' _ _ _ _ (sequence_after_entries h), ← hle]
  rfl

theorem front_dequeue (h : (enqueuesOf calls).length < 2 ^ 64) (op : OpId) (c : ConsumerId)
    (throughSequence : UInt64) : front (calls ++ [(op, .dequeue c throughSequence)])
      = max (front calls) (min (enqueuesOf calls).length (throughSequence.toNat + 1)) := by
  have hno : (Call.dequeue c throughSequence).NoEnqueue := nofun
  have hsplit : (after calls).entries.length = ((after calls).removed throughSequence).length
        + ((after calls).dequeue throughSequence).entries.length := by
    rw [← length_append]
    exact congrArg List.length takeWhile_append_dropWhile.symm
  have hremoved := length_removed h throughSequence
  have hfront := front_add_length calls
  rw [front, enqueuesOf_append_other _ _ hno, after_append]
  show _ - ((after calls).dequeue throughSequence).entries.length = _
  omega

theorem front_enqueue (calls : List (OpId × Call)) (op : OpId) (location : String)
    (metadata : List Metadata) :
    front (calls ++ [(op, .enqueue location metadata)]) = front calls := by
  rw [front, enqueuesOf_append_enqueue, after_append, length_append]
  show _ - ((after calls).entries ++ [_]).length = _
  rw [length_append, length_singleton, length_singleton, front]
  omega

theorem front_append_of_not_dequeue (calls : List (OpId × Call)) (op : OpId)
    (h : ∀ c throughSequence, call ≠ .dequeue c throughSequence) :
    front (calls ++ [(op, call)]) = front calls := by
  cases call with
  | enqueue location metadata => exact front_enqueue calls op location metadata
  | dequeue c throughSequence => exact absurd rfl (h c throughSequence)
  | initializeConsumer c =>
    have hno : (Call.initializeConsumer c).NoEnqueue := nofun
    rw [front, enqueuesOf_append_other _ _ hno, after_append]
    rfl
  | peek c =>
    have hno : (Call.peek c).NoEnqueue := nofun
    rw [front, enqueuesOf_append_other _ _ hno, after_append]
    rfl
  | read c sequence =>
    have hno : (Call.read c sequence).NoEnqueue := nofun
    rw [front, enqueuesOf_append_other _ _ hno, after_append]
    rfl

theorem front_append_le (calls : List (OpId × Call)) (op : OpId) (call : Call) :
    front calls ≤ front (calls ++ [(op, call)]) := by
  by_cases hno : call.NoEnqueue
  · have hle := (apply_other (after calls) hno).2.length_le
    rw [front, front, enqueuesOf_append_other _ _ hno, after_append]
    omega
  · cases call with
    | enqueue => rw [front_enqueue]
    | initializeConsumer | peek | read | dequeue => exact absurd nofun hno

theorem front_mono {calls'} (h : calls <+: calls') : front calls ≤ front calls' := by
  obtain ⟨more, rfl⟩ := h
  induction more using List.reverseRecOn with
  | nil => rw [append_nil]
  | append_singleton more call ih =>
    rw [← append_assoc]
    exact Nat.le_trans ih (front_append_le _ _ _)

end OpenData.Buffer

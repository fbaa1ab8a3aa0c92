import OpenData.Lib.Sorted

/-!
# Keeping the smallest elements of a stream

A bounded collection keeps the `k` elements of a stream with the smallest keys, each key once.
`Kept key k s r` says that `r` is what it holds after the elements `s`: what is left out has a
larger key than everything that is kept, and then the collection is full. It does not speak of an
order in `r`. The ways a step changes the collection are `Kept.skip`, `Kept.add`, `Kept.replace`
and `Kept.reject`.
-/

namespace OpenData.Lib

open List

variable {α κ : Type} [LinearOrder κ] (key : α → κ) (k : Nat)

/-- `r` holds the `k` elements of `s` with the smallest keys, in some order. -/
structure Kept (s r : List α) : Prop where
  nodup : (r.map key).Nodup
  mem : ∀ a ∈ r, a ∈ s
  length_le : r.length ≤ k
  full : ∀ a ∈ s, a ∉ r → r.length = k ∧ ∀ b ∈ r, key b < key a

/-- `r` is the list of the `k` elements of `s` with the smallest keys, in order. -/
structure Smallest (s r : List α) : Prop where
  kept : Kept key k s r
  increasing : r.Pairwise fun a b => key a < key b

variable {key k} {s r r' : List α} {a c worst : α}

theorem Kept.nil : Kept key k [] [] := ⟨nodup_nil, by simp, Nat.zero_le k, by simp⟩

theorem Kept.perm (h : Kept key k s r) (hperm : r'.Perm r) : Kept key k s r' where
  nodup := (hperm.map key).nodup_iff.mpr h.nodup
  mem b hb := h.mem b (hperm.mem_iff.mp hb)
  length_le := hperm.length_eq ▸ h.length_le
  full b hb hnot := by
    obtain ⟨hlen, hlt⟩ := h.full b hb (fun hin => hnot (hperm.mem_iff.mpr hin))
    exact ⟨hperm.length_eq.trans hlen, fun b' hb' => hlt b' (hperm.mem_iff.mp hb')⟩

variable {s' : List α}

section

variable (h : Kept key k s r)
include h

theorem Kept.congr (hs : ∀ a, a ∈ s ↔ a ∈ s') :
    Kept key k s' r :=
  ⟨h.nodup, fun a ha => (hs a).mp (h.mem a ha), h.length_le, fun a ha => h.full a ((hs a).mpr ha)⟩

theorem Kept.length_eq (hs : s.Nodup) : r.length = min k s.length := by
  have hle := (subperm_of_subset (h.nodup.of_map key) h.mem).length_le
  have hk := h.length_le
  by_cases hall : ∀ a ∈ s, a ∈ r
  · have hge := (subperm_of_subset hs hall).length_le
    omega
  · obtain ⟨a, ha, hnot⟩ : ∃ a ∈ s, a ∉ r := by simpa using hall
    have hfull := (h.full a ha hnot).1
    omega

theorem Kept.append
    (hc : c ∉ r → r.length = k ∧ ∀ b ∈ r, key b < key c) : Kept key k (s ++ [c]) r where
  nodup := h.nodup
  mem b hb := mem_append_left _ (h.mem b hb)
  length_le := h.length_le
  full b hb hnot := by
    rcases mem_append.mp hb with hb | hb
    · exact h.full b hb hnot
    · obtain rfl := mem_singleton.mp hb
      exact hc hnot

theorem Kept.skip (hc : c ∈ r) : Kept key k (s ++ [c]) r := h.append fun hnot => absurd hc hnot

theorem Kept.add (hroom : r.length < k) (hc : key c ∉ r.map key) :
    Kept key k (s ++ [c]) (c :: r) where
  nodup := nodup_cons.mpr ⟨hc, h.nodup⟩
  mem b hb := by
    rcases mem_cons.mp hb with rfl | hb
    · simp
    · exact mem_append_left _ (h.mem b hb)
  length_le := hroom
  full b hb hnot := by
    rcases mem_append.mp hb with hb | hb
    · have hlen := (h.full b hb (fun hin => hnot (mem_cons_of_mem _ hin))).1
      omega
    · exact absurd (mem_singleton.mp hb ▸ mem_cons_self) hnot

end

theorem Kept.replace (h : Kept key k s (worst :: r)) (hfull : (worst :: r).length = k)
    (hworst : ∀ b ∈ r, key b < key worst) (hlt : key c < key worst) (hc : key c ∉ r.map key) :
    Kept key k (s ++ [c]) (c :: r) where
  nodup := nodup_cons.mpr ⟨hc, (nodup_cons.mp h.nodup).2⟩
  mem b hb := by
    rcases mem_cons.mp hb with rfl | hb
    · simp
    · exact mem_append_left _ (h.mem b (mem_cons_of_mem _ hb))
  length_le := by simpa using hfull.le
  full b hb hnot := by
    refine ⟨by simpa using hfull, ?_⟩
    have hbelow : ∀ b' ∈ c :: r, key b' < key worst := by
      intro b' hb'
      rcases mem_cons.mp hb' with rfl | hb'
      · exact hlt
      · exact hworst b' hb'
    rcases mem_append.mp hb with hb | hb
    · by_cases hw : b = worst
      · subst hw
        exact hbelow
      · -- What was left out before is larger than the largest.
        have hb' := (h.full b hb (by
          intro hin
          rcases mem_cons.mp hin with hin | hin
          · exact hw hin
          · exact hnot (mem_cons_of_mem _ hin))).2 worst mem_cons_self
        exact fun b'' hb'' => (hbelow b'' hb'').trans hb'
    · exact absurd (mem_singleton.mp hb ▸ mem_cons_self) hnot

theorem Kept.reject (h : Kept key k s r) (hfull : r.length = k) (hlt : ∀ b ∈ r, key b < key c) :
    Kept key k (s ++ [c]) r :=
  h.append fun _ => ⟨hfull, hlt⟩

/-! ### Bounded heaps -/

def heapPush (key : α → κ) (heap : List α) (c : α) : List α :=
  heap.orderedInsert (fun a b => key b ≤ key a) c

/-- With `k` elements in the heap, a smaller one takes the place of the largest. -/
def heapOffer (key : α → κ) (k : Nat) (heap : List α) (c : α) : List α :=
  if heap.length < k then heapPush key heap c
  else match heap with
    | [] => []
    | worst :: rest => if key c < key worst then heapPush key rest c else worst :: rest

structure KeptHeap (key : α → κ) (k : Nat) (s heap : List α) : Prop extends Kept key k s heap where
  descending : heap.Pairwise fun a b => key b ≤ key a

theorem descending_heapPush {heap} (h : heap.Pairwise fun a b => key b ≤ key a) (c : α) :
    (heapPush key heap c).Pairwise fun a b => key b ≤ key a := by
  have htotal : Std.Total (fun a b : α => key b ≤ key a) := ⟨fun a b => le_total (key b) (key a)⟩
  have htrans : IsTrans α (fun a b => key b ≤ key a) := ⟨fun _ _ _ hab hbc => hbc.trans hab⟩
  exact h.orderedInsert c heap

theorem KeptHeap.offer {heap} (h : KeptHeap key k s heap) (hk : k ≠ 0)
    (hnew : key c ∉ heap.map key) : KeptHeap key k (s ++ [c]) (heapOffer key k heap c) := by
  rw [heapOffer.eq_def]
  split
  · rename_i hroom
    exact ⟨(h.toKept.add hroom hnew).perm (perm_orderedInsert _ c heap),
      descending_heapPush h.descending c⟩
  · rename_i hroom
    have hfull : heap.length = k := Nat.le_antisymm h.length_le (Nat.le_of_not_lt hroom)
    cases heap with
    | nil => exact absurd hfull.symm hk
    | cons worst rest =>
      obtain ⟨hle, hrest⟩ := pairwise_cons.mp h.descending
      rw [map_cons, mem_cons, not_or] at hnew
      have hlt : ∀ b ∈ rest, key b < key worst := by
        intro b hb
        refine lt_of_le_of_ne (hle b hb) ?_
        intro heq
        exact (nodup_cons.mp h.nodup).1 (mem_map.mpr ⟨b, hb, heq⟩)
      dsimp only
      split
      · rename_i hsmaller
        exact ⟨(h.toKept.replace hfull hlt hsmaller hnew.2).perm (perm_orderedInsert _ c rest),
          descending_heapPush hrest c⟩
      · rename_i hsmaller
        -- Not smaller than the largest, and not equal to it, since its key is not in the heap.
        have hworst : key worst < key c := lt_of_le_of_ne (not_lt.mp hsmaller) (Ne.symm hnew.1)
        refine ⟨h.toKept.reject hfull ?_, h.descending⟩
        intro b hb
        rcases mem_cons.mp hb with rfl | hb
        · exact hworst
        · exact (hlt b hb).trans hworst

theorem Kept.subset (h : Kept key k s r) (h' : Kept key k s' r')
    (hs : ∀ a, a ∈ s ↔ a ∈ s') : r ⊆ r' := by
  intro a ha
  by_contra hnot
  obtain ⟨hlen, hlt⟩ := h'.full a ((hs a).mp (h.mem a ha)) hnot
  -- Something of the other collection is missing here, since `a` is extra.
  obtain ⟨b, hb, hbr⟩ : ∃ b ∈ r', b ∉ r := by
    by_contra hnone
    have hall : r' ⊆ r := fun b hb => by_contra fun hbr => hnone ⟨b, hb, hbr⟩
    have hsub : a :: r' ⊆ r := cons_subset.mpr ⟨ha, hall⟩
    have hnodup : (a :: r').Nodup := nodup_cons.mpr ⟨hnot, h'.nodup.of_map key⟩
    have hle := (subperm_of_subset hnodup hsub).length_le
    have hk := h.length_le
    rw [length_cons] at hle
    omega
  have hab := (h.full b ((hs b).mpr (h'.mem b hb)) hbr).2 a ha
  exact lt_asymm hab (hlt b hb)

theorem Smallest.unique (h : Smallest key k s r) (h' : Smallest key k s' r')
    (hs : ∀ a, a ∈ s ↔ a ∈ s') : r = r' := by
  have hperm : r.Perm r' := by
    refine (perm_ext_iff_of_nodup (h.kept.nodup.of_map key) (h'.kept.nodup.of_map key)).mpr ?_
    intro a
    exact ⟨fun ha => h.kept.subset h'.kept hs ha,
      fun ha => h'.kept.subset h.kept (fun a => (hs a).symm) ha⟩
  refine hperm.eq_of_pairwise ?_ h.increasing h'.increasing
  intro a b _ _ hab hba
  exact absurd hba (lt_asymm hab)

end OpenData.Lib

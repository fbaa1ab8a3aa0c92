import Mathlib.Data.Nat.Dist
import OpenData.Lib.Monadic
import OpenData.Lib.Smallest
import OpenData.Vector.Centroids

/-!
# The nearest postings

`score_and_rank` walks the postings once with a bounded heap and the set of the ids in it. After
each posting the heap holds the `k` nearest of those seen, each once (`kept_keepBest`). An id that
left the heap and comes again carries the same vector, so it is as far away as before and is
rejected again. The other path, for `k = usize::MAX`, sorts all postings. Both give the list that
`Smallest` describes, which does not depend on how the postings are split over lists
(`scoreAndRank_nearest`). The heap is allocated for `k` items beforehand, which is a panic where
that is too much (`scoreAndRank_overflow`).
-/

namespace OpenData.Vector

open Lib List

variable {level : Nat}

section
variable {V D : Type} [LinearOrder D] (dist : V → V → D) (query : V)

/-- Equal ids carry equal vectors. -/
def Agreeing (postings : PostingList V) : Prop :=
  ∀ p ∈ postings, ∀ q ∈ postings, p.1 = q.1 → p.2 = q.2

variable {dist query}

omit [LinearOrder D] in
theorem id_eq_of_rank_eq {p q} (h : rank dist query p = rank dist query q) : p.1 = q.1 := by
  have hid := congrArg (fun x => (ofLex x).2) h
  exact VectorId.id_injective hid

omit [LinearOrder D] in
theorem rank_notMem_of_id_notMem {heap : PostingList V} {c}
    (h : c.1 ∉ heap.map Prod.fst) : rank dist query c ∉ heap.map (rank dist query) := by
  intro hmem
  obtain ⟨p, hp, heq⟩ := mem_map.mp hmem
  exact h (mem_map.mpr ⟨p, hp, id_eq_of_rank_eq heq⟩)

variable {k : Nat} {done heap : PostingList V}

theorem kept_keepBest (hk : k ≠ 0) {c : Posting V} (hagree : Agreeing (done ++ [c]))
    (h : KeptHeap (rank dist query) k done heap) :
    KeptHeap (rank dist query) k (done ++ [c]) (keepBest dist query k heap c) := by
  have hkeep : keepBest dist query k heap c =
      if c.1 ∈ heap.map Prod.fst then heap else heapOffer (rank dist query) k heap c := by
    cases heap <;> rfl
  rw [hkeep]
  split
  · -- The id is in the heap, and with it this posting.
    rename_i hid
    obtain ⟨p, hp, heq⟩ := mem_map.mp hid
    have hvec : p.2 = c.2 := hagree p (mem_append_left _ (h.mem p hp)) c (by simp) heq
    obtain rfl : p = c := Prod.ext heq hvec
    exact ⟨h.toKept.skip hp, h.descending⟩
  · rename_i hid
    exact h.offer hk (rank_notMem_of_id_notMem hid)

theorem kept_foldl_keepBest (hk : k ≠ 0) (postings : PostingList V)
    (hagree : Agreeing (done ++ postings)) (h : KeptHeap (rank dist query) k done heap) :
    KeptHeap (rank dist query) k (done ++ postings)
      (postings.foldl (keepBest dist query k) heap) := by
  induction postings generalizing done heap with
  | nil => simpa using h
  | cons c postings ih =>
    have hone : Agreeing (done ++ [c]) := by
      intro p hp q hq
      refine hagree p ?_ q ?_
      · simp only [mem_append, mem_cons] at hp ⊢
        tauto
      · simp only [mem_append, mem_cons] at hq ⊢
        tauto
    have hall := ih (by simpa using hagree) (kept_keepBest hk hone h)
    simpa using hall

theorem smallest_heap (hk : k ≠ 0) (postings : PostingList V) (hagree : Agreeing postings) :
    Smallest (rank dist query) k postings (postings.foldl (keepBest dist query k) []).reverse := by
  have hagree' : Agreeing ([] ++ postings) := hagree
  obtain ⟨hkept, hdesc⟩ := @kept_foldl_keepBest _ _ _ dist query k _ _ hk postings hagree'
    ⟨Kept.nil, Pairwise.nil⟩
  refine ⟨hkept.perm (reverse_perm _), ?_⟩
  rw [pairwise_reverse]
  have hne : (postings.foldl (keepBest dist query k) []).Pairwise
      fun a b => rank dist query a ≠ rank dist query b := pairwise_map.mp hkept.nodup
  exact (hdesc.and hne).imp fun {a b} hab => lt_of_le_of_ne hab.1 (Ne.symm hab.2)

/-! ### The path that sorts everything -/

/-- The loop that collects the first posting of each id. When equal ids carry equal vectors, it
collects every posting. -/
theorem collectFirst_spec (rest : PostingList V) {done seen : PostingList V}
    (hagree : Agreeing (done ++ rest)) (hnodup : (seen.map Prod.fst).Nodup)
    (hmem : ∀ p, p ∈ seen ↔ p ∈ done) :
    ((rest.foldl (fun seen p => if p.1 ∈ seen.map Prod.fst then seen else seen ++ [p])
        seen).map Prod.fst).Nodup ∧
      ∀ p, p ∈ rest.foldl (fun seen p => if p.1 ∈ seen.map Prod.fst then seen else seen ++ [p])
        seen ↔ p ∈ done ++ rest := by
  induction rest generalizing done seen with
  | nil => exact ⟨hnodup, by simpa using hmem⟩
  | cons c rest ih =>
    have hassoc : done ++ c :: rest = (done ++ [c]) ++ rest := by simp
    rw [hassoc] at hagree ⊢
    rw [foldl_cons]
    split
    · rename_i hid
      refine ih hagree hnodup ?_
      obtain ⟨q, hq, heq⟩ := mem_map.mp hid
      have hq' := (hmem q).mp hq
      have hvec : q.2 = c.2 := hagree q (by simp [hq']) c (by simp) heq
      obtain rfl : q = c := Prod.ext heq hvec
      intro p
      rw [hmem p, mem_append, mem_singleton]
      exact ⟨Or.inl, fun hp => hp.elim id fun hp => hp ▸ hq'⟩
    · rename_i hid
      refine ih hagree ?_ ?_
      · rw [map_append, nodup_append]
        refine ⟨hnodup, by simp, ?_⟩
        intro a ha b hb heq
        rw [map_singleton, mem_singleton] at hb
        exact hid (hb ▸ heq ▸ ha)
      · intro p
        simp only [mem_append, mem_singleton, hmem p]

theorem firstOfEach_spec (postings : PostingList V) (hagree : Agreeing postings) :
    ((firstOfEach postings).map Prod.fst).Nodup ∧ ∀ p, p ∈ firstOfEach postings ↔ p ∈ postings := by
  have hagree' : Agreeing ([] ++ postings) := hagree
  exact collectFirst_spec postings hagree' nodup_nil (fun _ => Iff.rfl)

theorem length_le_usizeMax {postings : PostingList V} (hnodup : (postings.map Prod.fst).Nodup)
    (hlevel : ∀ p ∈ postings, p.1.level = level) : postings.length ≤ usizeMax := by
  have hnumbers : (postings.map fun p => p.1.number).Nodup := by
    refine Nodup.map_on ?_ (hnodup.of_map Prod.fst)
    intro p hp q hq heq
    have hid : p.1 = q.1 := by
      refine VectorId.id_injective ?_
      rw [VectorId.id, VectorId.id, hlevel p hp, hlevel q hq, heq]
    exact inj_on_of_nodup_map hnodup hp hq hid
  have hsub : (postings.map fun p => p.1.number) ⊆ range (2 ^ 56) := by
    intro n hn
    obtain ⟨p, -, rfl⟩ := mem_map.mp hn
    exact mem_range.mpr p.1.number_lt
  have hle := (subperm_of_subset hnumbers hsub).length_le
  rw [length_map, length_range] at hle
  exact hle.trans (by decide)

theorem smallest_sort (postings : PostingList V) (hagree : Agreeing postings)
    (hlevel : ∀ p ∈ postings, p.1.level = level) : Smallest (rank dist query) usizeMax postings
      (sortBy (rank dist query) (firstOfEach postings)) := by
  obtain ⟨hnodup, hmem⟩ := firstOfEach_spec postings hagree
  have hranks : ((firstOfEach postings).map (rank dist query)).Nodup := by
    refine Nodup.map_on ?_ (hnodup.of_map Prod.fst)
    intro p hp q hq heq
    exact inj_on_of_nodup_map hnodup hp hq (id_eq_of_rank_eq heq)
  have hkept : Kept (rank dist query) usizeMax postings (firstOfEach postings) := {
    nodup := hranks
    mem := fun p hp => (hmem p).mp hp
    length_le := length_le_usizeMax hnodup fun p hp => hlevel p ((hmem p).mp hp)
    full := fun p hp hnot => absurd ((hmem p).mpr hp) hnot }
  have hperm := perm_sortBy (rank dist query) (firstOfEach postings)
  have hsorted := hkept.perm hperm
  refine ⟨hsorted, ?_⟩
  have hne : (sortBy (rank dist query) (firstOfEach postings)).Pairwise
      fun a b => rank dist query a ≠ rank dist query b := pairwise_map.mp hsorted.nodup
  exact ((pairwise_sortBy _ _).and hne).imp fun {a b} hab => lt_of_le_of_ne hab.1 hab.2

/-! ### `score_and_rank` -/

variable {postings : List (PostingList V)}

/-- The capacity that `score_and_rank` asks for is not too large, or it asks for none. -/
def RankFits (k : Nat) : Prop := k = usizeMax ∨ k ≤ rankCapacity

theorem smallest_scoreAndRank (hagree : Agreeing postings.flatten) (hfits : RankFits k)
    (hlevel : ∀ p ∈ postings.flatten, p.1.level = level) :
    ∃ r, scoreAndRank dist level query postings k = .ok r ∧
      Smallest (rank dist query) k postings.flatten r := by
  rw [scoreAndRank]
  split
  · rename_i hstop
    refine ⟨[], rfl, ⟨nodup_nil, by simp, Nat.zero_le k, ?_⟩, Pairwise.nil⟩
    intro p hp _
    rcases hstop with rfl | rfl
    · exact ⟨rfl, by simp⟩
    · cases hp
  · rename_i hstop
    split
    · rename_i hmax
      subst hmax
      rw [ensure, if_pos hlevel]
      exact ⟨_, rfl, smallest_sort _ hagree hlevel⟩
    · rename_i hmax
      rw [ensure, if_pos (hfits.resolve_left hmax), ensure, if_pos hlevel]
      exact ⟨_, rfl, smallest_heap (fun h => hstop (Or.inl h)) _ hagree⟩

theorem scoreAndRank_panic (hk : k ≠ 0) (hne : postings ≠ [])
    (h : ¬ (RankFits k ∧ ∀ p ∈ postings.flatten, p.1.level = level)) :
    scoreAndRank dist level query postings k = .error .panic := by
  rw [scoreAndRank, if_neg (not_or.mpr ⟨hk, hne⟩)]
  split
  · rename_i hmax
    rw [ensure, if_neg fun hlevel => h ⟨.inl hmax, hlevel⟩]
    rfl
  · by_cases hcap : k ≤ rankCapacity
    · rw [ensure, if_pos hcap, ensure, if_neg fun hlevel => h ⟨.inr hcap, hlevel⟩]
      rfl
    · rw [ensure, if_neg hcap]
      rfl

/-- What `score_and_rank` does: it stops where it should rank and cannot allocate the heap or finds
a posting of another level, and gives the nearest postings otherwise. -/
theorem scoreAndRank_cases (dist : V → V → D) (query : V) (k : Nat)
    (hagree : Agreeing postings.flatten) :
    (k ≠ 0 ∧ postings ≠ [] ∧ ¬ (RankFits k ∧ ∀ p ∈ postings.flatten, p.1.level = level) ∧
      scoreAndRank dist level query postings k = .error .panic) ∨
    (k = 0 ∨ postings = [] ∨ RankFits k ∧ ∀ p ∈ postings.flatten, p.1.level = level) ∧
      ∃ r, scoreAndRank dist level query postings k = .ok r ∧
        Smallest (rank dist query) k postings.flatten r := by
  by_cases hstop : k = 0 ∨ postings = []
  · refine .inr ⟨hstop.imp_right .inl, [], by rw [scoreAndRank, if_pos hstop], ?_, Pairwise.nil⟩
    rcases hstop with rfl | rfl
    · exact ⟨nodup_nil, by simp, Nat.le_refl 0, by simp⟩
    · exact ⟨nodup_nil, by simp, Nat.zero_le k, by simp⟩
  · obtain ⟨hk, hne⟩ := not_or.mp hstop
    by_cases hran : RankFits k ∧ ∀ p ∈ postings.flatten, p.1.level = level
    · exact .inr ⟨.inr (.inr hran), smallest_scoreAndRank hagree hran.1 hran.2⟩
    · exact .inl ⟨hk, hne, hran, scoreAndRank_panic hk hne hran⟩

theorem scoreAndRank_congr {others} (hagree : Agreeing postings.flatten)
    (hnil : others = [] ↔ postings = [])
    (hsame : ∀ p, p ∈ others.flatten ↔ p ∈ postings.flatten) :
    scoreAndRank dist level query others k = scoreAndRank dist level query postings k := by
  have hran : (RankFits k ∧ ∀ p ∈ others.flatten, p.1.level = level) ↔
      RankFits k ∧ ∀ p ∈ postings.flatten, p.1.level = level := by
    simp only [hsame]
  rcases scoreAndRank_cases dist query k hagree with ⟨hk, hne, hnot, herr⟩ | ⟨hran', r, hr, hsmall⟩
  · rw [herr, scoreAndRank_panic hk (mt hnil.mp hne) (mt hran.mp hnot)]
  · have hagree' : Agreeing others.flatten := fun p hp q hq =>
      hagree p ((hsame p).mp hp) q ((hsame q).mp hq)
    rcases scoreAndRank_cases dist query k hagree' with ⟨hk, hne, hnot, -⟩ | ⟨-, r', hr', hsmall'⟩
    · rcases hran' with h | h | h
      · exact absurd h hk
      · exact absurd (hnil.mpr h) hne
      · exact absurd (hran.mpr h) hnot
    · rw [hr, hr', hsmall'.unique hsmall hsame]

theorem level_of_mem_scoreAndRank (hagree : Agreeing postings.flatten) {r}
    (hr : scoreAndRank dist level query postings k = .ok r) {p} (hp : p ∈ r) :
    p.1.level = level := by
  rcases scoreAndRank_cases dist query k hagree with ⟨-, -, -, herr⟩ | ⟨hran, r', hr', hsmall⟩
  · rw [herr] at hr
    cases hr
  · rw [hr] at hr'
    cases hr'
    have hmem := hsmall.kept.mem p hp
    rcases hran with rfl | rfl | hran
    · exact absurd (length_pos_of_mem hp) (Nat.not_lt.mpr hsmall.kept.length_le)
    · cases hmem
    · exact hran.2 p hmem

theorem scoreAndRank_error (hagree : Agreeing postings.flatten) {e}
    (h : scoreAndRank dist level query postings k = .error e) : e = .panic := by
  rcases scoreAndRank_cases dist query k hagree with ⟨-, -, -, herr⟩ | ⟨-, r, hr, -⟩
  · rw [herr] at h
    exact (Except.error.inj h).symm
  · rw [hr] at h
    cases h

/-- `score_and_rank` gives the `k` nearest postings in order, each once: whatever is left out is
farther away than everything in the result, and then the result is full. The result depends on the
postings as a set, and the path for `k = usize::MAX` gives what the heap would. All this is so
exactly where the heap can be allocated and no posting has another level than the one asked for. -/
theorem scoreAndRank_nearest (level : Nat) (postings : List (PostingList V))
    (hagree : Agreeing postings.flatten) :
    (∃ r, Smallest (rank dist query) k postings.flatten r ∧
      (∀ others : List (PostingList V), (∀ p, p ∈ others.flatten ↔ p ∈ postings.flatten) →
        scoreAndRank dist level query others k = .ok r) ∧
      (k = usizeMax → r = (postings.flatten.foldl (keepBest dist query k) []).reverse)) ↔
    k = 0 ∨ (k = usizeMax ∨ k ≤ rankCapacity) ∧ ∀ p ∈ postings.flatten, p.1.level = level := by
  constructor
  · rintro ⟨r, -, hothers, -⟩
    by_contra hnot
    obtain ⟨hk, hran⟩ := not_or.mp hnot
    -- All postings in one list: the code cannot return early then.
    have hone := hothers [postings.flatten] (by simp)
    rw [scoreAndRank_panic hk (by simp) (by simpa [RankFits] using hran)] at hone
    cases hone
  · intro hran
    have hrun : ∀ others : List (PostingList V),
        (∀ p, p ∈ others.flatten ↔ p ∈ postings.flatten) →
          ∃ r, scoreAndRank dist level query others k = .ok r ∧
            Smallest (rank dist query) k others.flatten r := by
      intro others hsame
      have hagree' : Agreeing others.flatten := fun p hp q hq =>
        hagree p ((hsame p).mp hp) q ((hsame q).mp hq)
      rcases scoreAndRank_cases dist query k hagree' with ⟨hk, -, hnot, -⟩ | ⟨-, hr⟩
      · refine absurd ⟨(hran.resolve_left hk).1, fun p hp => ?_⟩ hnot
        exact (hran.resolve_left hk).2 p ((hsame p).mp hp)
      · exact hr
    obtain ⟨r, -, hsmall⟩ := hrun postings fun _ => Iff.rfl
    refine ⟨r, hsmall, ?_, ?_⟩
    · intro others hsame
      obtain ⟨r', hr', hsmall'⟩ := hrun others hsame
      rw [hr', hsmall'.unique hsmall hsame]
    · rintro rfl
      exact hsmall.unique (smallest_heap (by decide) _ hagree) (fun _ => Iff.rfl)

end

def rankedLists : List (PostingList Nat) :=
  let leaf (n : Nat) (h : n < 2 ^ 56) : VectorId := ⟨1, n, by decide, h⟩
  [[(leaf 1 (by decide), 9), (leaf 2 (by decide), 4)],
    [(leaf 3 (by decide), 5), (leaf 1 (by decide), 9), (leaf 4 (by decide), 6)]]

theorem scoreAndRank_nearest_rankedLists : Agreeing rankedLists.flatten ∧
      ∃ r, scoreAndRank Nat.dist 1 5 rankedLists 2 = .ok r ∧ r.map Prod.snd = [5, 4] ∧
        Smallest (rank Nat.dist 5) 2 rankedLists.flatten r := by
  have hagree : Agreeing rankedLists.flatten := by
    unfold Agreeing
    decide +kernel
  have hrun : ((scoreAndRank Nat.dist 1 5 rankedLists 2).toOption.any
      fun r => decide (r.map Prod.snd = [5, 4])) = true := by decide +kernel
  simp only [Option.any_eq_true, decide_eq_true_eq] at hrun
  obtain ⟨r, hr, hvec⟩ := hrun
  rw [toOption_eq_some] at hr
  obtain ⟨r', hsmall, hothers, -⟩ := (@scoreAndRank_nearest _ _ _ Nat.dist 5 2 1 rankedLists
    hagree).mpr (.inr ⟨.inr (by decide), by decide +kernel⟩)
  obtain rfl := Except.ok.inj (hr.symm.trans (hothers rankedLists fun _ => Iff.rfl))
  exact ⟨hagree, r, hr, hvec, hsmall⟩

/-- One posting is asked for with `k = usize::MAX - 1`: the heap cannot be allocated. -/
theorem scoreAndRank_overflow : scoreAndRank Nat.dist 1 5 [[(⟨1, 1, by decide, by decide⟩, 9)]]
    (usizeMax - 1) = .error .panic := by
  rfl

-- `2 ^ 59` buckets are the most that fit, and `rankCapacity` the most items that they take.
example : 9 * 2 ^ 59 + 16 ≤ isizeMax ∧ isizeMax < 9 * 2 ^ 60 ∧ rankCapacity * 8 / 7 = 2 ^ 59 ∧
    2 ^ 59 < (rankCapacity + 1) * 8 / 7 ∧ 16 * rankCapacity ≤ isizeMax := by
  decide

end OpenData.Vector

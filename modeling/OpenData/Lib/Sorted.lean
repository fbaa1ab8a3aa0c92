import Mathlib.Data.List.Sort
import Mathlib.Data.Prod.Lex

/-!
# Stable sorts, and merges in which the last source wins

A list that is sorted by a key is determined by its parts, one part for each value of the key
(`eq_of_filter_eq`). Both merges of this module are compared through their parts.
-/

namespace OpenData.Lib

open List

variable {α β κ : Type*}

/-! ### Stable sorts -/

variable {a : α} {l : List α}

section

variable [LinearOrder κ] (key : α → κ)

def sortBy (l : List α) : List α := l.insertionSort fun a b => key a ≤ key b

theorem perm_sortBy (l : List α) : (sortBy key l).Perm l := perm_insertionSort _ l

theorem mem_sortBy : a ∈ sortBy key l ↔ a ∈ l := (perm_sortBy key l).mem_iff

theorem pairwise_sortBy (l : List α) : (sortBy key l).Pairwise (key · ≤ key ·) := by
  have htotal : Std.Total (α := α) (key · ≤ key ·) := ⟨fun a b => le_total (key a) (key b)⟩
  have htrans : IsTrans α (key · ≤ key ·) := ⟨fun _ _ _ => le_trans⟩
  exact pairwise_insertionSort _ l

/-- A sort by a key that tells the elements apart depends on the elements only. -/
theorem sortBy_eq_of_perm {l' : List α} (hinj : Function.Injective key) (h : l.Perm l') :
    sortBy key l = sortBy key l' := by
  have hanti : Std.Antisymm (α := α) (key · ≤ key ·) := ⟨fun _ _ h h' => hinj (le_antisymm h h')⟩
  exact Perm.eq_of_pairwise' (pairwise_sortBy key l) (pairwise_sortBy key l')
    ((perm_sortBy key l).trans (h.trans (perm_sortBy key l').symm))

theorem filter_orderedInsert (k : κ) (a : α) (l : List α) :
    (l.orderedInsert (key · ≤ key ·) a).filter (key · = k) = (a :: l).filter (key · = k) := by
  induction l with
  | nil => rfl
  | cons b l ih =>
    rw [orderedInsert_cons]
    split
    · rfl
    · rename_i hlt
      rw [filter_cons, ih]
      -- The two elements change places, and their keys differ.
      by_cases ha : key a = k <;> by_cases hb : key b = k
      · exact absurd (ha.trans hb.symm).le hlt
      all_goals simp [ha, hb]

theorem filter_sortBy (k : κ) (l : List α) :
    (sortBy key l).filter (key · = k) = l.filter (key · = k) := by
  induction l with
  | nil => rfl
  | cons a l ih =>
    show ((sortBy key l).orderedInsert (key · ≤ key ·) a).filter (key · = k) = _
    rw [filter_orderedInsert, filter_cons, filter_cons, ih]

variable {key}

theorem eq_of_filter_eq {l1 l2 : List α} (h1 : l1.Pairwise (key · ≤ key ·))
    (h2 : l2.Pairwise (key · ≤ key ·))
    (h : ∀ k, l1.filter (key · = k) = l2.filter (key · = k)) : l1 = l2 := by
  induction l1 generalizing l2 with
  | nil =>
    cases l2 with
    | nil => rfl
    | cons b => simpa using h (key b)
  | cons a l1 ih =>
    cases l2 with
    | nil => simpa using h (key a)
    | cons b l2 =>
      have hmem : ∀ c, c ∈ a :: l1 ↔ c ∈ b :: l2 := by
        intro c
        have := congrArg (c ∈ ·) (h (key c))
        simpa using this
      -- Each head has a least key of the common elements.
      have hle : key a ≤ key b := by
        rcases mem_cons.mp ((hmem b).mpr mem_cons_self) with rfl | hb
        · exact le_rfl
        · exact rel_of_pairwise_cons h1 hb
      have hge : key b ≤ key a := by
        rcases mem_cons.mp ((hmem a).mp mem_cons_self) with rfl | ha
        · exact le_rfl
        · exact rel_of_pairwise_cons h2 ha
      have hkey : key b = key a := le_antisymm hge hle
      have hab : a = b := by
        have := h (key a)
        simp only [filter_cons, hkey, decide_true, if_true, List.cons.injEq] at this
        exact this.1
      subst hab
      refine congrArg _ (ih h1.of_cons h2.of_cons fun k => ?_)
      have := h k
      by_cases hk : key a = k <;> simpa [filter_cons, hk] using this

end

/-! ### Appending what is new -/

section

variable [DecidableEq α]

def pushAll (acc xs : List α) : List α :=
  xs.foldl (fun acc x => if x ∈ acc then acc else acc ++ [x]) acc

@[simp] theorem pushAll_nil (acc : List α) : pushAll acc [] = acc := rfl

theorem pushAll_cons (acc : List α) (x : α) (xs : List α) :
    pushAll acc (x :: xs) = pushAll (if x ∈ acc then acc else acc ++ [x]) xs := rfl

theorem pushAll_append (acc xs ys : List α) :
    pushAll acc (xs ++ ys) = pushAll (pushAll acc xs) ys := foldl_append

theorem mem_pushAll {acc xs} : a ∈ pushAll acc xs ↔ a ∈ acc ∨ a ∈ xs := by
  induction xs generalizing acc with
  | nil => simp
  | cons x xs ih =>
    rw [pushAll_cons, ih]
    split <;> simp <;> grind

theorem filter_pushAll (p : α → Bool) (acc xs : List α) :
    (pushAll acc xs).filter p = pushAll (acc.filter p) (xs.filter p) := by
  induction xs generalizing acc with
  | nil => rfl
  | cons x xs ih =>
    rw [pushAll_cons, ih, filter_cons]
    by_cases hp : p x = true
    · rw [if_pos hp, pushAll_cons]
      by_cases hx : x ∈ acc <;> simp [hx, hp]
    · rw [if_neg hp]
      by_cases hx : x ∈ acc <;> simp [hx, hp]

theorem pushAll_pushAll (acc mid xs : List α) :
    pushAll acc (pushAll mid xs) = pushAll (pushAll acc mid) xs := by
  induction xs generalizing mid with
  | nil => rfl
  | cons x xs ih =>
    rw [pushAll_cons, ih, pushAll_cons]
    by_cases hmid : x ∈ mid
    · simp [hmid, mem_pushAll]
    · simp [hmid, pushAll_append, pushAll_cons]

theorem sortBy_pushAll_flatten [LinearOrder κ] (key : α → κ) (acc : List α)
    (groups : List (List α)) :
    sortBy key (pushAll acc (groups.map fun g => sortBy key (pushAll [] g)).flatten) =
      sortBy key (pushAll acc groups.flatten) := by
  refine eq_of_filter_eq (pairwise_sortBy key _) (pairwise_sortBy key _) fun k => ?_
  simp only [filter_sortBy, filter_pushAll]
  generalize acc.filter (key · = k) = part
  induction groups generalizing part with
  | nil => rfl
  | cons g groups ih =>
    simp only [map_cons, flatten_cons, filter_append, pushAll_append, ih,
      filter_sortBy, filter_pushAll, filter_nil, pushAll_pushAll, pushAll_nil]

end

/-! ### The first of each run of equal keys -/

section

variable [DecidableEq κ] (key : α → κ)

def dedupAfter (last : κ) : List α → List α
  | [] => []
  | a :: l => if key a = last then dedupAfter last l else a :: dedupAfter (key a) l

def dedupBy : List α → List α
  | [] => []
  | a :: l => a :: dedupAfter key (key a) l

end

section

variable [LinearOrder κ] {key : α → κ}

theorem pairwise_dedupAfter {last} (hlast : ∀ a ∈ l, last ≤ key a)
    (h : l.Pairwise (key · ≤ key ·)) : (∀ a ∈ dedupAfter key last l, last < key a) ∧
      (dedupAfter key last l).Pairwise (key · < key ·) := by
  induction l generalizing last with
  | nil => simp [dedupAfter]
  | cons b l ih =>
    rw [dedupAfter]
    split
    · exact ih (fun a ha => hlast a (mem_cons_of_mem b ha)) h.of_cons
    · rename_i hne
      have hlt : last < key b := lt_of_le_of_ne (hlast b mem_cons_self) (Ne.symm hne)
      have hrest := ih (fun a ha => rel_of_pairwise_cons h ha) h.of_cons
      refine ⟨?_, pairwise_cons.mpr hrest⟩
      intro a ha
      rcases mem_cons.mp ha with rfl | ha
      · exact hlt
      · exact hlt.trans (hrest.1 a ha)

theorem pairwise_dedupBy (h : l.Pairwise (key · ≤ key ·)) :
    (dedupBy key l).Pairwise (key · < key ·) := by
  cases l with
  | nil => exact Pairwise.nil
  | cons =>
    exact pairwise_cons.mpr (pairwise_dedupAfter (fun b hb => rel_of_pairwise_cons h hb) h.of_cons)

theorem find?_dedupAfter {last k} (hk : k ≠ last) (l : List α) :
    (dedupAfter key last l).find? (key · = k) = l.find? (key · = k) := by
  induction l generalizing last with
  | nil => rfl
  | cons b l ih =>
    rw [dedupAfter]
    split
    · rename_i hb
      rw [ih hk, find?_cons_of_neg (by simp [hb, Ne.symm hk])]
    · by_cases hb : key b = k
      · simp [hb]
      · rw [find?_cons_of_neg (by simpa using hb), find?_cons_of_neg (by simpa using hb),
          ih (Ne.symm hb)]

theorem dedupAfter_sublist (last : κ) (l : List α) : (dedupAfter key last l).Sublist l := by
  induction l generalizing last with
  | nil => exact Sublist.refl _
  | cons a l ih =>
    rw [dedupAfter]
    split
    · exact (ih last).cons a
    · exact (ih (key a)).cons_cons a

theorem dedupBy_sublist (key : α → κ) (l : List α) : (dedupBy key l).Sublist l := by
  cases l with
  | nil => exact Sublist.refl _
  | cons a l => exact (dedupAfter_sublist _ l).cons_cons a

theorem find?_dedupBy (key : α → κ) (k : κ) (l : List α) :
    (dedupBy key l).find? (key · = k) = l.find? (key · = k) := by
  cases l with
  | nil => rfl
  | cons a =>
    by_cases ha : key a = k
    · simp [dedupBy, ha]
    · simp only [dedupBy, find?_cons_of_neg, ha, decide_false, Bool.false_eq_true,
        not_false_eq_true, find?_dedupAfter (Ne.symm ha)]

end

/-! ### The last source wins -/

variable {sources : List (List α)}

variable [LinearOrder κ] (key : α → κ)

def lastWins (k : κ) : List (List α) → Option α
  | [] => none
  | source :: sources => (lastWins k sources).or (source.find? (key · = k))

/-- The entries of all sources, each with the index of its source, are sorted by key and by
falling index, and the first entry of each key is kept. -/
def lastWinsMerge (sources : List (List α)) : List α :=
  let tagged := sources.zipIdx.flatMap fun s => s.1.map fun a => (s.2, a)
  let sorted := sortBy (fun e : Nat × α => toLex (key e.2, OrderDual.toDual e.1)) tagged
  (dedupBy (fun e : Nat × α => key e.2) sorted).map Prod.snd

variable {key}

theorem lastWins_append (k : κ) (xs ys : List (List α)) :
    lastWins key k (xs ++ ys) = (lastWins key k ys).or (lastWins key k xs) := by
  induction xs with
  | nil => simp [lastWins]
  | cons x xs ih => simp [lastWins, ih, Option.or_assoc]

theorem lastWins_map_filter (k : κ) (p : β → Bool) (f : β → List α)
    (hp : ∀ b, p b = false → f b = []) (sources : List β) :
    lastWins key k ((sources.filter p).map f) = lastWins key k (sources.map f) := by
  induction sources with
  | nil => rfl
  | cons b sources ih =>
    rw [filter_cons]
    cases hb : p b with
    | true => simp [lastWins, ih]
    | false => simp [lastWins, ih, hp b hb]

theorem lastWins_eq_none_iff {k} :
    lastWins key k sources = none ↔ ∀ s ∈ sources, s.find? (key · = k) = none := by
  induction sources with
  | nil => simp [lastWins]
  | cons s sources ih => rw [lastWins, Option.or_eq_none_iff, ih, forall_mem_cons, and_comm]

theorem lastWins_eq_some {k} {i : Nat} {s} (hs : sources[i]? = some s)
    (ha : s.find? (key · = k) = some a)
    (hlast : ∀ j t, i < j → sources[j]? = some t → t.find? (key · = k) = none) :
    lastWins key k sources = some a := by
  induction sources generalizing i with
  | nil => simp at hs
  | cons t sources ih =>
    rw [lastWins]
    cases i with
    | zero =>
      have hnone : lastWins key k sources = none := by
        refine lastWins_eq_none_iff.mpr fun u hu => ?_
        obtain ⟨j, hj⟩ := getElem?_of_mem hu
        exact hlast (j + 1) u (Nat.succ_pos j) (by simpa using hj)
      obtain rfl : t = s := by simpa using hs
      simp [hnone, ha]
    | succ =>
      rw [ih (by simpa using hs) fun j u hj hu =>
        hlast (j + 1) u (Nat.succ_lt_succ hj) (by simpa using hu), Option.some_or]

theorem find?_of_mem (h : l.Pairwise (key · < key ·)) (ha : a ∈ l) :
    l.find? (key · = key a) = some a := by
  induction l with
  | nil => simp at ha
  | cons b l ih =>
    rcases mem_cons.mp ha with rfl | ha
    · simp
    · have hlt : key b < key a := rel_of_pairwise_cons h ha
      rw [find?_cons_of_neg (by simpa using hlt.ne), ih h.of_cons ha]

theorem filter_eq_find? (h : l.Pairwise (key · < key ·)) (k : κ) :
    l.filter (key · = k) = (l.find? (key · = k)).toList := by
  induction l with
  | nil => rfl
  | cons b l ih =>
    rw [filter_cons, find?_cons]
    by_cases hb : key b = k
    · have hnone : l.filter (key · = k) = [] := by
        refine filter_eq_nil_iff.mpr fun a ha => ?_
        have hlt : key b < key a := rel_of_pairwise_cons h ha
        simpa [hb] using (hb ▸ hlt).ne'
      simp [hb, hnone]
    · simp [hb, ih h.of_cons]

theorem find?_reverse (h : l.Pairwise (key · < key ·)) (k : κ) :
    l.reverse.find? (key · = k) = l.find? (key · = k) := by
  rw [← List.head?_filter, filter_reverse, filter_eq_find? h]
  cases l.find? (key · = k) <;> rfl

theorem lastWins_eq_find?_reverse (h : ∀ s ∈ sources, s.Pairwise (key · < key ·)) (k : κ) :
    lastWins key k sources = sources.flatten.reverse.find? (key · = k) := by
  induction sources with
  | nil => rfl
  | cons s sources ih =>
    rw [lastWins, ih fun s hs => h s (mem_cons_of_mem _ hs), flatten_cons,
      reverse_append, find?_append, find?_reverse (h s mem_cons_self)]

theorem eq_of_find?_eq {l1 l2 : List α} (h1 : l1.Pairwise (key · < key ·))
    (h2 : l2.Pairwise (key · < key ·))
    (h : ∀ k, l1.find? (key · = k) = l2.find? (key · = k)) : l1 = l2 := by
  refine eq_of_filter_eq (h1.imp le_of_lt) (h2.imp le_of_lt) fun k => ?_
  rw [filter_eq_find? h1, filter_eq_find? h2, h]

/-! ### The merge looks up what the last source has -/

theorem mem_tagged {i} : (i, a) ∈ sources.zipIdx.flatMap (fun s => s.1.map fun a => (s.2, a)) ↔
      ∃ s, sources[i]? = some s ∧ a ∈ s := by
  simp only [mem_flatMap, mem_map, Prod.mk.injEq, Prod.exists, mem_zipIdx_iff_getElem?]
  constructor
  · rintro ⟨s, j, hs, b, hb, rfl, rfl⟩
    exact ⟨s, hs, hb⟩
  · rintro ⟨s, hs, ha⟩
    exact ⟨s, i, hs, a, ha, rfl, rfl⟩

theorem pairwise_lastWinsMerge (sources : List (List α)) :
    (lastWinsMerge key sources).Pairwise (key · < key ·) := by
  have hsorted := pairwise_sortBy (fun e : Nat × α => toLex (key e.2, OrderDual.toDual e.1))
    (sources.zipIdx.flatMap fun s => s.1.map fun a => (s.2, a))
  exact pairwise_map.mpr (pairwise_dedupBy (hsorted.imp fun h => Prod.Lex.monotone_fst _ _ h))

theorem le_of_find?_eq_some [LinearOrder β] {rank : α → β} (h : l.Pairwise (rank · ≤ rank ·))
    {p : α → Bool} {b} (ha : l.find? p = some a) (hb : b ∈ l) (hp : p b = true) :
    rank a ≤ rank b := by
  induction l with
  | nil => simp at hb
  | cons c l ih =>
    rw [find?_cons] at ha
    split at ha
    · obtain rfl : c = a := by simpa using ha
      rcases mem_cons.mp hb with rfl | hb
      · exact le_rfl
      · exact rel_of_pairwise_cons h hb
    · rename_i hc
      rcases mem_cons.mp hb with rfl | hb
      · rw [hp] at hc
        exact absurd hc Bool.false_ne_true.symm
      · exact ih h.of_cons ha hb

/-- The first entry of a source under a key is the first tagged one. -/
theorem find?_tagged {n i : Nat} {s : List α} (hs : sources[i]? = some s) (k : κ) :
    ((sources.zipIdx n).flatMap fun s => s.1.map fun a => (s.2, a)).find?
      (fun e => e.1 = n + i ∧ key e.2 = k) = (s.find? (key · = k)).map (n + i, ·) := by
  induction sources generalizing n i with
  | nil => simp at hs
  | cons t sources ih =>
    rw [zipIdx_cons, flatMap_cons, find?_append, find?_map]
    cases i with
    | zero =>
      obtain rfl : t = s := by simpa using hs
      -- The other sources have other tags.
      have hrest : ((sources.zipIdx (n + 1)).flatMap fun s => s.1.map fun a => (s.2, a)).find?
          (fun e => e.1 = n + 0 ∧ key e.2 = k) = none := by
        refine find?_eq_none.mpr fun e he => ?_
        obtain ⟨⟨u, j⟩, hu, he⟩ := mem_flatMap.mp he
        obtain ⟨a, -, rfl⟩ := mem_map.mp he
        have hle := (mem_zipIdx hu).1
        simp only [decide_eq_true_eq, not_and]
        omega
      rw [hrest, Option.or_none]
      simp only [Function.comp_def, Nat.add_zero, true_and]
    | succ i =>
      have hfirst : t.find? ((fun e : Nat × α => decide (e.1 = n + (i + 1) ∧ key e.2 = k)) ∘
          fun a => (n, a)) = none := by
        refine find?_eq_none.mpr fun a _ => ?_
        simp
      have := @ih (n + 1) i (by simpa using hs)
      rw [hfirst, Option.map_none, Option.none_or, show n + (i + 1) = n + 1 + i by omega, this]

/-- What is first among the entries with some property is first among those of its rank. -/
theorem find?_rank_of_find? [LinearOrder β] {rank : α → β} {p : α → Bool}
    (ha : l.find? p = some a) (hp : ∀ b, rank b = rank a → p b = true) :
    l.find? (rank · = rank a) = some a := by
  induction l with
  | nil => simp at ha
  | cons b l ih =>
    rw [find?_cons] at ha ⊢
    cases hb : p b with
    | true =>
      obtain rfl : b = a := by simpa [hb] using ha
      simp
    | false =>
      have hne : rank b ≠ rank a := fun heq => by simp [hp b heq] at hb
      simpa [hne] using ih (by simpa [hb] using ha)

theorem find?_lastWinsMerge (sources : List (List α)) (k : κ) :
    (lastWinsMerge key sources).find? (key · = k) = lastWins key k sources := by
  let rank : Nat × α → κ ×ₗ Natᵒᵈ := fun e => toLex (key e.2, OrderDual.toDual e.1)
  let tagged := sources.zipIdx.flatMap fun s => s.1.map fun a => (s.2, a)
  have hfind : (lastWinsMerge key sources).find? (key · = k) =
      ((sortBy rank tagged).find? (fun e => key e.2 = k)).map Prod.snd := by
    rw [← find?_dedupBy fun e : Nat × α => key e.2]
    exact find?_map
  rw [hfind]
  cases hfirst : (sortBy rank tagged).find? (fun e => key e.2 = k) with
  | none =>
    refine (lastWins_eq_none_iff.mpr fun s hs => ?_).symm
    rw [find?_eq_none] at hfirst ⊢
    intro a ha
    obtain ⟨i, hi⟩ := getElem?_of_mem hs
    exact hfirst (i, a) ((mem_sortBy rank).mpr (mem_tagged.mpr ⟨s, hi, ha⟩))
  | some e =>
    obtain ⟨i, a⟩ := e
    have hmem := (mem_sortBy rank).mp (mem_of_find?_eq_some hfirst)
    obtain ⟨s, hs, ha⟩ := mem_tagged.mp hmem
    have hk : key a = k := by simpa using find?_some hfirst
    -- The sort keeps the order of the entries of a source under the key.
    have hsource : s.find? (key · = k) = some a := by
      have hrank : ∀ e, rank e = rank (i, a) ↔ e.1 = i ∧ key e.2 = k := by
        intro e
        rw [toLex_inj, Prod.mk.injEq, hk, OrderDual.toDual_inj, and_comm]
      have hrankFirst : (sortBy rank tagged).find? (fun e => rank e = rank (i, a)) = some (i, a) :=
        find?_rank_of_find? hfirst fun e he => by simpa using ((hrank e).mp he).2
      rw [← head?_filter, filter_sortBy, head?_filter] at hrankFirst
      have hsame : tagged.find? (fun e => rank e = rank (i, a)) =
          tagged.find? (fun e => e.1 = 0 + i ∧ key e.2 = k) := by
        simp only [hrank, Nat.zero_add]
      rw [hsame, find?_tagged hs] at hrankFirst
      obtain ⟨b, hb, heq⟩ := Option.map_eq_some_iff.mp hrankFirst
      rw [hb, (Prod.mk.inj heq).2]
    refine (lastWins_eq_some hs hsource ?_).symm
    -- A later source with the key would be sorted in front.
    intro j t hij ht
    refine find?_eq_none.mpr fun b hb hkb => ?_
    have hle := le_of_find?_eq_some (pairwise_sortBy rank tagged) hfirst
      ((mem_sortBy rank).mpr (mem_tagged.mpr ⟨t, ht, hb⟩)) hkb
    simp only [decide_eq_true_eq] at hkb
    simp only [rank, Prod.Lex.toLex_le_toLex, hk, hkb, lt_self_iff_false, true_and, false_or,
      OrderDual.toDual_le_toDual] at hle
    omega

theorem lastWinsMerge_eq_nil_iff :
    lastWinsMerge key sources = [] ↔ ∀ s ∈ sources, s = [] := by
  constructor
  · intro hnil s hs
    refine eq_nil_iff_forall_not_mem.mpr fun a ha => ?_
    have hnone : lastWins key (key a) sources = none := by
      rw [← find?_lastWinsMerge, hnil, find?_nil]
    rw [lastWins_eq_none_iff] at hnone
    exact find?_eq_none.mp (hnone s hs) a ha (by simp)
  · intro hnil
    refine eq_nil_iff_forall_not_mem.mpr fun a ha => ?_
    have hsome := (find?_lastWinsMerge sources (key a)).symm.trans
      (find?_of_mem (pairwise_lastWinsMerge sources) ha)
    rw [lastWins_eq_none_iff.mpr fun s hs => by rw [hnil s hs, find?_nil]] at hsome
    exact absurd hsome (by simp)

theorem lastWinsMerge_singleton {s : List α} (h : s.Pairwise (key · < key ·)) :
    lastWinsMerge key [s] = s :=
  eq_of_find?_eq (pairwise_lastWinsMerge _) h fun k =>
    find?_lastWinsMerge [s] k

theorem mem_lastWinsMerge (h : ∀ s ∈ sources, s.Pairwise (key · < key ·)) :
    a ∈ lastWinsMerge key sources ↔ sources.flatten.reverse.find? (key · = key a) = some a := by
  rw [← lastWins_eq_find?_reverse h, ← find?_lastWinsMerge]
  constructor
  · exact find?_of_mem (pairwise_lastWinsMerge sources)
  · exact mem_of_find?_eq_some

theorem mem_flatten_of_mem_lastWinsMerge (h : a ∈ lastWinsMerge key sources) :
    a ∈ sources.flatten := by
  obtain ⟨⟨i, a⟩, hmem, rfl⟩ := mem_map.mp h
  obtain ⟨s, hs, ha⟩ := mem_tagged.mp ((mem_sortBy _).mp ((dedupBy_sublist _ _).subset hmem))
  exact mem_flatten.mpr ⟨s, mem_of_getElem? hs, ha⟩

theorem exists_key_mem_lastWinsMerge (h : a ∈ sources.flatten) :
    ∃ b ∈ lastWinsMerge key sources, key b = key a := by
  obtain ⟨s, hs, ha⟩ := mem_flatten.mp h
  obtain ⟨i, hi⟩ := getElem?_of_mem hs
  let rank : Nat × α → κ ×ₗ Natᵒᵈ := fun e => toLex (key e.2, OrderDual.toDual e.1)
  have hmem : (i, a) ∈ sortBy rank (sources.zipIdx.flatMap fun s => s.1.map fun a => (s.2, a)) :=
    (mem_sortBy rank).mpr (mem_tagged.mpr ⟨s, hi, ha⟩)
  -- The deduplication finds what the sorted list finds under the key.
  have hsome : ((sortBy rank (sources.zipIdx.flatMap fun s => s.1.map fun a => (s.2, a))).find?
      (fun e => key e.2 = key a)).isSome :=
    find?_isSome.mpr ⟨(i, a), hmem, by simp⟩
  rw [← find?_dedupBy fun e : Nat × α => key e.2] at hsome
  obtain ⟨e, he⟩ := Option.isSome_iff_exists.mp hsome
  exact ⟨e.2, mem_map.mpr ⟨e, mem_of_find?_eq_some he, rfl⟩, by simpa using find?_some he⟩

theorem lastWinsMerge_flatten (sources : List (List α)) (groups : List (List (List α))) :
    lastWinsMerge key (sources ++ groups.map (lastWinsMerge key)) =
      lastWinsMerge key (sources ++ groups.flatten) := by
  refine eq_of_find?_eq (pairwise_lastWinsMerge _) (pairwise_lastWinsMerge _) fun k => ?_
  rw [find?_lastWinsMerge, find?_lastWinsMerge, lastWins_append, lastWins_append]
  congr 1
  -- Group by group, the merged list looks up what its sources look up.
  induction groups with
  | nil => rfl
  | cons g groups ih =>
    rw [map_cons, flatten_cons, lastWins_append, lastWins, ih, find?_lastWinsMerge]

end OpenData.Lib

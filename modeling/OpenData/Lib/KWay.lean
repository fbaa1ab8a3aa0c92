import OpenData.Lib.Sorted

/-!
# The merge of sorted sources with one cursor for each

Each source is read through a cursor. `popMin` takes the smallest head, and among equal heads that
of the last source. The merge puts it out and skips every head that is equal to it.
-/

namespace OpenData.Lib

open List Option

variable {α κ : Type} [LinearOrder κ] (key : α → κ)

def popMin : List (List α) → Option (α × List (List α))
  | [] => none
  | [] :: rest => (popMin rest).map fun (b, rest) => (b, [] :: rest)
  | (a :: s) :: rest =>
    match popMin rest with
    | none => some (a, s :: rest)
    | some (b, rest') =>
      if key b ≤ key a then some (b, (a :: s) :: rest') else some (a, s :: rest)

def skipEqual (k : κ) : Nat → List (List α) → List (List α)
  | 0, cursors => cursors
  | fuel + 1, cursors =>
    match popMin key cursors with
    | none => cursors
    | some (b, rest) => if key b = k then skipEqual k fuel rest else cursors

def kWayLoop : Nat → List (List α) → List α
  | 0, _ => []
  | fuel + 1, cursors =>
    match popMin key cursors with
    | none => []
    | some (a, rest) => a :: kWayLoop fuel (skipEqual key (key a) rest.flatten.length rest)

def kWayMerge (sources : List (List α)) : List α := kWayLoop key sources.flatten.length sources

variable {key}

variable {cursors : List (List α)}

theorem popMin_eq_none (h : popMin key cursors = none) : ∀ s ∈ cursors, s = [] := by
  fun_induction popMin key cursors with
  | case1 => simp
  | case2 _ ih => simpa using ih (map_eq_none_iff.mp h)
  | case3 | case4 | case5 => cases h

variable {rest : List (List α)} {a : α}

theorem perm_of_popMin (h : popMin key cursors = some (a, rest)) :
    (a :: rest.flatten).Perm cursors.flatten := by
  fun_induction popMin key cursors generalizing a rest with
  | case1 => cases h
  | case2 cursors ih =>
    obtain ⟨⟨b, rest'⟩, hpop, heq⟩ := map_eq_some_iff.mp h
    obtain ⟨rfl, rfl⟩ := Prod.mk.inj heq
    have hperm : (b :: rest'.flatten).Perm cursors.flatten := ih hpop
    exact hperm
  | case3 | case5 =>
    cases h
    exact Perm.refl _
  | case4 b s _ _ _ hpop _ ih =>
    cases h
    exact perm_middle.symm.trans ((ih hpop).append_left (b :: s))

theorem least_of_popMin (hsorted : ∀ s ∈ cursors, s.Pairwise (key · ≤ key ·))
    (h : popMin key cursors = some (a, rest)) :
    (∀ s ∈ cursors, ∀ b ∈ s, key a ≤ key b) ∧ ∀ s ∈ rest, s.Pairwise (key · ≤ key ·) := by
  fun_induction popMin key cursors generalizing a rest with
  | case1 => cases h
  | case2 _ ih =>
    obtain ⟨⟨b, rest'⟩, hpop, heq⟩ := map_eq_some_iff.mp h
    obtain ⟨rfl, rfl⟩ := Prod.mk.inj heq
    obtain ⟨hleast, hrest⟩ := ih (forall_mem_cons.mp hsorted).2 hpop
    exact ⟨by simpa using hleast, by simpa using hrest⟩
  | case3 b s cursors hpop =>
    obtain ⟨hs, hcursors⟩ := forall_mem_cons.mp hsorted
    obtain ⟨hhead, htail⟩ := pairwise_cons.mp hs
    cases h
    refine ⟨forall_mem_cons.mpr ⟨forall_mem_cons.mpr ⟨le_rfl, hhead⟩, ?_⟩,
      forall_mem_cons.mpr ⟨htail, hcursors⟩⟩
    intro t ht c hc
    rw [popMin_eq_none hpop t ht] at hc
    cases hc
  | case4 b s cursors c rest' hpop hle ih =>
    -- A head of the other cursors is at most the first head.
    obtain ⟨hs, hcursors⟩ := forall_mem_cons.mp hsorted
    obtain ⟨hleast, hrest⟩ := ih hcursors hpop
    cases h
    refine ⟨forall_mem_cons.mpr ⟨?_, hleast⟩, forall_mem_cons.mpr ⟨hs, hrest⟩⟩
    exact forall_mem_cons.mpr ⟨hle, fun d hd => hle.trans ((pairwise_cons.mp hs).1 d hd)⟩
  | case5 b s cursors c rest' hpop hlt ih =>
    obtain ⟨hs, hcursors⟩ := forall_mem_cons.mp hsorted
    obtain ⟨hhead, htail⟩ := pairwise_cons.mp hs
    cases h
    refine ⟨forall_mem_cons.mpr ⟨forall_mem_cons.mpr ⟨le_rfl, hhead⟩, ?_⟩,
      forall_mem_cons.mpr ⟨htail, hcursors⟩⟩
    exact fun t ht d hd => (le_of_not_ge hlt).trans ((ih hcursors hpop).1 t ht d hd)

/-! ### One pop -/

def without (key : α → κ) (k : κ) (cursors : List (List α)) : List (List α) :=
  cursors.map fun s => s.filter fun a => key a ≠ k

theorem lastWins_without (k : κ) (cursors : List (List α)) {k'} :
    lastWins key k' (without key k cursors) = if k' = k then none else lastWins key k' cursors := by
  induction cursors with
  | nil => simp [without, lastWins]
  | cons s cursors ih =>
    rw [without, map_cons, lastWins, ← without, ih, lastWins]
    by_cases hk : k' = k
    · rw [if_pos hk, if_pos hk, none_or, find?_eq_none]
      intro a ha
      have hne := (mem_filter.mp ha).2
      simpa [hk] using hne
    · rw [if_neg hk, if_neg hk, find?_filter]
      congr 2
      funext a
      by_cases ha : key a = k' <;> simp [ha, hk]

theorem without_eq_self {k} (h : ∀ s ∈ cursors, ∀ b ∈ s, key b ≠ k) :
    without key k cursors = cursors := by
  refine (map_congr_left fun s hs => ?_).trans (map_id cursors)
  exact filter_eq_self.mpr fun b hb => by simpa using h s hs b hb

theorem mem_of_lastWins {k} (h : lastWins key k cursors = some a) : ∃ s ∈ cursors, a ∈ s := by
  induction cursors with
  | nil => exact absurd h (by simp [lastWins])
  | cons s cursors ih =>
    rcases or_eq_some_iff.mp h with h | ⟨-, h⟩
    · obtain ⟨t, ht, hat⟩ := ih h
      exact ⟨t, mem_cons_of_mem s ht, hat⟩
    · exact ⟨s, mem_cons_self, mem_of_find?_eq_some h⟩

structure Popped (key : α → κ) (cursors : List (List α)) (a : α) (rest : List (List α)) : Prop where
  least : ∀ s ∈ cursors, ∀ b ∈ s, key a ≤ key b
  wins : lastWins key (key a) cursors = some a
  sorted : ∀ s ∈ rest, s.Pairwise (key · < key ·)
  subset : ∀ s ∈ rest, ∀ b ∈ s, ∃ t ∈ cursors, b ∈ t
  without_eq : without key (key a) rest = without key (key a) cursors
  length : rest.flatten.length + 1 = cursors.flatten.length

theorem wins_of_popMin (hsorted : ∀ s ∈ cursors, s.Pairwise (key · < key ·))
    (h : popMin key cursors = some (a, rest)) : lastWins key (key a) cursors = some a ∧
      (∀ s ∈ rest, s.Pairwise (key · < key ·)) ∧
      without key (key a) rest = without key (key a) cursors := by
  -- The head of the first cursor, when it is smaller than all others.
  have hfirst : ∀ {b s} {cursors : List (List α)},
      (∀ t ∈ (b :: s) :: cursors, t.Pairwise (key · < key ·)) →
      (∀ t ∈ cursors, ∀ c ∈ t, key b < key c) →
      lastWins key (key b) ((b :: s) :: cursors) = some b ∧
        (∀ t ∈ s :: cursors, t.Pairwise (key · < key ·)) ∧
        without key (key b) (s :: cursors) = without key (key b) ((b :: s) :: cursors) := by
    intro b s cursors hsorted hless
    obtain ⟨hs, hcursors⟩ := forall_mem_cons.mp hsorted
    have hnone : lastWins key (key b) cursors = none := by
      refine lastWins_eq_none_iff.mpr fun t ht => find?_eq_none.mpr fun c hc => ?_
      simpa using (hless t ht c hc).ne'
    exact ⟨by simp [lastWins, hnone], forall_mem_cons.mpr ⟨hs.of_cons, hcursors⟩, by simp [without]⟩
  fun_induction popMin key cursors generalizing a rest with
  | case1 => cases h
  | case2 _ ih =>
    obtain ⟨⟨b, rest'⟩, hpop, heq⟩ := map_eq_some_iff.mp h
    obtain ⟨rfl, rfl⟩ := Prod.mk.inj heq
    obtain ⟨hwins, hrest, hwithout⟩ := ih (forall_mem_cons.mp hsorted).2 hpop
    exact ⟨by simp [lastWins, hwins], by simpa using hrest, by simpa [without] using hwithout⟩
  | case3 b s cursors hpop =>
    cases h
    refine hfirst hsorted fun t ht c hc => ?_
    rw [popMin_eq_none hpop t ht] at hc
    cases hc
  | case4 b s cursors c rest' hpop hle ih =>
    obtain ⟨hs, hcursors⟩ := forall_mem_cons.mp hsorted
    obtain ⟨hwins, hrest, hwithout⟩ := ih hcursors hpop
    cases h
    refine ⟨by simp [lastWins, hwins], forall_mem_cons.mpr ⟨hs, hrest⟩, ?_⟩
    rw [without, map_cons, ← without, hwithout]
    rfl
  | case5 b s cursors c rest' hpop hlt =>
    have hcursors := (forall_mem_cons.mp hsorted).2
    have hleast := (least_of_popMin (fun t ht => (hcursors t ht).imp le_of_lt) hpop).1
    cases h
    exact hfirst hsorted fun t ht d hd => (not_le.mp hlt).trans_le (hleast t ht d hd)

theorem popped_of_popMin (hsorted : ∀ s ∈ cursors, s.Pairwise (key · < key ·))
    (h : popMin key cursors = some (a, rest)) : Popped key cursors a rest := by
  have hperm := perm_of_popMin h
  obtain ⟨hwins, hrest, hwithout⟩ := wins_of_popMin hsorted h
  refine ⟨(least_of_popMin (fun s hs => (hsorted s hs).imp le_of_lt) h).1, hwins, hrest, ?_,
    hwithout, hperm.length_eq⟩
  exact fun s hs b hb =>
    mem_flatten.mp (hperm.subset (mem_cons_of_mem a (mem_flatten.mpr ⟨s, hs, hb⟩)))

/-! ### The loops -/

theorem flatten_length_without (key : α → κ) (k : κ) (cursors : List (List α)) :
    (without key k cursors).flatten.length ≤ cursors.flatten.length := by
  induction cursors with
  | nil => simp [without]
  | cons s cursors ih =>
    rw [without, map_cons, ← without, flatten_cons, flatten_cons, length_append, length_append]
    exact Nat.add_le_add (length_filter_le _ _) ih

variable {fuel : Nat}

theorem skipEqual_eq {k} (hsorted : ∀ s ∈ cursors, s.Pairwise (key · < key ·))
    (hle : ∀ s ∈ cursors, ∀ b ∈ s, k ≤ key b) (hfuel : cursors.flatten.length ≤ fuel) :
    skipEqual key k fuel cursors = without key k cursors := by
  induction fuel generalizing cursors with
  | zero =>
    refine (without_eq_self fun s hs b hb => ?_).symm
    have hmem : b ∈ cursors.flatten := mem_flatten.mpr ⟨s, hs, hb⟩
    rw [length_eq_zero_iff.mp (Nat.le_zero.mp hfuel)] at hmem
    exact absurd hmem not_mem_nil
  | succ fuel ih =>
    rw [skipEqual]
    cases hpop : popMin key cursors with
    | none =>
      refine (without_eq_self fun s hs b hb => ?_).symm
      rw [popMin_eq_none hpop s hs] at hb
      exact absurd hb not_mem_nil
    | some popped =>
      obtain ⟨b, rest⟩ := popped
      have hpopped := popped_of_popMin hsorted hpop
      show (if key b = k then skipEqual key k fuel rest else cursors) = _
      split
      · rename_i hb
        have hlength := hpopped.length
        rw [ih hpopped.sorted _ (by omega), ← hb, hpopped.without_eq]
        intro s hs c hc
        obtain ⟨t, ht, hct⟩ := hpopped.subset s hs c hc
        exact hle t ht c hct
      · rename_i hb
        -- The smallest head is above the key, so that no element has it.
        refine (without_eq_self fun s hs c hc heq => hb (le_antisymm ?_ ?_)).symm
        · exact heq ▸ hpopped.least s hs c hc
        · obtain ⟨t, ht, hbt⟩ := mem_of_lastWins hpopped.wins
          exact hle t ht b hbt

theorem kWayLoop_spec (hsorted : ∀ s ∈ cursors, s.Pairwise (key · < key ·))
    (hfuel : cursors.flatten.length ≤ fuel) : (kWayLoop key fuel cursors).Pairwise (key · < key ·) ∧
      ∀ k, (kWayLoop key fuel cursors).find? (key · = k) = lastWins key k cursors := by
  induction fuel generalizing cursors with
  | zero =>
    refine ⟨Pairwise.nil, fun k => (lastWins_eq_none_iff.mpr fun s hs => ?_).symm⟩
    have hnil : cursors.flatten = [] := length_eq_zero_iff.mp (Nat.le_zero.mp hfuel)
    rw [flatten_eq_nil_iff.mp hnil s hs, find?_nil]
  | succ fuel ih =>
    rw [kWayLoop]
    cases hpop : popMin key cursors with
    | none =>
      refine ⟨Pairwise.nil, fun k => (lastWins_eq_none_iff.mpr fun s hs => ?_).symm⟩
      rw [popMin_eq_none hpop s hs, find?_nil]
    | some popped =>
      obtain ⟨a, rest⟩ := popped
      have hpopped := popped_of_popMin hsorted hpop
      have hskip : skipEqual key (key a) rest.flatten.length rest =
          without key (key a) cursors := by
        rw [skipEqual_eq hpopped.sorted _ le_rfl, hpopped.without_eq]
        intro s hs b hb
        obtain ⟨t, ht, hbt⟩ := hpopped.subset s hs b hb
        exact hpopped.least t ht b hbt
      show Pairwise _ (a :: kWayLoop key fuel _) ∧ _
      rw [hskip]
      have hwithout : ∀ s ∈ without key (key a) cursors, s.Pairwise (key · < key ·) := by
        intro s hs
        obtain ⟨t, ht, rfl⟩ := mem_map.mp hs
        exact (hsorted t ht).filter _
      have hlength : (without key (key a) cursors).flatten.length ≤ fuel := by
        have hle := flatten_length_without key (key a) rest
        rw [hpopped.without_eq] at hle
        have hrest := hpopped.length
        omega
      obtain ⟨hincreasing, hfind⟩ := ih hwithout hlength
      refine ⟨pairwise_cons.mpr ⟨fun b hb => ?_, hincreasing⟩, fun k => ?_⟩
      · -- What comes out later is looked up in the cursors that are left.
        have hmem := find?_of_mem hincreasing hb
        rw [hfind, lastWins_without] at hmem
        split at hmem
        · exact absurd hmem (by simp)
        · rename_i hne
          obtain ⟨s, hs, hbs⟩ := mem_of_lastWins hmem
          exact lt_of_le_of_ne (hpopped.least s hs b hbs) (Ne.symm hne)
      · rw [find?_cons, hskip, hfind, lastWins_without]
        by_cases hk : k = key a
        · simp [hk, hpopped.wins]
        · simp [hk, Ne.symm hk]

variable {sources : List (List α)}

theorem kWayLoop_eq
    (h : ∀ s ∈ sources, s.Pairwise (key · < key ·)) (hfuel : sources.flatten.length ≤ fuel) :
    kWayLoop key fuel sources = lastWinsMerge key sources := by
  obtain ⟨hincreasing, hfind⟩ := kWayLoop_spec h hfuel
  exact eq_of_find?_eq hincreasing (pairwise_lastWinsMerge _) fun k =>
    (hfind k).trans (find?_lastWinsMerge sources k).symm

theorem kWayMerge_eq (h : ∀ s ∈ sources, s.Pairwise (key · < key ·)) :
    kWayMerge key sources = lastWinsMerge key sources := kWayLoop_eq h le_rfl

end OpenData.Lib

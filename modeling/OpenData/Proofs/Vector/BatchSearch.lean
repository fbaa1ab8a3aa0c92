import OpenData.Proofs.Vector.Rank
import OpenData.Vector.BatchSearch

/-!
# Waiting for reads does not change a search

The reference is `searchInLevel` with every list in memory: one descent from the root that reads
each list at once. `answer` is the same descent from any level with the ids to look at there
(`batchSearch_direct`).
-/

namespace OpenData.Vector

open Lib List TreeDepth VectorId

def splitRead {V : Type} (tree : VectorId → PostingList V) (cached : VectorId → Bool)
    (c : VectorId) : MaybeCached (PostingList V) :=
  if cached c then .value (tree c) else .future (tree c)

/-- Within a level, equal ids carry equal vectors. -/
def LevelsAgree {V : Type} (tree : VectorId → PostingList V) : Prop :=
  ∀ c c' p q, c.level = c'.level → p ∈ tree c → q ∈ tree c' → p.1 = q.1 → p.2 = q.2

/-! ### Levels -/

def TreeDepth.rest (depth : TreeDepth) (level : Nat) : Nat :=
  if level = rootLevel then depth.maxInnerLevel + 1 else level

def TreeDepth.HasNode (depth : TreeDepth) (level : Nat) : Prop :=
  level = rootLevel ∨ level ≤ depth.maxInnerLevel

section
variable {depth : TreeDepth} {level : Nat}

theorem TreeDepth.maxInnerLevel_lt (depth : TreeDepth) : depth.maxInnerLevel < rootLevel := by
  have hlt := depth.lt
  simp only [maxInnerLevel, rootLevel]
  omega

theorem TreeDepth.hasNode_root (depth : TreeDepth) : depth.HasNode rootLevel := Or.inl rfl

theorem TreeDepth.rest_root (depth : TreeDepth) :
    depth.rest rootLevel = depth.maxInnerLevel + 1 := if_pos rfl

theorem TreeDepth.rest_of_le (h : level ≤ depth.maxInnerLevel) : depth.rest level = level := by
  have hlt := depth.maxInnerLevel_lt
  exact if_neg (by omega)

theorem TreeDepth.down (h : depth.HasNode level) (hleaf : leafLevel < level) :
    depth.nextLevelDown level ≤ depth.maxInnerLevel ∧
      depth.nextLevelDown level + 1 = depth.rest level := by
  rw [leafLevel] at hleaf
  rcases h with rfl | hle
  · rw [nextLevelDown, if_pos rfl, depth.rest_root]
    exact ⟨Nat.le_refl _, rfl⟩
  · have hne : level ≠ rootLevel := by
      have hlt := depth.maxInnerLevel_lt
      omega
    rw [nextLevelDown, if_neg hne, rest_of_le hle]
    omega

end

section
variable {V D : Type} [LinearOrder D] {dist : V → V → D} {tree : VectorId → PostingList V}
  {cached : VectorId → Bool} {depth : TreeDepth} {query : V} {k target : Nat} {level : Nat}
  {ids : List VectorId}

/-! ### The direct search -/

def directFrom (dist : V → V → D) (tree : VectorId → PostingList V) (depth : TreeDepth)
    (query : V) (k target : Nat) (fuel level : Nat) (ids : List VectorId) :
    Result (PostingList V) :=
  descend dist (fun c => .value (tree c)) depth query k target fuel level
    (ids.map fun c => .value (tree c))

theorem map_get_map_value (ids : List VectorId) :
    (((ids.map fun c => MaybeCached.value (tree c)).filter (·.isCached)
      ++ (ids.map fun c => MaybeCached.value (tree c)).filter (!·.isCached)).map (·.get))
      = ids.map tree := by
  induction ids with
  | nil => rfl
  | cons c ids ih =>
    simp only [map_cons, filter_cons, MaybeCached.isCached, Bool.not_true, if_true,
      cons_append, MaybeCached.get] at ih ⊢
    exact congrArg _ ih

theorem directFrom_succ (fuel : Nat) :
    directFrom dist tree depth query k target (fuel + 1) level ids = (do
      ensure (ids.map tree ≠ [])
      ensure (leafLevel < level)
      if depth.nextLevelDown level = target then
        scoreAndRank dist target query (ids.map tree) k
      else do
        let next ← scoreAndRank dist (depth.nextLevelDown level) query (ids.map tree) (max beam k)
        directFrom dist tree depth query k target fuel (depth.nextLevelDown level)
          (next.map Prod.fst)) := by
  unfold directFrom
  rw [descend]
  simp only [map_get_map_value, map_map]
  rfl

theorem directFrom_panic (h : ids = [] ∨ ¬ leafLevel < level) (fuel : Nat) :
    directFrom dist tree depth query k target fuel level ids = .error .panic := by
  cases fuel with
  | zero => rfl
  | succ =>
    rw [directFrom_succ, ensure, ensure]
    rcases h with rfl | hleaf
    · simp [bind, Except.bind]
    · rw [if_neg hleaf]
      by_cases hne : ids.map tree ≠ [] <;> simp [hne, bind, Except.bind]

/-- A bound that counts all levels below does not stop the direct search. Induction on the
bound. -/
theorem directFrom_of_le {fuel fuel'} (hnode : depth.HasNode level)
    (hfuel : depth.rest level ≤ fuel) (hfuel' : depth.rest level ≤ fuel') :
    directFrom dist tree depth query k target fuel level ids
      = directFrom dist tree depth query k target fuel' level ids := by
  induction fuel generalizing level ids fuel' with
  | zero =>
    have hleaf : ¬ leafLevel < level := by
      intro hleaf
      have hdown := down hnode hleaf
      omega
    rw [directFrom_panic (Or.inr hleaf), directFrom_panic (Or.inr hleaf)]
  | succ fuel ih =>
    by_cases hleaf : leafLevel < level
    · obtain ⟨hle, hrest⟩ := down hnode hleaf
      have hbelow := rest_of_le hle
      cases fuel' with
      | zero => omega
      | succ fuel' =>
        have hnext : ∀ next : PostingList V,
            directFrom dist tree depth query k target fuel (depth.nextLevelDown level)
                (next.map Prod.fst)
              = directFrom dist tree depth query k target fuel' (depth.nextLevelDown level)
                (next.map Prod.fst) :=
          fun next => ih (Or.inr hle) (by omega) (by omega)
        rw [directFrom_succ, directFrom_succ]
        simp only [hnext]
    · rw [directFrom_panic (Or.inr hleaf), directFrom_panic (Or.inr hleaf)]

def answer (dist : V → V → D) (tree : VectorId → PostingList V) (depth : TreeDepth) (query : V)
    (k target : Nat) (level : Nat) (ids : List VectorId) : Result (PostingList V) :=
  directFrom dist tree depth query k target (depth.rest level) level ids

theorem searchInLevel_eq_answer : searchInLevel dist (fun c => .value (tree c)) depth query k target
      = answer dist tree depth query k target rootLevel [root] := by
  have hle : depth.rest rootLevel ≤ depth.val := by
    have hthree := depth.three_le
    rw [depth.rest_root, maxInnerLevel]
    omega
  show directFrom dist tree depth query k target depth.val rootLevel [root] = _
  exact directFrom_of_le depth.hasNode_root hle (Nat.le_refl _)

theorem answer_eq (hnode : depth.HasNode level) (hleaf : leafLevel < level) (hids : ids ≠ []) :
    answer dist tree depth query k target level ids = (
      if depth.nextLevelDown level = target then
        scoreAndRank dist target query (ids.map tree) k
      else do
        let next ← scoreAndRank dist (depth.nextLevelDown level) query (ids.map tree) (max beam k)
        answer dist tree depth query k target (depth.nextLevelDown level) (next.map Prod.fst)) := by
  obtain ⟨hle, hrest⟩ := down hnode hleaf
  unfold answer
  rw [← hrest, directFrom_succ, rest_of_le hle, ensure, ensure,
    if_pos (by simpa using hids), if_pos hleaf]
  rfl

theorem answer_panic (h : ids = [] ∨ ¬ leafLevel < level) :
    answer dist tree depth query k target level ids = .error .panic := directFrom_panic h _

/-! ### A search that waits -/

/-- The lists are the children of the centroids, which are on one level. -/
structure Holds (tree : VectorId → PostingList V) (level : Nat) (ids : List VectorId)
    (lists : List (VectorId × PostingList V)) : Prop where
  perm : lists.Perm (ids.map fun c => (c, tree c))
  levels : ∀ c ∈ ids, c.level = level

namespace Holds

variable {lists : List (VectorId × PostingList V)}

theorem mem_flatten (h : Holds tree level ids lists) (p : Posting V) :
    p ∈ (lists.map Prod.snd).flatten ↔ p ∈ (ids.map tree).flatten := by
  have hperm := h.perm.map Prod.snd
  rw [map_map] at hperm
  exact hperm.flatten.mem_iff

theorem agreeing (htree : LevelsAgree tree) (h : Holds tree level ids lists) :
    Agreeing (ids.map tree).flatten := by
  intro p hp q hq heq
  obtain ⟨_, hl, hp⟩ := List.mem_flatten.mp hp
  obtain ⟨_, hl', hq⟩ := List.mem_flatten.mp hq
  obtain ⟨c, hc, rfl⟩ := List.mem_map.mp hl
  obtain ⟨c', hc', rfl⟩ := List.mem_map.mp hl'
  exact htree c c' p q ((h.levels c hc).trans (h.levels c' hc').symm) hp hq heq

theorem eq_nil_iff (h : Holds tree level ids lists) : lists.map Prod.snd = [] ↔ ids = [] := by
  rw [map_eq_nil_iff, ← length_eq_zero_iff, h.perm.length_eq, length_map, length_eq_zero_iff]

end Holds

theorem get_splitRead (c : VectorId) : (splitRead tree cached c).get = tree c := by
  rw [splitRead]
  cases cached c <;> rfl

theorem holds_foundOf_readsOf (hlevels : ∀ c ∈ ids, c.level = level) : Holds tree level ids
      (foundOf (splitRead tree cached) ids ++ readsOf (splitRead tree cached) ids) := by
  refine ⟨?_, hlevels⟩
  simp only [foundOf, readsOf, get_splitRead]
  rw [← map_append]
  exact (filter_append_perm _ ids).map _

/-- What a part of a search leads to: its end with the answer, the failure of the search, or reads
at a lower level with the answer still to come. -/
inductive Outcome (dist : V → V → D) (tree : VectorId → PostingList V) (depth : TreeDepth)
    (query : V) (k target : Nat) (bound : Nat) (a : Result (PostingList V)) :
    Result (CentroidSearchResult V) → Prop
  | failed (h : a = .error .panic) : Outcome dist tree depth query k target bound a (.error .panic)
  | done {postings} (h : a = .ok postings) :
      Outcome dist tree depth query k target bound a (.ok (.ann postings))
  | waits {blocked ids}
      (node : depth.HasNode blocked.level) (above : target < depth.rest blocked.level)
      (below : depth.rest blocked.level ≤ bound)
      (holds : Holds tree blocked.level ids (blocked.found ++ blocked.reads))
      (reads : ∀ r ∈ blocked.reads, r.2 = tree r.1)
      (h : a = answer dist tree depth query k target blocked.level ids) :
      Outcome dist tree depth query k target bound a (.ok (.readsRequired blocked))

theorem Outcome.mono {bound bound' a r}
    (h : Outcome dist tree depth query k target bound a r) (hle : bound ≤ bound') :
    Outcome dist tree depth query k target bound' a r := by
  cases h with
  | failed h => exact .failed h
  | done h => exact .done h
  | waits node above below holds reads h => exact .waits node above (by omega) holds reads h

/-- A search that goes on from lists of a level. Induction on the bound of the levels, with the
level above the target. -/
theorem outcome_resume (htree : LevelsAgree tree) {fuel s}
    (hnode : depth.HasNode s.level) (habove : target < depth.rest s.level)
    (hfuel : depth.rest s.level ≤ fuel) (hholds : Holds tree s.level ids (s.found ++ s.read)) :
    Outcome dist tree depth query k target (depth.rest s.level - 1)
      (answer dist tree depth query k target s.level ids)
      (resumeSearchInLevel dist (splitRead tree cached) depth query k target fuel s) := by
  induction fuel generalizing s ids with
  | zero => omega
  | succ fuel ih =>
    rw [resumeSearchInLevel]
    simp only [ensure]
    by_cases hids : ids = []
    · rw [if_neg (by simpa using hholds.eq_nil_iff.mpr hids)]
      exact .failed (answer_panic (Or.inl hids))
    · rw [if_pos (by simpa using fun h => hids (hholds.eq_nil_iff.mp h))]
      by_cases hleaf : leafLevel < s.level
      · obtain ⟨hle, hrest⟩ := down hnode hleaf
        have hagree := hholds.agreeing htree
        rw [if_pos hleaf, answer_eq hnode hleaf hids]
        have hnil : (s.found ++ s.read).map Prod.snd = [] ↔ ids.map tree = [] := by
          rw [hholds.eq_nil_iff, map_eq_nil_iff]
        simp only [bind, Except.bind, scoreAndRank_congr hagree hnil hholds.mem_flatten]
        split
        · -- The level below is the target.
          cases hrank : scoreAndRank dist target query (ids.map tree) k with
          | error =>
            rw [scoreAndRank_error hagree hrank]
            exact .failed rfl
          | ok => exact .done rfl
        · rename_i htarget
          have hbelow := rest_of_le hle
          cases hrank : scoreAndRank dist (depth.nextLevelDown s.level) query (ids.map tree)
              (max beam k) with
          | error =>
            rw [scoreAndRank_error hagree hrank]
            exact .failed rfl
          | ok next =>
            have hlevels : ∀ c ∈ next.map Prod.fst, c.level = depth.nextLevelDown s.level := by
              intro c hc
              obtain ⟨p, hp, rfl⟩ := mem_map.mp hc
              exact level_of_mem_scoreAndRank hagree hrank hp
            have hholds' : Holds tree (depth.nextLevelDown s.level) (next.map Prod.fst)
                (foundOf (splitRead tree cached) (next.map Prod.fst)
                  ++ readsOf (splitRead tree cached) (next.map Prod.fst)) :=
              holds_foundOf_readsOf hlevels
            show Outcome _ _ _ _ _ _ _ (answer _ _ _ _ _ _ _ (next.map Prod.fst))
              (searchInnerLevel _ _ _ (next.map Prod.fst))
            rw [searchInnerLevel]
            split
            · -- Everything is in memory: the search goes on one level down.
              rename_i hreads
              rw [hreads, append_nil] at hholds'
              have hfound : ∀ f ∈ foundOf (splitRead tree cached) (next.map Prod.fst),
                  depth.nextLevelDown s.level = f.1.level := by
                intro f hf
                obtain ⟨c, hc, rfl⟩ := mem_map.mp hf
                exact (hlevels c (mem_of_mem_filter hc)).symm
              rw [ResumableCentroidSearch.allFound, ensure, if_pos hfound]
              rw [← append_nil (foundOf _ _)] at hholds'
              refine (ih (s := ⟨_, _, []⟩) (Or.inr hle) ?_ ?_ hholds').mono ?_
              · show target < depth.rest (depth.nextLevelDown s.level)
                omega
              · show depth.rest (depth.nextLevelDown s.level) ≤ fuel
                omega
              · show depth.rest (depth.nextLevelDown s.level) - 1 ≤ _
                omega
            · refine .waits (Or.inr hle) ?_ ?_ hholds' ?_ rfl
              · show target < depth.rest (depth.nextLevelDown s.level)
                omega
              · show depth.rest (depth.nextLevelDown s.level) ≤ _
                omega
              · intro r hr
                obtain ⟨c, -, rfl⟩ := mem_map.mp hr
                exact get_splitRead c
      · rw [if_neg hleaf]
        exact .failed (answer_panic (Or.inr hleaf))

theorem holds_root : Holds tree rootLevel [root] [(root, tree root)] :=
  ⟨Perm.refl _, by simp [root]⟩

theorem outcome_start (htree : LevelsAgree tree) (htarget : target ≤ depth.maxInnerLevel) :
    Outcome dist tree depth query k target (depth.rest rootLevel)
      (answer dist tree depth query k target rootLevel [root])
      (startSearchInLevel dist (splitRead tree cached) depth query k target) := by
  have habove : target < depth.rest rootLevel := by
    rw [depth.rest_root]
    omega
  have hfuel : depth.rest rootLevel ≤ depth.val := by
    have hthree := depth.three_le
    rw [depth.rest_root, maxInnerLevel]
    omega
  rw [startSearchInLevel, splitRead]
  cases cached root with
  | true =>
    have hresume : Outcome dist tree depth query k target (depth.rest rootLevel - 1)
        (answer dist tree depth query k target rootLevel [root])
        (resumeSearchInLevel dist (splitRead tree cached) depth query k target depth.val
          ⟨rootLevel, [(root, tree root)], []⟩) :=
      outcome_resume (s := ⟨rootLevel, [(root, tree root)], []⟩) htree
        depth.hasNode_root habove hfuel holds_root
    have hlevel : rootLevel = root.level := rfl
    simp only [if_true, ResumableCentroidSearch.allFound, ensure, mem_singleton,
      forall_eq, hlevel, bind, Except.bind]
    exact hresume.mono (Nat.sub_le _ _)
  | false =>
    simp only [Bool.false_eq_true, if_false]
    exact .waits depth.hasNode_root habove (Nat.le_refl _) holds_root (by simp) rfl

/-! ### The batch -/

variable {K : Type} {n : Nat}

def BatchQuery.goal (dist : V → V → D) (tree : VectorId → PostingList V) (depth : TreeDepth)
    (k target : Nat) (q : BatchQuery K V) : Result (PostingList V) :=
  searchInLevel dist (fun c => .value (tree c)) depth q.query k target

/-- The search of the query leads to its goal with at most `n` more rounds of reads. A search that
is resumed has the reads of its level behind it. -/
structure BatchQuery.Pursues (dist : V → V → D) (tree : VectorId → PostingList V)
    (depth : TreeDepth) (k target n : Nat) (q : BatchQuery K V) : Prop where
  new : q.resumed = none → depth.rest rootLevel ≤ n + target
  resumed : ∀ s, q.resumed = some s → depth.HasNode s.level ∧ target < depth.rest s.level ∧
    depth.rest s.level ≤ n + target + 1 ∧
    ∃ ids, Holds tree s.level ids (s.found ++ s.read) ∧
      q.goal dist tree depth k target
        = answer dist tree depth q.query k target s.level ids

theorem rest_le_val (hnode : depth.HasNode level) : depth.rest level ≤ depth.val := by
  have hthree := depth.three_le
  rcases hnode with rfl | hle
  · rw [depth.rest_root, maxInnerLevel]
    omega
  · rw [rest_of_le hle]
    rw [maxInnerLevel] at hle
    omega

variable {q : BatchQuery K V}

theorem BatchQuery.Pursues.run (htree : LevelsAgree tree) (htarget : target ≤ depth.maxInnerLevel)
    (h : q.Pursues dist tree depth k target n) :
    ∃ r, q.run dist (splitRead tree cached) depth k target = r.map (fun result => (q, result)) ∧
      Outcome dist tree depth q.query k target (n + target)
        (q.goal dist tree depth k target) r := by
  cases hq : q.resumed with
  | none =>
    refine ⟨startSearchInLevel dist (splitRead tree cached) depth q.query k target, ?_, ?_⟩
    · rw [BatchQuery.run, hq]
      cases startSearchInLevel dist (splitRead tree cached) depth q.query k target <;> rfl
    · rw [BatchQuery.goal, searchInLevel_eq_answer]
      exact (outcome_start htree htarget).mono (h.new hq)
  | some s =>
    obtain ⟨hnode, habove, hbound, ids, hholds, hgoal⟩ := h.resumed s hq
    refine ⟨resumeSearchInLevel dist (splitRead tree cached) depth q.query k target depth.val s,
      ?_, ?_⟩
    · rw [BatchQuery.run, hq]
      dsimp only
      cases resumeSearchInLevel dist (splitRead tree cached) depth q.query k target depth.val s
        <;> rfl
    · rw [hgoal]
      exact (outcome_resume htree hnode habove (rest_le_val hnode) hholds).mono (by omega)

def Ran (dist : V → V → D) (tree : VectorId → PostingList V) (depth : TreeDepth) (k target n : Nat)
    (q : BatchQuery K V) (i : BatchQuery K V × CentroidSearchResult V) : Prop :=
  i.1 = q ∧ Outcome dist tree depth q.query k target (n + target)
    (q.goal dist tree depth k target) (.ok i.2)

variable {queries : List (BatchQuery K V)}

theorem round_cases (htree : LevelsAgree tree) (htarget : target ≤ depth.maxInnerLevel)
    (h : ∀ q ∈ queries, q.Pursues dist tree depth k target n) :
    (queries.mapM (BatchQuery.run dist (splitRead tree cached) depth k target) = .error .panic ∧
      ∃ q ∈ queries, q.goal dist tree depth k target = .error .panic) ∨ ∃ intermediate,
      queries.mapM (BatchQuery.run dist (splitRead tree cached) depth k target) = .ok intermediate ∧
      Forall₂ (Ran dist tree depth k target n) queries intermediate := by
  have hrun : ∀ q ∈ queries, (q.run dist (splitRead tree cached) depth k target = .error .panic ∧
        q.goal dist tree depth k target = .error .panic) ∨
      ∃ i, q.run dist (splitRead tree cached) depth k target = .ok i ∧
        Ran dist tree depth k target n q i := by
    intro q hq
    obtain ⟨r, hr, hout⟩ : ∃ r, q.run dist (splitRead tree cached) depth k target
        = r.map (fun result => (q, result)) ∧ Outcome dist tree depth q.query k target (n + target)
          (q.goal dist tree depth k target) r := (h q hq).run htree htarget
    cases hout with
    | failed hgoal => exact Or.inl ⟨hr, hgoal⟩
    | done hgoal => exact Or.inr ⟨_, hr, rfl, .done hgoal⟩
    | waits node above below holds reads hgoal =>
      exact Or.inr ⟨_, hr, rfl, .waits node above below holds reads hgoal⟩
  by_cases hfail : ∃ q ∈ queries, q.run dist (splitRead tree cached) depth k target = .error .panic
  · left
    refine ⟨mapM_eq_error ?_ hfail, ?_⟩
    · intro q hq
      rcases hrun q hq with ⟨hr, -⟩ | ⟨i, hi, -⟩
      · exact Or.inr hr
      · exact Or.inl ⟨i, hi⟩
    · obtain ⟨q, hq, hr⟩ := hfail
      rcases hrun q hq with ⟨-, hgoal⟩ | ⟨i, hi, -⟩
      · exact ⟨q, hq, hgoal⟩
      · rw [hr] at hi
        cases hi
  · right
    refine forall₂_of_mapM ?_
    intro q hq
    rcases hrun q hq with ⟨hr, -⟩ | hi
    · exact absurd ⟨q, hq, hr⟩ hfail
    · exact hi

variable {p : BatchQuery K V × BlockedCentroidSearch V}
  {pending : List (BatchQuery K V × BlockedCentroidSearch V)} {postings : PostingList V} {key : K}

section
variable {queries : List (BatchQuery K V)}
  {intermediate : List (BatchQuery K V × CentroidSearchResult V)}

theorem mem_finishedOf : (key, postings) ∈ finishedOf intermediate ↔
      ∃ q, (q, .ann postings) ∈ intermediate ∧ q.key = key := by
  rw [finishedOf, mem_filterMap]
  constructor
  · rintro ⟨⟨q, r⟩, hi, hsome⟩
    cases r with
    | readsRequired => cases hsome
    | ann =>
      cases hsome
      exact ⟨q, hi, rfl⟩
  · rintro ⟨q, hi, rfl⟩
    exact ⟨_, hi, rfl⟩

theorem mem_pendingOf {blocked} :
    (q, blocked) ∈ pendingOf intermediate ↔ (q, .readsRequired blocked) ∈ intermediate := by
  rw [pendingOf, mem_filterMap]
  constructor
  · rintro ⟨⟨q', r⟩, hi, hsome⟩
    cases r with
    | ann => cases hsome
    | readsRequired =>
      cases hsome
      exact hi
  · intro hi
    exact ⟨_, hi, rfl⟩

theorem mem_of_ran (h : Forall₂ (Ran dist tree depth k target n) queries intermediate)
    {i} (hi : i ∈ intermediate) :
    i.1 ∈ queries ∧ Ran dist tree depth k target n i.1 i := by
  induction h with
  | nil => cases hi
  | cons hran _ ih =>
    rcases mem_cons.mp hi with rfl | hi
    · obtain ⟨rfl, hout⟩ := hran
      exact ⟨mem_cons_self, rfl, hout⟩
    · obtain ⟨hmem, hran'⟩ := ih hi
      exact ⟨mem_cons_of_mem _ hmem, hran'⟩

theorem exists_of_ran (h : Forall₂ (Ran dist tree depth k target n) queries intermediate)
    (hq : q ∈ queries) : ∃ r, (q, r) ∈ intermediate := by
  induction h with
  | nil => cases hq
  | cons hran _ ih =>
    rename_i q' i _ _ _
    rcases mem_cons.mp hq with rfl | hq
    · obtain ⟨rfl, -⟩ := hran
      exact ⟨i.2, mem_cons_self⟩
    · obtain ⟨r, hr⟩ := ih hq
      exact ⟨r, mem_cons_of_mem _ hr⟩

theorem map_key_of_ran (h : Forall₂ (Ran dist tree depth k target n) queries intermediate) :
    intermediate.map (fun i => i.1.key) = queries.map BatchQuery.key := by
  induction h with
  | nil => rfl
  | cons hran _ ih =>
    obtain ⟨rfl, -⟩ := hran
    rw [map_cons, map_cons, ih]

theorem keys_pendingOf_sublist : ((pendingOf intermediate).map fun p => p.1.key).Sublist
      (intermediate.map fun i => i.1.key) := by
  induction intermediate with
  | nil => exact Sublist.slnil
  | cons i intermediate ih =>
    obtain ⟨q, r⟩ := i
    cases r with
    | ann => exact ih.cons _
    | readsRequired => exact ih.cons_cons _

section

variable (h : ∀ p ∈ pending, ∀ r ∈ p.2.reads, r.2 = tree r.1) (hp : p ∈ pending)
include h hp

theorem lookup_pooledReads
    {c} (hc : c ∈ p.2.reads.map Prod.fst) :
    AList.lookup c (pooledReads pending) = some (tree c) := by
  rw [pooledReads, Table.lookup_insertAll]
  have hfind : ((pending.flatMap fun p => p.2.start.1).reverse.find? (·.1 = c)).isSome := by
    rw [find?_isSome]
    obtain ⟨r, hr, rfl⟩ := mem_map.mp hc
    exact ⟨r, mem_reverse.mpr (mem_flatMap.mpr ⟨p, hp, hr⟩), by simp⟩
  obtain ⟨r, hr⟩ := Option.isSome_iff_exists.mp hfind
  have hkey : r.1 = c := by simpa using find?_some hr
  obtain ⟨p', hp', hmem⟩ := mem_flatMap.mp (mem_reverse.mp (mem_of_find?_eq_some hr))
  rw [hr, ← hkey, ← h p' hp' r hmem]
  rfl

theorem finish_pooledReads : p.2.start.2.finish (pooledReads pending)
      = .ok { level := p.2.level, found := p.2.found, read := p.2.reads } := by
  have hvalues : (p.2.reads.map Prod.fst).mapM (fun c => do
      let postings ← expect (AList.lookup c (pooledReads pending))
      (.ok (c, postings) : Result (VectorId × PostingList V)))
      = .ok ((p.2.reads.map Prod.fst).map fun c => (c, tree c)) := by
    refine mapM_eq_pure ?_
    intro c hc
    rw [lookup_pooledReads h hp hc]
    rfl
  have hsame : (p.2.reads.map Prod.fst).map (fun c => (c, tree c)) = p.2.reads := by
    rw [map_map]
    refine (map_congr_left fun r hr => ?_).trans (map_id _)
    exact Prod.ext rfl (h p hp r hr).symm
  rw [InFlightBlockedCentroidSearch.finish, BlockedCentroidSearch.start]
  dsimp only
  rw [hvalues, hsame]
  rfl

end

end

def resumedQueries (intermediate : List (BatchQuery K V × CentroidSearchResult V)) :
    List (BatchQuery K V) :=
  (pendingOf intermediate).map fun p =>
    { p.1 with resumed := some { level := p.2.level, found := p.2.found, read := p.2.reads } }

variable {intermediate : List (BatchQuery K V × CentroidSearchResult V)}

theorem pursues_resumedQueries
    (h : Forall₂ (Ran dist tree depth k target (n + 1)) queries intermediate) :
    ∀ q ∈ resumedQueries intermediate, q.Pursues dist tree depth k target n := by
  intro q hq
  obtain ⟨⟨q', blocked⟩, hp, rfl⟩ := mem_map.mp hq
  obtain ⟨-, -, hout⟩ := mem_of_ran h (mem_pendingOf.mp hp)
  refine ⟨by simp, ?_⟩
  rintro s ⟨rfl⟩
  cases hout with
  | waits node above below holds reads hgoal =>
    exact ⟨node, above, by dsimp only at below ⊢; omega, _, holds, hgoal⟩

/-- The queries have their results, and other results are as before. -/
structure Answered [DecidableEq K] (dist : V → V → D) (tree : VectorId → PostingList V)
    (depth : TreeDepth) (k target : Nat) (queries : List (BatchQuery K V))
    (before results : Table K (PostingList V)) : Prop where
  goals : ∀ q ∈ queries, ∃ postings, q.goal dist tree depth k target = .ok postings ∧
    AList.lookup q.key results = some postings
  others : ∀ key, key ∉ queries.map BatchQuery.key →
    AList.lookup key results = AList.lookup key before

variable {before : Table K (PostingList V)}

theorem lookup_finished [DecidableEq K]
    (hran : Forall₂ (Ran dist tree depth k target n) queries intermediate)
    (hkeys : (queries.map BatchQuery.key).Nodup)
    (hq : (q, .ann postings) ∈ intermediate) :
    AList.lookup q.key (Table.insertAll before (finishedOf intermediate)) = some postings := by
  have hmem : (q.key, postings) ∈ finishedOf intermediate := mem_finishedOf.mpr ⟨q, hq, rfl⟩
  have hfind : ((finishedOf intermediate).reverse.find? (·.1 = q.key)).isSome := by
    rw [find?_isSome]
    exact ⟨_, mem_reverse.mpr hmem, by simp⟩
  obtain ⟨⟨key, postings'⟩, hr⟩ := Option.isSome_iff_exists.mp hfind
  obtain rfl : key = q.key := by simpa using find?_some hr
  obtain ⟨q', hq', heq⟩ := mem_finishedOf.mp (mem_reverse.mp (mem_of_find?_eq_some hr))
  -- The keys are distinct, so it is the same entry.
  have hnodup : (intermediate.map fun i => i.1.key).Nodup := by
    rwa [map_key_of_ran hran]
  have hsame := inj_on_of_nodup_map hnodup hq' hq heq
  rw [Table.lookup_insertAll, hr]
  cases hsame
  rfl

theorem lookup_not_finished [DecidableEq K] (hkey : key ∉ (finishedOf intermediate).map Prod.fst) :
    AList.lookup key (Table.insertAll before (finishedOf intermediate))
      = AList.lookup key before := by
  have hfind : (finishedOf intermediate).reverse.find? (·.1 = key) = none := by
    rw [find?_eq_none]
    intro e he
    simp only [decide_eq_true_eq]
    rintro rfl
    exact hkey (mem_map_of_mem (mem_reverse.mp he))
  rw [Table.lookup_insertAll, hfind]
  rfl

theorem key_mem_of_finished (hran : Forall₂ (Ran dist tree depth k target n) queries intermediate)
    (hkey : key ∈ (finishedOf intermediate).map Prod.fst) : key ∈ queries.map BatchQuery.key := by
  obtain ⟨⟨key', postings⟩, hin, rfl⟩ := mem_map.mp hkey
  obtain ⟨q, hq, rfl⟩ := mem_finishedOf.mp hin
  exact mem_map_of_mem (mem_of_ran hran hq).1

theorem keys_resumedQueries (intermediate : List (BatchQuery K V × CentroidSearchResult V)) :
    (resumedQueries intermediate).map BatchQuery.key
      = (pendingOf intermediate).map fun p => p.1.key := by
  rw [resumedQueries, map_map]
  rfl

theorem answered_of_round [DecidableEq K] {results}
    (hran : Forall₂ (Ran dist tree depth k target n) queries intermediate)
    (hkeys : (queries.map BatchQuery.key).Nodup)
    (hrest : Answered dist tree depth k target (resumedQueries intermediate)
      (Table.insertAll before (finishedOf intermediate)) results) :
    Answered dist tree depth k target queries before results := by
  have hkeysI := map_key_of_ran hran
  have hnodup : (intermediate.map fun i => i.1.key).Nodup := by rw [hkeysI]; exact hkeys
  constructor
  · intro q hq
    obtain ⟨r, hr⟩ := exists_of_ran hran hq
    cases r with
    | ann postings =>
      obtain ⟨-, -, hout⟩ := mem_of_ran hran hr
      cases hout with
      | done hgoal =>
        refine ⟨postings, hgoal, ?_⟩
        rw [hrest.others, lookup_finished hran hkeys hr]
        -- A query that finished does not wait as well.
        rw [keys_resumedQueries]
        intro hmem
        obtain ⟨⟨q', blocked⟩, hp, heq⟩ := mem_map.mp hmem
        have hsame := inj_on_of_nodup_map hnodup (mem_pendingOf.mp hp) hr heq
        cases hsame
    | readsRequired blocked =>
      exact hrest.goals { q with resumed := some ⟨blocked.level, blocked.found, blocked.reads⟩ }
        (mem_map.mpr ⟨(q, blocked), mem_pendingOf.mpr hr, rfl⟩)
  · intro key hkey
    rw [hrest.others, lookup_not_finished fun hmem => hkey (key_mem_of_finished hran hmem)]
    rw [keys_resumedQueries]
    intro hmem
    exact hkey (hkeysI ▸ keys_pendingOf_sublist.subset hmem)

theorem batchSearchLoop_spec [DecidableEq K] (htree : LevelsAgree tree)
    (htarget : target ≤ depth.maxInnerLevel)
    (h : ∀ q ∈ queries, q.Pursues dist tree depth k target n)
    (hkeys : (queries.map BatchQuery.key).Nodup) (before : Table K (PostingList V)) :
    (batchSearchLoop dist (splitRead tree cached) depth k target n queries before
        = .error .panic ∧ ∃ q ∈ queries, q.goal dist tree depth k target = .error .panic) ∨
    ∃ results, batchSearchLoop dist (splitRead tree cached) depth k target n queries before
        = .ok (some results) ∧ Answered dist tree depth k target queries before results := by
  induction n generalizing queries before with
  | zero =>
    rw [batchSearchLoop]
    rcases round_cases htree htarget h with ⟨hround, hfail⟩ | ⟨intermediate, hround, hran⟩
    · left
      rw [hround]
      exact ⟨rfl, hfail⟩
    · -- No round of reads is left, and no query needs one.
      right
      have hnone : pendingOf intermediate = [] := by
        rw [eq_nil_iff_forall_not_mem]
        rintro ⟨q, blocked⟩ hp
        obtain ⟨-, -, hout⟩ := mem_of_ran hran (mem_pendingOf.mp hp)
        cases hout with
        | waits => omega
      rw [hround]
      simp only [bind, Except.bind, hnone, if_true]
      refine ⟨_, rfl, answered_of_round hran hkeys ?_⟩
      rw [resumedQueries, hnone]
      exact ⟨by simp, fun _ _ => rfl⟩
  | succ n ih =>
    rw [batchSearchLoop]
    rcases round_cases htree htarget h with ⟨hround, hfail⟩ | ⟨intermediate, hround, hran⟩
    · left
      rw [hround]
      exact ⟨rfl, hfail⟩
    · rw [hround]
      simp only [bind, Except.bind]
      by_cases hnone : pendingOf intermediate = []
      · right
        rw [if_pos hnone]
        refine ⟨_, rfl, answered_of_round hran hkeys ?_⟩
        rw [resumedQueries, hnone]
        exact ⟨by simp, fun _ _ => rfl⟩
      · rw [if_neg hnone]
        have hreads : ∀ p ∈ pendingOf intermediate, ∀ r ∈ p.2.reads, r.2 = tree r.1 := by
          rintro ⟨q, blocked⟩ hp
          obtain ⟨-, -, hout⟩ := mem_of_ran hran (mem_pendingOf.mp hp)
          cases hout with
          | waits node above below holds reads => exact reads
        have hnext : (pendingOf intermediate).mapM (fun p => do
            let s ← p.2.start.2.finish (pooledReads (pendingOf intermediate))
            (.ok { p.1 with resumed := some s } : Result (BatchQuery K V)))
            = .ok (resumedQueries intermediate) := by
          refine mapM_eq_pure ?_
          intro p hp
          rw [finish_pooledReads hreads hp]
          rfl
        have hkeys' : ((resumedQueries intermediate).map BatchQuery.key).Nodup := by
          rw [keys_resumedQueries]
          refine keys_pendingOf_sublist.nodup ?_
          rw [map_key_of_ran hran]
          exact hkeys
        simp only [bind, Except.bind] at hnext
        rw [hnext]
        rcases ih (pursues_resumedQueries hran) hkeys'
            (Table.insertAll before (finishedOf intermediate)) with
          ⟨hloop, q', hq', hgoal⟩ | ⟨results, hloop, hres⟩
        · left
          refine ⟨hloop, ?_⟩
          obtain ⟨⟨q, blocked⟩, hp, rfl⟩ := mem_map.mp hq'
          exact ⟨q, (mem_of_ran hran (mem_pendingOf.mp hp)).1, hgoal⟩
        · right
          exact ⟨results, hloop, answered_of_round hran hkeys hres⟩

/-- A batch gives each query what the direct search gives it. The right side knows neither which
lists are in memory nor the other queries. As many rounds of reads are enough as there are levels
above the target, the root among them: `maxInnerLevel + 1 - target`. The batch fails only with an
assertion that fails in the direct search of one of its queries. -/
theorem batchSearch_direct [DecidableEq K] (tree : VectorId → PostingList V)
    (htree : LevelsAgree tree) (cached : VectorId → Bool)
    (htarget : target ≤ depth.maxInnerLevel) (queries : List (K × V))
    (hkeys : (queries.map Prod.fst).Nodup) (rounds : Nat)
    (hrounds : depth.maxInnerLevel + 1 - target ≤ rounds) :
    (batchSearchCentroidsInLevel dist (splitRead tree cached) depth rounds k target queries
        = .error .panic ∧
      ∃ q ∈ queries, searchInLevel dist (fun c => .value (tree c)) depth q.2 k target
        = .error .panic) ∨ ∃ results,
      batchSearchCentroidsInLevel dist (splitRead tree cached) depth rounds k target queries
        = .ok (some results) ∧ (∀ q ∈ queries, ∃ postings,
        searchInLevel dist (fun c => .value (tree c)) depth q.2 k target = .ok postings ∧
        AList.lookup q.1 results = some postings) ∧
      ∀ key, key ∉ queries.map Prod.fst → AList.lookup key results = none := by
  have hkeysMap : ((queries.map fun q => (⟨q.1, q.2, none⟩ : BatchQuery K V)).map BatchQuery.key)
      = queries.map Prod.fst := by
    rw [map_map]
    rfl
  have hpursues : ∀ q ∈ queries.map (fun q => (⟨q.1, q.2, none⟩ : BatchQuery K V)),
      q.Pursues dist tree depth k target rounds := by
    intro q hq
    obtain ⟨e, -, rfl⟩ := mem_map.mp hq
    refine ⟨fun _ => ?_, by simp⟩
    rw [depth.rest_root]
    omega
  rcases batchSearchLoop_spec htree htarget hpursues (hkeysMap ▸ hkeys) ∅ with
    ⟨hloop, q, hq, hgoal⟩ | ⟨results, hloop, hres⟩
  · left
    obtain ⟨e, he, rfl⟩ := mem_map.mp hq
    exact ⟨hloop, e, he, hgoal⟩
  · right
    refine ⟨results, hloop, ?_, ?_⟩
    · intro q hq
      exact hres.goals ⟨q.1, q.2, none⟩ (mem_map.mpr ⟨q, hq, rfl⟩)
    · intro key hkey
      rw [hres.others key (by rw [hkeysMap]; exact hkey)]
      rfl

end

namespace ThreeLevels

theorem leaf_lt : 1 < 2 ^ 8 := by decide

theorem inner_lt : 2 < 2 ^ 8 := by decide

theorem three_le : 3 ≤ 4 := by decide

theorem four_lt : 4 < 2 ^ 8 := by decide

def leaf (n : Fin (2 ^ 56)) : VectorId := ⟨1, n, leaf_lt, n.isLt⟩

def inner (n : Fin (2 ^ 56)) : VectorId := ⟨2, n, inner_lt, n.isLt⟩

def depth : TreeDepth := ⟨4, three_le, four_lt⟩

/-- Two centroids below the root, with two and one leaves. The vector of an id is ten times its
number. -/
def children (c : VectorId) : List VectorId :=
  if c = root then [inner 1, inner 2]
  else if c = inner 1 then [leaf 1, leaf 2]
  else if c = inner 2 then [leaf 3]
  else []

def tree (c : VectorId) : PostingList Nat := (children c).map fun id => (id, 10 * id.number)

def cached (c : VectorId) : Bool := c = root ∨ c = inner 2

theorem levelsAgree : LevelsAgree tree := by
  intro c c' p q _ hp hq heq
  obtain ⟨id, -, rfl⟩ := mem_map.mp hp
  obtain ⟨id', -, rfl⟩ := mem_map.mp hq
  rw [show id = id' from heq]

end ThreeLevels

theorem batchSearch_direct_threeLevels : LevelsAgree ThreeLevels.tree ∧
      ∃ results, batchSearchCentroidsInLevel Nat.dist
          (splitRead ThreeLevels.tree ThreeLevels.cached) ThreeLevels.depth 2 1 1
          [("a", 21), ("b", 31)] = .ok (some results) ∧
        (AList.lookup "a" results).map (fun r => r.map Prod.snd) = some [20] ∧
        (AList.lookup "b" results).map (fun r => r.map Prod.snd) = some [30] := by
  have hdirect : ∀ q : Nat × Nat, q ∈ [(21, 20), (31, 30)] →
      ((searchInLevel Nat.dist (fun c => .value (ThreeLevels.tree c)) ThreeLevels.depth q.1 1
        1).toOption.map fun r => r.map Prod.snd) = some [q.2] := by
    decide +kernel
  have hkeys : ([("a", 21), ("b", 31)].map Prod.fst).Nodup := by decide
  refine ⟨ThreeLevels.levelsAgree, ?_⟩
  have hbatch := @batchSearch_direct Nat Nat _ Nat.dist ThreeLevels.depth 1 1 String _
    ThreeLevels.tree ThreeLevels.levelsAgree ThreeLevels.cached (by decide)
    [("a", 21), ("b", 31)] hkeys 2 (by decide)
  rcases hbatch with ⟨-, q, hq, hfail⟩ | ⟨results, hrun, hq, -⟩
  · exfalso
    simp only [mem_cons, not_mem_nil, or_false] at hq
    rcases hq with rfl | rfl
    · have h := hdirect (21, 20) (by simp)
      rw [hfail] at h
      cases h
    · have h := hdirect (31, 30) (by simp)
      rw [hfail] at h
      cases h
  · refine ⟨results, hrun, ?_, ?_⟩
    · obtain ⟨postings, hgoal, hlookup⟩ := hq ("a", 21) (by simp)
      have h := hdirect (21, 20) (by simp)
      rw [hgoal] at h
      rw [hlookup]
      exact h
    · obtain ⟨postings, hgoal, hlookup⟩ := hq ("b", 31) (by simp)
      have h := hdirect (31, 30) (by simp)
      rw [hgoal] at h
      rw [hlookup]
      exact h

end OpenData.Vector

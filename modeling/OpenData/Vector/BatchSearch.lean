import OpenData.Vector.Centroids

/-!
# Searches that wait for reads

`LeveledCentroidIndex` does not read from the storage itself. A search that needs posting lists
that are not in memory stops and returns them as reads (`BlockedCentroidSearch`). Its caller runs
the reads (`InFlightBlockedCentroidSearch`) and resumes the search with what they returned
(`ResumableCentroidSearch`).
-/

namespace OpenData.Vector

open Lib

variable {V D K : Type}

/-! ### The states of a search -/

structure BlockedCentroidSearch (V : Type) where
  level : Nat
  found : List (VectorId × PostingList V)
  reads : List (VectorId × PostingList V)

structure InFlightBlockedCentroidSearch (V : Type) where
  level : Nat
  found : List (VectorId × PostingList V)
  reads : List VectorId

structure ResumableCentroidSearch (V : Type) where
  level : Nat
  found : List (VectorId × PostingList V)
  read : List (VectorId × PostingList V)

inductive CentroidSearchResult (V : Type) where
  | readsRequired (blocked : BlockedCentroidSearch V)
  | ann (postings : PostingList V)

def BlockedCentroidSearch.start (s : BlockedCentroidSearch V) :
    List (VectorId × PostingList V) × InFlightBlockedCentroidSearch V :=
  (s.reads, { level := s.level, found := s.found, reads := s.reads.map Prod.fst })

/-- `read[&c]` for each id that the search waits for. -/
def InFlightBlockedCentroidSearch.finish (s : InFlightBlockedCentroidSearch V)
    (read : Table VectorId (PostingList V)) : Result (ResumableCentroidSearch V) := do
  let values ← s.reads.mapM fun c => do
    let postings ← expect (AList.lookup c read)
    .ok (c, postings)
  .ok { level := s.level, found := s.found, read := values }

def ResumableCentroidSearch.allFound (level : Nat) (found : List (VectorId × PostingList V)) :
    Result (ResumableCentroidSearch V) := do
  ensure (∀ f ∈ found, level = f.1.level)
  .ok { level, found, read := [] }

/-! ### One search -/

variable [LinearOrder D] (dist : V → V → D) (read : VectorId → MaybeCached (PostingList V))
  (depth : TreeDepth)

def foundOf (centroids : List VectorId) : List (VectorId × PostingList V) :=
  (centroids.filter fun c => (read c).isCached).map fun c => (c, (read c).get)

def readsOf (centroids : List VectorId) : List (VectorId × PostingList V) :=
  (centroids.filter fun c => !(read c).isCached).map fun c => (c, (read c).get)

/-- `search_inner_level`. It goes on with `resume` when everything is in memory. -/
def searchInnerLevel
    (resume : ResumableCentroidSearch V → Result (CentroidSearchResult V)) (innerLevel : Nat)
    (centroids : List VectorId) : Result (CentroidSearchResult V) :=
  if readsOf read centroids = [] then do
    let s ← ResumableCentroidSearch.allFound innerLevel (foundOf read centroids)
    resume s
  else
    .ok (.readsRequired
      { level := innerLevel, found := foundOf read centroids, reads := readsOf read centroids })

/-- `resume_search_in_level`. The first argument bounds the number of levels. -/
def resumeSearchInLevel (query : V) (k target : Nat) :
    Nat → ResumableCentroidSearch V → Result (CentroidSearchResult V)
  | 0, _ => .error .panic
  | fuel + 1, s => do
      let allPostings := (s.found ++ s.read).map Prod.snd
      ensure (allPostings ≠ [])
      ensure (leafLevel < s.level)
      let below := depth.nextLevelDown s.level
      if below = target then do
        let postings ← scoreAndRank dist target query allPostings k
        .ok (.ann postings)
      else do
        let next ← scoreAndRank dist below query allPostings (max beam k)
        searchInnerLevel read (resumeSearchInLevel query k target fuel) below (next.map Prod.fst)

def startSearchInLevel (query : V) (k target : Nat) : Result (CentroidSearchResult V) :=
  match read VectorId.root with
  | .value root => do
      let s ← ResumableCentroidSearch.allFound rootLevel [(VectorId.root, root)]
      resumeSearchInLevel dist read depth query k target depth.val s
  | .future root =>
    .ok (.readsRequired { level := rootLevel, found := [], reads := [(VectorId.root, root)] })

/-! ### Many searches -/

structure BatchQuery (K V : Type) where
  key : K
  query : V
  resumed : Option (ResumableCentroidSearch V)

def BatchQuery.run (k target : Nat) (q : BatchQuery K V) :
    Result (BatchQuery K V × CentroidSearchResult V) := do
  let result ← match q.resumed with
    | some s => resumeSearchInLevel dist read depth q.query k target depth.val s
    | none => startSearchInLevel dist read depth q.query k target
  .ok (q, result)

def finishedOf (intermediate : List (BatchQuery K V × CentroidSearchResult V)) :
    List (K × PostingList V) :=
  intermediate.filterMap fun i =>
    match i.2 with
    | .ann postings => some (i.1.key, postings)
    | .readsRequired _ => none

def pendingOf (intermediate : List (BatchQuery K V × CentroidSearchResult V)) :
    List (BatchQuery K V × BlockedCentroidSearch V) :=
  intermediate.filterMap fun i =>
    match i.2 with
    | .ann _ => none
    | .readsRequired blocked => some (i.1, blocked)

def pooledReads (pending : List (BatchQuery K V × BlockedCentroidSearch V)) :
    Table VectorId (PostingList V) :=
  Table.insertAll ∅ (pending.flatMap fun p => p.2.start.1)

/-- The loop of `batch_search_centroids_in_level`. The result is `none` when the rounds of reads
run out. -/
def batchSearchLoop [DecidableEq K] (k target : Nat) :
    Nat → List (BatchQuery K V) → Table K (PostingList V) →
    Result (Option (Table K (PostingList V)))
  | rounds, queries, results => do
      let intermediate ← queries.mapM (BatchQuery.run dist read depth k target)
      let results := Table.insertAll results (finishedOf intermediate)
      let pending := pendingOf intermediate
      if pending = [] then .ok (some results)
      else
        match rounds with
        | 0 => .ok none
        | rounds + 1 => do
            let next ← pending.mapM fun p => do
              let s ← p.2.start.2.finish (pooledReads pending)
              .ok { p.1 with resumed := some s }
            batchSearchLoop k target rounds next results

def batchSearchCentroidsInLevel [DecidableEq K] (rounds k target : Nat)
    (queries : List (K × V)) : Result (Option (Table K (PostingList V))) :=
  batchSearchLoop dist read depth k target rounds
    (queries.map fun q => { key := q.1, query := q.2, resumed := none }) ∅

end OpenData.Vector

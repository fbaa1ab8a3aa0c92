import OpenData.Proofs.Vector.Delta

/-!
# The three readings of a delta agree

The changes of a batch are read in three ways. The view applies them to the posting lists in memory,
the operations for the storage put, merge and delete records, and the cache applies them once more.
`patched` is what all of them mean: the updates of the delta, replayed on the map that the storage
had (`freeze_agrees`).
-/

namespace OpenData.Vector

open Lib List RecordOp VectorIndexView VectorIndexDelta

variable {V : Type}

/-! ### What the changes mean -/

/-- The postings that the storage has for a node. -/
def stored (st : Storage V) (id : VectorId) : Finmap fun _ : VectorId => V :=
  logMap (st.getPostingList id).postings

theorem stored_eq (st : Storage V) (id : VectorId) :
    stored st id = (st.postingLists.lookup id).elim ∅ fun value => logMap value.postings := by
  rw [stored, Storage.getPostingList]
  cases st.postingLists.lookup id <;> rfl

namespace SearchIndexDelta

def updatesOf (d : SearchIndexDelta V) (id : VectorId) : List (PostingUpdate V) :=
  (d.postingUpdates.lookup id).getD []

def patched (d : SearchIndexDelta V) (id : VectorId) (m : Finmap fun _ : VectorId => V) :
    Finmap fun _ : VectorId => V :=
  if id = VectorId.root then replay (d.root.elim m (replay ∅)) d.rootUpdates
  else if id ∈ d.deletedCentroids then ∅
  else replay m (d.updatesOf id)

variable {d : SearchIndexDelta V} {id : VectorId} {m : Finmap fun _ : VectorId => V}

theorem patched_root :
    d.patched VectorId.root m = replay (d.root.elim m (replay ∅)) d.rootUpdates := if_pos rfl

theorem patched_deleted (hroot : id ≠ VectorId.root) (h : id ∈ d.deletedCentroids) :
    d.patched id m = ∅ := by rw [patched, if_neg hroot, if_pos h]

theorem patched_kept (hroot : id ≠ VectorId.root) (h : id ∉ d.deletedCentroids) :
    d.patched id m = replay m (d.updatesOf id) := by rw [patched, if_neg hroot, if_neg h]

end SearchIndexDelta

/-- The state belongs to the storage: the cache holds the stored lists of the root and of the
centroids above the leaves, and no stored list has a number that is still free. -/
structure Mirrors (state : VectorIndexState V) (st : Storage V) : Prop where
  cached : ∀ id w, state.centroidCache.lookup id = some w →
    Represents w.postingList (stored st id) ∧
      (id = VectorId.root ∨ leafLevel < id.level ∧ (state.centroids.lookup id).isSome)
  root : (state.centroidCache.lookup VectorId.root).isSome
  inner : ∀ id info, state.centroids.lookup id = some info → info.level = id.level ∧
    (leafLevel < id.level → (state.centroidCache.lookup id).isSome)
  wf : state.centroidSequence.block.WF
  free : ∀ id, (st.postingLists.lookup id).isSome → id = VectorId.root ∨
    id.number < state.centroidSequence.peekNextSequence.toNat

variable {state state' : VectorIndexState V} {st : Storage V} {d : SearchIndexDelta V}
  {id : VectorId}

/-! ### The view -/

theorem Mirrors.represents_readPostings (h : Mirrors state st) (epoch : Nat) (id : VectorId) :
    Represents (CachedCentroidReader.readPostings
      { cache := state.centroidCache, snapshot := st, epoch } id).get (stored st id) := by
  unfold CachedCentroidReader.readPostings AllCentroidsCache.posting
  cases hlookup : state.centroidCache.lookup id with
  | none => exact Represents.fromValue _
  | some w =>
    -- An entry that is newer than the snapshot is not used.
    by_cases hepoch : epoch < w.writtenEpoch
    · simp only [Option.bind_some, if_pos hepoch]
      exact Represents.fromValue _
    · simp only [Option.bind_some, if_neg hepoch]
      exact (h.cached id w hlookup).1

theorem MaybeCached.get_map {α β : Type} (f : α → β) (x : MaybeCached α) :
    (x.map f).get = f x.get := by cases x <;> rfl

theorem represents_postingList (h : Mirrors state st) (forward : ForwardIndexDelta V)
    (d : SearchIndexDelta V) (epoch : Nat) (id : VectorId) :
    Represents (postingList
      { delta := ⟨forward, d⟩, state, snapshot := st, snapshotEpoch := epoch } id)
      (d.patched id (stored st id)) := by
  unfold postingList readPostings
  by_cases hroot : id = VectorId.root
  · subst hroot
    rw [if_pos rfl, SearchIndexDelta.patched_root]
    unfold readRoot
    cases hpromoted : d.root with
    | some root =>
      show Represents _ (replay (replay ∅ root) d.rootUpdates)
      rw [← replay_append]
      exact Represents.fromPostingUpdates _
    | none =>
      have hread := h.represents_readPostings epoch VectorId.root
      rw [MaybeCached.get_map]
      by_cases hupdates : d.rootUpdates = []
      · rw [if_pos hupdates, hupdates]
        exact hread
      · rw [if_neg hupdates]
        exact hread.update d.rootUpdates
  · rw [if_neg hroot]
    by_cases hdeleted : id ∈ d.deletedCentroids
    · rw [if_pos hdeleted, SearchIndexDelta.patched_deleted hroot hdeleted]
      exact Represents.nil
    · have hread := h.represents_readPostings epoch id
      rw [if_neg hdeleted, SearchIndexDelta.patched_kept hroot hdeleted, MaybeCached.get_map,
        SearchIndexDelta.updatesOf]
      cases d.postingUpdates.lookup id with
      | none => exact hread
      | some updates => exact hread.update updates

/-! ### The storage -/

def RecordOp.onPostingList (id : VectorId) :
    Option (PostingListValue V) → RecordOp V → Option (PostingListValue V)
  | old, .putPostingList id' value => if id = id' then some value else old
  | old, .mergePostingList id' value =>
    if id = id' then some (PostingListValue.mergeBatch old [value]) else old
  | old, .deletePostingList id' => if id = id' then none else old
  | old, _ => old

theorem foldl_onPostingList_of_forall {ops : List (RecordOp V)}
    (h : ∀ op ∈ ops, ∀ old, op.onPostingList id old = old) (old : Option (PostingListValue V)) :
    ops.foldl (onPostingList id) old = old := by
  induction ops with
  | nil => rfl
  | cons op ops ih =>
    obtain ⟨hop, hops⟩ := forall_mem_cons.mp h
    rw [foldl_cons, hop, ih hops]

theorem foldl_onPostingList_deletes (deleted : List VectorId) (old : Option (PostingListValue V)) :
    (deleted.flatMap fun c =>
      [deleteCentroidInfo c, .deletePostingList c, .deleteCentroidStats c]).foldl
        (onPostingList id) old = if id ∈ deleted then none else old := by
  induction deleted generalizing old with
  | nil => rfl
  | cons c deleted ih =>
    rw [flatMap_cons, foldl_append, ih]
    by_cases heq : id = c
    · simp [onPostingList, heq]
    · simp [onPostingList, heq]

def PostingListValue.mapOf (record : Option (PostingListValue V)) : Finmap fun _ : VectorId => V :=
  record.elim ∅ fun value => logMap value.postings

open PostingListValue (mapOf)

def SearchIndexDelta.rootOps (d : SearchIndexDelta V) : List (RecordOp V) :=
  d.root.toList.map (fun root =>
      .putPostingList VectorId.root (PostingListValue.fromPostingUpdates root))
    ++ (if d.rootUpdates = [] then [] else
      [.mergePostingList VectorId.root (PostingListValue.fromPostingUpdates d.rootUpdates)])

theorem mapOf_rootOps (d : SearchIndexDelta V) (old : Option (PostingListValue V)) :
    mapOf (d.rootOps.foldl (onPostingList VectorId.root) old) =
      d.patched VectorId.root (mapOf old) := by
  rw [SearchIndexDelta.patched_root, SearchIndexDelta.rootOps, foldl_append]
  have hput : mapOf ((d.root.toList.map fun root => putPostingList VectorId.root
      (PostingListValue.fromPostingUpdates root)).foldl
        (onPostingList VectorId.root) old) = d.root.elim (mapOf old) (replay ∅) := by
    cases d.root with
    | none => rfl
    | some root => exact PostingListValue.logMap_fromPostingUpdates root
  rw [← hput]
  by_cases hupdates : d.rootUpdates = []
  · rw [if_pos hupdates, hupdates]
    rfl
  · rw [if_neg hupdates]
    exact PostingListValue.logMap_mergeBatch_fromPostingUpdates _ _

theorem foldl_onPostingList_rootOps (hroot : id ≠ VectorId.root) (d : SearchIndexDelta V)
    (old : Option (PostingListValue V)) :
    d.rootOps.foldl (onPostingList id) old = old := by
  refine foldl_onPostingList_of_forall (fun op hop old => ?_) old
  rcases mem_append.mp hop with hop | hop
  · obtain ⟨root, -, rfl⟩ := mem_map.mp hop
    exact if_neg hroot
  · by_cases hupdates : d.rootUpdates = []
    · simp [hupdates] at hop
    · rw [if_neg hupdates, mem_singleton] at hop
      subst hop
      exact if_neg hroot

theorem foldl_onPostingList_postingOps (d : SearchIndexDelta V)
    (old : Option (PostingListValue V)) : (d.postingUpdates.toList.map fun e =>
        mergePostingList e.1 (PostingListValue.fromPostingUpdates e.2)).foldl
        (onPostingList id) old = (d.postingUpdates.lookup id).elim old fun updates =>
        some (PostingListValue.mergeBatch old [PostingListValue.fromPostingUpdates updates]) := by
  rw [foldl_map, Table.foldl_toList (k := id)]
  · cases d.postingUpdates.lookup id with
    | none => rfl
    | some => exact if_pos rfl
  · exact fun b e hne => if_neg (Ne.symm hne)

theorem mapOf_postingOps (d : SearchIndexDelta V) (old : Option (PostingListValue V)) :
    mapOf ((d.postingUpdates.lookup id).elim old fun updates =>
        some (PostingListValue.mergeBatch old [PostingListValue.fromPostingUpdates updates])) =
      replay (mapOf old) (d.updatesOf id) := by
  rw [SearchIndexDelta.updatesOf]
  cases d.postingUpdates.lookup id with
  | none => rfl
  | some updates => exact PostingListValue.logMap_mergeBatch_fromPostingUpdates updates old

variable {counts : Table VectorId Nat}

theorem foldl_recordOps {ops : List (RecordOp V)} (hops : d.recordOps counts = .ok ops)
    (id : VectorId) (old : Option (PostingListValue V)) :
    ops.foldl (onPostingList id) old =
      if id ∈ d.deletedCentroids then none else
        let old := d.rootOps.foldl (onPostingList id) old
        (d.postingUpdates.lookup id).elim old fun updates =>
          some (PostingListValue.mergeBatch old [PostingListValue.fromPostingUpdates updates]) := by
  obtain ⟨stats, hstats, hops⟩ := exists_of_bind_eq_ok hops
  cases hops
  have hcounted : ∀ op ∈ stats, ∀ old, op.onPostingList id old = old := by
    intro op hop old
    obtain ⟨c, -, hc⟩ := mem_of_mapM_eq_ok hstats hop
    obtain ⟨n, -, hc⟩ := of_expect_bind hc
    obtain ⟨-, hc⟩ := of_ensure_bind hc
    cases hc
    rfl
  have hmap {α : Type} {f : α → RecordOp V} (hf : ∀ a old, (f a).onPostingList id old = old)
      (l : List α) (old : Option (PostingListValue V)) :
      (l.map f).foldl (onPostingList id) old = old := by
    refine foldl_onPostingList_of_forall (fun op hop old => ?_) old
    obtain ⟨a, -, rfl⟩ := mem_map.mp hop
    exact hf a old
  have hblocks := hmap (f := putBlock) (fun _ _ => rfl) d.ops
  have hinfos := hmap (f := fun e : VectorId × CentroidInfoValue V =>
    .putCentroidInfo e.1 e.2) (fun _ _ => rfl) d.upsertedCentroids.toList
  have hinverted := hmap (f := fun e : Field V × MetadataIndexValue =>
    .mergeMetadataIndex e.1 e.2.makeMutuallyExclusive) (fun _ _ => rfl)
    d.invertedIndexUpdates.toList
  have hdepth (old : Option (PostingListValue V)) :
      [putCentroidsMeta d.depth].foldl (onPostingList id) old = old := rfl
  have hroots (old : Option (PostingListValue V)) :
      d.rootOps.foldl (onPostingList id) old = _ := foldl_append
  simp only [foldl_append, foldl_onPostingList_deletes,
    foldl_onPostingList_of_forall hcounted, hblocks, hinfos, hinverted, hdepth, ← hroots,
    foldl_onPostingList_postingOps]

section
variable [DecidableEq V]

theorem lookup_applyOp (st : Storage V) (op : RecordOp V) (id : VectorId) :
    (st.applyOp op).postingLists.lookup id = op.onPostingList id (st.postingLists.lookup id) := by
  cases op with
  | putPostingList id' | deletePostingList id' =>
    by_cases heq : id = id'
    · subst heq
      simp [Storage.applyOp, onPostingList]
    · simp [Storage.applyOp, onPostingList, heq]
  | mergePostingList id' value =>
    simp only [Storage.applyOp, Table.lookup_alter, onPostingList]
    split
    next heq => rw [heq]
    next => rfl
  | _ => rfl

theorem lookup_apply (st : Storage V) (ops : List (RecordOp V)) (id : VectorId) :
    (st.apply ops).postingLists.lookup id =
      ops.foldl (onPostingList id) (st.postingLists.lookup id) := by
  induction ops generalizing st with
  | nil => rfl
  | cons op ops ih =>
    show (Storage.apply (st.applyOp op) ops).postingLists.lookup id = _
    rw [ih, lookup_applyOp, foldl_cons]

theorem stored_recordOps {ops} (hops : d.recordOps counts = .ok ops)
    (hdeleted : VectorId.root ∉ d.deletedCentroids)
    (hposted : d.postingUpdates.lookup VectorId.root = none) (st : Storage V) (id : VectorId) :
    stored (st.apply ops) id = d.patched id (stored st id) := by
  rw [stored_eq, stored_eq, lookup_apply, foldl_recordOps hops]
  show mapOf (if id ∈ d.deletedCentroids then none else _) = d.patched id (mapOf _)
  by_cases hroot : id = VectorId.root
  · subst hroot
    rw [if_neg hdeleted, mapOf_postingOps, mapOf_rootOps, SearchIndexDelta.updatesOf, hposted]
    rfl
  · rw [foldl_onPostingList_rootOps hroot]
    by_cases hmem : id ∈ d.deletedCentroids
    · rw [if_pos hmem, SearchIndexDelta.patched_deleted hroot hmem]
      rfl
    · rw [if_neg hmem, SearchIndexDelta.patched_kept hroot hmem, mapOf_postingOps]

theorem lookup_recordOps_isSome {ops} (hops : d.recordOps counts = .ok ops)
    (hsome : ((st.apply ops).postingLists.lookup id).isSome) (hroot : id ≠ VectorId.root) :
    (st.postingLists.lookup id).isSome ∨ (d.postingUpdates.lookup id).isSome := by
  rw [lookup_apply, foldl_recordOps hops, foldl_onPostingList_rootOps hroot] at hsome
  split at hsome
  next => cases hsome
  next =>
    cases hposted : d.postingUpdates.lookup id with
    | none =>
      rw [hposted] at hsome
      exact .inl hsome
    | some => exact .inr rfl

theorem apply_append (st : Storage V) (ops ops' : List (RecordOp V)) :
    st.apply (ops ++ ops') = (st.apply ops).apply ops' := foldl_append

theorem lookup_forwardOps (st : Storage V) (forward : ForwardIndexDelta V) (id : VectorId) :
    (st.apply forward.recordOps).postingLists.lookup id = st.postingLists.lookup id := by
  rw [lookup_apply]
  refine foldl_onPostingList_of_forall (fun op hop old => ?_) _
  simp only [ForwardIndexDelta.recordOps, mem_append, mem_map, mem_flatMap,
    mem_cons, not_mem_nil, or_false] at hop
  obtain (((⟨_, -, rfl⟩ | ⟨_, -, rfl⟩) | ⟨_, -, rfl⟩) | ⟨_, -, rfl⟩) | ⟨_, -, rfl | rfl⟩ :=
    hop <;> rfl

end

/-! ### The cache -/

variable {updates : List (PostingUpdate V)} {root : Option (List (PostingUpdate V))}
  {e : VectorId × List (PostingUpdate V)} {c : VectorId}

namespace AllCentroidsCache

variable {cache cache' : AllCentroidsCache V} {epoch : Nat} {m : Finmap fun _ : VectorId => V}

/-- The cache has the postings of a node. -/
def Holds (cache : AllCentroidsCache V) (id : VectorId) (m : Finmap fun _ : VectorId => V) : Prop :=
  ∃ w, AList.lookup id cache = some w ∧ Represents w.postingList m

theorem Holds.congr (h : cache.Holds id m) (heq : AList.lookup id cache' = AList.lookup id cache) :
    cache'.Holds id m := by
  obtain ⟨w, hw, hm⟩ := h
  exact ⟨w, heq.trans hw, hm⟩

theorem holds_insert {postings} (hm : Represents postings m) :
    Holds (AList.insert id { postingList := postings, writtenEpoch := epoch } cache) id m :=
  ⟨_, AList.lookup_insert cache, hm⟩

theorem updateRoot_holds (h : updateRoot cache epoch root updates = .ok cache')
    (hm : cache.Holds VectorId.root m) :
    cache'.Holds VectorId.root (replay (root.elim m (replay ∅)) updates) := by
  unfold updateRoot at h
  split at h
  next =>
    obtain ⟨base, hbase, h⟩ := exists_of_bind_eq_ok h
    cases h
    have hbase : Represents base (root.elim m (replay ∅)) := by
      cases root with
      | some root =>
        cases hbase
        exact Represents.fromPostingUpdates root
      | none =>
        obtain ⟨w, hw, hm⟩ := hm
        obtain ⟨w', hw', hbase⟩ := of_expect_bind hbase
        cases hbase
        obtain rfl := Option.mem_unique hw hw'
        exact hm
    refine holds_insert ?_
    by_cases hupdates : updates = []
    · rw [if_pos hupdates, hupdates]
      exact hbase
    · rw [if_neg hupdates]
      exact hbase.update updates
  next hsame =>
    obtain ⟨hnone, hnil⟩ := not_or.mp hsame
    cases h
    rw [Option.not_isSome_iff_eq_none.mp hnone, not_not.mp hnil]
    exact hm

theorem updateRoot_frame (h : updateRoot cache epoch root updates = .ok cache')
    (hid : id ≠ VectorId.root) : AList.lookup id cache' = AList.lookup id cache := by
  unfold updateRoot at h
  split at h
  next =>
    obtain ⟨base, -, h⟩ := exists_of_bind_eq_ok h
    cases h
    exact AList.lookup_insert_ne hid
  next => rw [Except.ok.inj h]

theorem insertNew_frame (h : insertNew epoch cache c = .ok cache') (hid : id ≠ c) :
    AList.lookup id cache' = AList.lookup id cache := by
  unfold insertNew at h
  split at h
  next => rw [Except.ok.inj h]
  next =>
    obtain ⟨-, h⟩ := of_ensure_bind h
    cases h
    exact AList.lookup_insert_ne hid

theorem insertNew_holds (h : insertNew epoch cache id = .ok cache')
    (hlevel : leafLevel < id.level) :
    cache'.Holds id ∅ := by
  unfold insertNew at h
  rw [if_neg hlevel.ne'] at h
  obtain ⟨-, h⟩ := of_ensure_bind h
  cases h
  exact holds_insert Represents.nil

theorem insertNew_leaf (h : insertNew epoch cache id = .ok cache') (hlevel : id.level = leafLevel) :
    AList.lookup id cache' = AList.lookup id cache := by
  unfold insertNew at h
  rw [if_pos hlevel] at h
  rw [Except.ok.inj h]

theorem foldlM_insertNew_holds {new : List VectorId}
    (h : new.foldlM (insertNew epoch) cache = .ok cache') (hlevel : leafLevel < id.level)
    (hmem : id ∈ new) : cache'.Holds id ∅ := by
  refine foldlM_history (I := fun done cache => id ∈ done → cache.Holds id ∅) h
    (fun h => by cases h)
    (fun done cache c cache' ih hc hmem => ?_) hmem
  by_cases heq : id = c
  · subst heq
    exact insertNew_holds hc hlevel
  · have hdone : id ∈ done := by simpa [heq] using hmem
    exact (ih hdone).congr (insertNew_frame hc heq)

theorem updatePosting_frame (h : updatePosting epoch cache e = .ok cache') (hid : id ≠ e.1) :
    AList.lookup id cache' = AList.lookup id cache := by
  unfold updatePosting at h
  split at h
  next => rw [Except.ok.inj h]
  next =>
    obtain ⟨-, h⟩ := of_ensure_bind h
    obtain ⟨w, -, h⟩ := of_expect_bind h
    cases h
    exact AList.lookup_insert_ne hid

theorem updatePosting_isSome (h : updatePosting epoch cache e = .ok cache') :
    (AList.lookup id cache').isSome = (AList.lookup id cache).isSome := by
  by_cases hid : id = e.1
  · unfold updatePosting at h
    split at h
    next => rw [Except.ok.inj h]
    next =>
      obtain ⟨-, h⟩ := of_ensure_bind h
      obtain ⟨w, hw, h⟩ := of_expect_bind h
      cases h
      rw [hid, AList.lookup_insert, hw]
      rfl
  · rw [updatePosting_frame h hid]

theorem updatePosting_holds (h : updatePosting epoch cache (id, updates) = .ok cache')
    (hlevel : leafLevel < id.level) (hm : cache.Holds id m) :
    cache'.Holds id (replay m updates) := by
  unfold updatePosting at h
  rw [if_neg hlevel.ne'] at h
  obtain ⟨-, h⟩ := of_ensure_bind h
  obtain ⟨w, hw, h⟩ := of_expect_bind h
  cases h
  obtain ⟨w', hw', hm⟩ := hm
  obtain rfl := Option.mem_unique hw hw'
  exact holds_insert (hm.update updates)

theorem foldlM_updatePosting_holds {l : List (VectorId × List (PostingUpdate V))}
    (h : l.foldlM (updatePosting epoch) cache = .ok cache') (hl : (l.map Prod.fst).Nodup)
    (hlevel : leafLevel < id.level) (hmem : (id, updates) ∈ l) (hm : cache.Holds id m) :
    cache'.Holds id (replay m updates) := by
  -- The entry of the node, with the entries of other nodes on both sides.
  obtain ⟨l1, l2, rfl⟩ := append_of_mem hmem
  rw [map_append, map_cons, nodup_append, nodup_cons] at hl
  obtain ⟨-, ⟨hafter, -⟩, hbefore⟩ := hl
  rw [foldlM_append] at h
  obtain ⟨before, h1, h⟩ := exists_of_bind_eq_ok h
  rw [foldlM_cons] at h
  obtain ⟨after, hone, h2⟩ := exists_of_bind_eq_ok h
  have hframe1 := foldlM_frame (g := AList.lookup id) h1 fun e he _ _ hstep =>
    updatePosting_frame hstep (hbefore e.1 (mem_map_of_mem he) id mem_cons_self).symm
  have hframe2 := foldlM_frame (g := AList.lookup id) h2 fun e he _ _ hstep =>
    updatePosting_frame hstep fun heq => hafter (mem_map.mpr ⟨e, he, heq.symm⟩)
  exact (updatePosting_holds hone hlevel (hm.congr hframe1)).congr hframe2

theorem foldlM_removeDeleted {deleted : List VectorId}
    (h : deleted.foldlM removeDeleted cache = .ok cache') (id : VectorId) :
    AList.lookup id cache' = (if id ∈ deleted then none else AList.lookup id cache) ∧
      ∀ c ∈ deleted, c.isCentroid := by
  induction deleted generalizing cache with
  | nil =>
    obtain rfl : cache = cache' := by simpa [pure, Except.pure] using h
    simp
  | cons c deleted ih =>
    rw [foldlM_cons] at h
    obtain ⟨mid, hmid, h⟩ := exists_of_bind_eq_ok h
    obtain ⟨hc, hmid⟩ := of_ensure_bind hmid
    cases hmid
    obtain ⟨hlookup, hdeleted⟩ := ih h
    refine ⟨?_, forall_mem_cons.mpr ⟨hc, hdeleted⟩⟩
    rw [hlookup]
    by_cases heq : id = c
    · subst heq
      simp
    · simp [heq, AList.lookup_erase_ne heq]

end AllCentroidsCache

/-! ### Freezing -/

open AllCentroidsCache (Holds)

def SearchIndexDelta.centroidsAfter (d : SearchIndexDelta V) (state : VectorIndexState V) :
    Table VectorId (CentroidInfoValue V) :=
  (state.centroids.eraseAll d.deletedCentroids).insertAll d.upsertedCentroids.toList

theorem lookup_centroidsAfter (d : SearchIndexDelta V) (state : VectorIndexState V) (c : VectorId) :
    AList.lookup c (d.centroidsAfter state) = (d.upsertedCentroids.lookup c).or
      (if c ∈ d.deletedCentroids then none else state.centroids.lookup c) := by
  rw [SearchIndexDelta.centroidsAfter, Table.lookup_insertAll_toList, Table.lookup_eraseAll]

/-- What `freeze` makes of the delta: a state with its caches, and the records to write. -/
structure Freezes (d : SearchIndexDelta V) (epoch : Nat) (state state' : VectorIndexState V)
    (ops : List (RecordOp V)) : Prop where
  cache : state.centroidCache.updatePostings epoch d.root d.rootUpdates d.newCentroids
    (d.cachePostingUpdates (d.centroidsAfter state)) d.deletedCentroids = .ok state'.centroidCache
  ops_eq : ∃ counts, d.recordOps counts = .ok ops
  centroids : state'.centroids = d.centroidsAfter state
  sequence : state'.centroidSequence = d.idAllocator

theorem freeze_spec {epoch ops}
    (h : d.freeze epoch state = .ok (state', ops)) : Freezes d epoch state state' ops := by
  obtain ⟨cache, hcache, h⟩ := exists_of_bind_eq_ok h
  obtain ⟨ops, hops, h⟩ := exists_of_bind_eq_ok h
  cases h
  exact ⟨hcache, ⟨_, hops⟩, rfl, rfl⟩

namespace Freezes

variable {epoch : Nat} {ops : List (RecordOp V)}

theorem isCentroid_of_deleted (h : Freezes d epoch state state' ops)
    (hc : c ∈ d.deletedCentroids) : c.isCentroid := by
  obtain ⟨_, -, hrest⟩ := exists_of_bind_eq_ok h.cache
  obtain ⟨_, -, hrest⟩ := exists_of_bind_eq_ok hrest
  obtain ⟨_, -, hrest⟩ := exists_of_bind_eq_ok hrest
  exact (AllCentroidsCache.foldlM_removeDeleted hrest c).2 c hc

/-- The centroids whose children are in the cache after the freeze. -/
inductive InCache (state : VectorIndexState V) (d : SearchIndexDelta V) (id : VectorId) : Prop
  | root (h : id = VectorId.root)
  | new (h : id ∈ d.newCentroids) (hlevel : leafLevel < id.level)
  | old (hroot : id ≠ VectorId.root) (h : (state.centroidCache.lookup id).isSome)

theorem inCache (h : Freezes d epoch state state' ops) (hpending : d.Pending state)
    (hw : (state'.centroidCache.lookup id).isSome) :
    id ∉ d.deletedCentroids ∧ InCache state d id := by
  obtain ⟨c1, h1, hrest⟩ := exists_of_bind_eq_ok h.cache
  obtain ⟨c2, h2, hrest⟩ := exists_of_bind_eq_ok hrest
  obtain ⟨c3, h3, h4⟩ := exists_of_bind_eq_ok hrest
  rw [(AllCentroidsCache.foldlM_removeDeleted h4 id).1] at hw
  split at hw
  next => cases hw
  next hdeleted =>
    refine ⟨hdeleted, ?_⟩
    -- An update needs an entry and leaves one.
    have hupdates := foldlM_frame (g := fun c => (AList.lookup id c).isSome) h3
      fun _ _ _ _ hstep => AllCentroidsCache.updatePosting_isSome hstep
    rw [hupdates] at hw
    by_cases hroot : id = VectorId.root
    · exact .root hroot
    by_cases hnew : id ∈ d.newCentroids ∧ leafLevel < id.level
    · exact .new hnew.1 hnew.2
    · refine .old hroot ?_
      have hframe := foldlM_frame (g := AList.lookup id) h2 fun c hc _ _ hstep => by
        by_cases heq : id = c
        · subst heq
          have hle : id.level ≤ leafLevel := Nat.not_lt.mp fun hlt => hnew ⟨hc, hlt⟩
          have hpos := (hpending.new id hc).1.1
          exact AllCentroidsCache.insertNew_leaf hstep (Nat.le_antisymm hle hpos)
        · exact AllCentroidsCache.insertNew_frame hstep heq
      rwa [hframe, AllCentroidsCache.updateRoot_frame h1 hroot] at hw

theorem level_of_centroidsAfter (hmirrors : Mirrors state st) (hpending : d.Pending state)
    {info} (hinfo : AList.lookup id (d.centroidsAfter state) = some info) :
    info.level = id.level := by
  rw [lookup_centroidsAfter] at hinfo
  cases hup : d.upsertedCentroids.lookup id with
  | some info' =>
    rw [hup] at hinfo
    obtain rfl := Option.some.inj hinfo
    exact (hpending.upserted id info' hup).1
  | none =>
    rw [hup, Option.none_or] at hinfo
    split at hinfo
    next => cases hinfo
    next => exact (hmirrors.inner id info hinfo).1

theorem known_of_inCache (hmirrors : Mirrors state st) (hpending : d.Pending state)
    (hroot : id ≠ VectorId.root) (hdeleted : id ∉ d.deletedCentroids) (hin : InCache state d id) :
    leafLevel < id.level ∧ (AList.lookup id (d.centroidsAfter state)).isSome := by
  rw [lookup_centroidsAfter, if_neg hdeleted]
  cases hin with
  | root h => exact absurd h hroot
  | new h hlevel =>
    refine ⟨hlevel, ?_⟩
    rw [Option.isSome_or, (hpending.new id h).2.2]
    rfl
  | old _ h =>
    obtain ⟨w, hw⟩ := Option.isSome_iff_exists.mp h
    obtain ⟨hlevel, hknown⟩ := (hmirrors.cached id w hw).2.resolve_left hroot
    refine ⟨hlevel, ?_⟩
    rw [Option.isSome_or, hknown, Bool.or_true]

theorem holds_root (h : Freezes d epoch state state' ops) (hmirrors : Mirrors state st)
    (hpending : d.Pending state) : state'.centroidCache.Holds VectorId.root
      (d.patched VectorId.root (stored st VectorId.root)) := by
  have hdeleted : VectorId.root ∉ d.deletedCentroids := fun hmem =>
    (h.isCentroid_of_deleted hmem).2 rfl
  obtain ⟨c1, h1, hrest⟩ := exists_of_bind_eq_ok h.cache
  obtain ⟨c2, h2, hrest⟩ := exists_of_bind_eq_ok hrest
  obtain ⟨c3, h3, h4⟩ := exists_of_bind_eq_ok hrest
  obtain ⟨w, hw⟩ := Option.isSome_iff_exists.mp hmirrors.root
  have hholds := AllCentroidsCache.updateRoot_holds h1 ⟨w, hw, (hmirrors.cached _ w hw).1⟩
  -- Only the first stage touches the root.
  have hframe2 := foldlM_frame (g := AList.lookup VectorId.root) h2 fun c hc _ _ hstep =>
    AllCentroidsCache.insertNew_frame hstep (hpending.new c hc).1.2.symm
  have hframe3 := foldlM_frame (g := AList.lookup VectorId.root) h3 fun e he _ _ hstep => by
    have hposted := Table.mem_toList.mp (mem_filter.mp he).1
    exact AllCentroidsCache.updatePosting_frame hstep
      (hpending.posted e.1 (by rw [hposted]; rfl)).1.2.symm
  have hframe4 := (AllCentroidsCache.foldlM_removeDeleted h4 VectorId.root).1
  rw [if_neg hdeleted] at hframe4
  rw [SearchIndexDelta.patched_root]
  exact ((hholds.congr hframe2).congr hframe3).congr hframe4

theorem holds_centroid (h : Freezes d epoch state state' ops) (hmirrors : Mirrors state st)
    (hpending : d.Pending state) (hroot : id ≠ VectorId.root) (hdeleted : id ∉ d.deletedCentroids)
    (hin : InCache state d id) : state'.centroidCache.Holds id (d.patched id (stored st id)) := by
  obtain ⟨hlevel, hknown⟩ := known_of_inCache hmirrors hpending hroot hdeleted hin
  obtain ⟨c1, h1, hrest⟩ := exists_of_bind_eq_ok h.cache
  obtain ⟨c2, h2, hrest⟩ := exists_of_bind_eq_ok hrest
  obtain ⟨c3, h3, h4⟩ := exists_of_bind_eq_ok hrest
  have hholds : c2.Holds id (stored st id) := by
    by_cases hnew : id ∈ d.newCentroids
    · -- A new id has a free number, so nothing is stored under it.
      have hfree : st.postingLists.lookup id = none := by
        refine Option.not_isSome_iff_eq_none.mp fun hsome => ?_
        have hlt := (hmirrors.free id hsome).resolve_left hroot
        exact absurd (hpending.new id hnew).2.1 (Nat.not_le.mpr hlt)
      rw [stored_eq, hfree]
      exact AllCentroidsCache.foldlM_insertNew_holds h2 hlevel hnew
    · cases hin with
      | root h => exact absurd h hroot
      | new h => exact absurd h hnew
      | old _ h =>
        obtain ⟨w, hw⟩ := Option.isSome_iff_exists.mp h
        have hframe := foldlM_frame (g := AList.lookup id) h2 fun c hc _ _ hstep =>
          AllCentroidsCache.insertNew_frame hstep fun heq => hnew (heq ▸ hc)
        exact ⟨w, hframe.trans ((AllCentroidsCache.updateRoot_frame h1 hroot).trans hw),
          (hmirrors.cached id w hw).1⟩
  have hframe4 := (AllCentroidsCache.foldlM_removeDeleted h4 id).1
  rw [if_neg hdeleted] at hframe4
  rw [SearchIndexDelta.patched_kept hroot hdeleted, SearchIndexDelta.updatesOf]
  refine Holds.congr ?_ hframe4
  cases hposted : d.postingUpdates.lookup id with
  | none =>
    refine hholds.congr (foldlM_frame (g := AList.lookup id) h3 fun e he _ _ hstep => ?_)
    refine AllCentroidsCache.updatePosting_frame hstep fun heq => ?_
    have hmem := Table.mem_toList.mp (mem_filter.mp he).1
    rw [← heq, hposted] at hmem
    cases hmem
  | some =>
    obtain ⟨info, hinfo⟩ := Option.isSome_iff_exists.mp hknown
    have hpos : 0 < info.level := by
      rw [level_of_centroidsAfter hmirrors hpending hinfo]
      exact Nat.zero_lt_of_lt hlevel
    refine AllCentroidsCache.foldlM_updatePosting_holds h3 ?_ hlevel ?_ hholds
    · exact d.postingUpdates.nodup_toList.sublist (filter_sublist.map Prod.fst)
    · refine mem_filter.mpr ⟨Table.mem_toList.mpr hposted, ?_⟩
      show (AList.lookup id (d.centroidsAfter state)).any _ = true
      rw [hinfo]
      exact decide_eq_true hpos

theorem holds (h : Freezes d epoch state state' ops) (hmirrors : Mirrors state st)
    (hpending : d.Pending state) (hdeleted : id ∉ d.deletedCentroids) (hin : InCache state d id) :
    state'.centroidCache.Holds id (d.patched id (stored st id)) := by
  by_cases hroot : id = VectorId.root
  · subst hroot
    exact h.holds_root hmirrors hpending
  · exact h.holds_centroid hmirrors hpending hroot hdeleted hin

theorem inCache_of_known (hmirrors : Mirrors state st) (hpending : d.Pending state)
    (hlevel : leafLevel < id.level)
    (hknown : (d.upsertedCentroids.lookup id).isSome ∨ (state.centroids.lookup id).isSome) :
    InCache state d id := by
  by_cases hroot : id = VectorId.root
  · exact .root hroot
  have hold : (state.centroids.lookup id).isSome → InCache state d id := fun hsome => by
    obtain ⟨info, hinfo⟩ := Option.isSome_iff_exists.mp hsome
    exact .old hroot ((hmirrors.inner id info hinfo).2 hlevel)
  rcases hknown with hup | hsome
  · obtain ⟨info, hinfo⟩ := Option.isSome_iff_exists.mp hup
    rcases (hpending.upserted id info hinfo).2.2 with hnew | hsome
    · exact .new hnew hlevel
    · exact hold hsome
  · exact hold hsome

variable [DecidableEq V]

theorem stored_apply (h : Freezes d epoch state state' ops) (hpending : d.Pending state)
    (st : Storage V) (id : VectorId) : stored (st.apply ops) id = d.patched id (stored st id) := by
  obtain ⟨counts, hops⟩ := h.ops_eq
  refine stored_recordOps hops (fun hmem => (h.isCentroid_of_deleted hmem).2 rfl) ?_ st id
  exact Option.not_isSome_iff_eq_none.mp fun hsome => (hpending.posted _ hsome).1.2 rfl

end Freezes

section
variable [DecidableEq V] {epoch : Nat} {forward : ForwardIndexDelta V} {records : List (RecordOp V)}

theorem freezes_of_freeze (h : freeze ⟨forward, d⟩ epoch state = .ok (state', records)) :
    ∃ ops, Freezes d epoch state state' ops ∧ ∀ (st : Storage V) (id : VectorId),
      (st.apply records).postingLists.lookup id = (st.apply ops).postingLists.lookup id := by
  obtain ⟨⟨after, ops⟩, hsearch, h⟩ := exists_of_bind_eq_ok h
  cases h
  obtain ⟨hcache, hops, hcentroids, hsequence⟩ := freeze_spec hsearch
  refine ⟨ops, ⟨hcache, hops, hcentroids, hsequence⟩, fun st id => ?_⟩
  rw [apply_append, lookup_apply (st.apply _), lookup_forwardOps, ← lookup_apply]

theorem Mirrors.freeze (hmirrors : Mirrors state st) (hpending : d.Pending state)
    (h : freeze ⟨forward, d⟩ epoch state = .ok (state', records)) :
    Mirrors state' (st.apply records) := by
  obtain ⟨ops, hfreezes, hlookup⟩ := freezes_of_freeze h
  have hstored (id : VectorId) : stored (st.apply records) id = d.patched id (stored st id) := by
    rw [stored_eq, hlookup, ← stored_eq, hfreezes.stored_apply hpending]
  refine ⟨?_, ?_, ?_, ?_, ?_⟩
  · intro id w hw
    obtain ⟨hdeleted, hin⟩ := hfreezes.inCache hpending (by rw [hw]; rfl)
    obtain ⟨w', hw', hm⟩ := hfreezes.holds hmirrors hpending hdeleted hin
    obtain rfl := Option.mem_unique hw hw'
    refine ⟨hstored id ▸ hm, ?_⟩
    by_cases hroot : id = VectorId.root
    · exact .inl hroot
    · rw [hfreezes.centroids]
      exact .inr (Freezes.known_of_inCache hmirrors hpending hroot hdeleted hin)
  · obtain ⟨w, hw, -⟩ := hfreezes.holds_root hmirrors hpending
    rw [hw]
    rfl
  · rw [hfreezes.centroids]
    intro id info hinfo
    refine ⟨Freezes.level_of_centroidsAfter hmirrors hpending hinfo, fun hlevel => ?_⟩
    have hafter : (AList.lookup id (d.centroidsAfter state)).isSome := by
      rw [hinfo]
      rfl
    rw [lookup_centroidsAfter, Option.isSome_or, Bool.or_eq_true] at hafter
    have hdeleted : id ∉ d.deletedCentroids := by
      rcases hafter with hup | hold
      · obtain ⟨info, hinfo⟩ := Option.isSome_iff_exists.mp hup
        exact (hpending.upserted id info hinfo).2.1
      · intro hmem
        rw [if_pos hmem] at hold
        cases hold
    rw [if_neg hdeleted] at hafter
    have hin := Freezes.inCache_of_known hmirrors hpending hlevel hafter
    obtain ⟨w, hw, -⟩ := hfreezes.holds hmirrors hpending hdeleted hin
    rw [hw]
    rfl
  · rw [hfreezes.sequence]
    exact hpending.wf
  · intro id hsome
    rw [hlookup] at hsome
    rw [hfreezes.sequence]
    by_cases hroot : id = VectorId.root
    · exact .inl hroot
    obtain ⟨counts, hops⟩ := hfreezes.ops_eq
    rcases lookup_recordOps_isSome hops hsome hroot with hold | hposted
    · exact .inr (Nat.lt_of_lt_of_le ((hmirrors.free id hold).resolve_left hroot) hpending.next_le)
    · exact .inr (hpending.posted id hposted).2

/-- The postings of a node that is not deleted are the same in the view before the freeze, in the
storage after it and, above the leaves, in the cache after it; a deleted node has none. The state
after the freeze belongs to the storage after it, so this holds for batch after batch. -/
theorem freeze_agrees {ops : List (DeltaOp V)} {snapshotEpoch : Nat} (hmirrors : Mirrors state st)
    (hrun : Run SearchIndexDelta.step (SearchIndexDelta.Issued state) (SearchIndexDelta.new state)
      ops d)
    (hfreeze : freeze ⟨forward, d⟩ epoch state = .ok (state', records)) :
    let view : VectorIndexView V := ⟨⟨forward, d⟩, state, st, snapshotEpoch⟩
    (∀ id ∉ d.deletedCentroids, (∀ p, p ∈ view.postingList id ↔
        p ∈ PostingList.fromValue ((st.apply records).getPostingList id)) ∧
      (view.Node id → leafLevel < id.level → ∃ w, state'.centroidCache.lookup id = some w ∧
        ∀ p, p ∈ view.postingList id ↔ p ∈ w.postingList)) ∧
    (∀ id ∈ d.deletedCentroids, view.postingList id = [] ∧
      PostingList.fromValue ((st.apply records).getPostingList id) = [] ∧
      state'.centroidCache.lookup id = none) ∧
    Mirrors state' (st.apply records) := by
  intro view
  have hpending := SearchIndexDelta.pending_run hmirrors.wf hrun
  obtain ⟨ops, hfreezes, hlookup⟩ := freezes_of_freeze hfreeze
  have hstored (id : VectorId) : stored (st.apply records) id = d.patched id (stored st id) := by
    rw [stored_eq, hlookup, ← stored_eq, hfreezes.stored_apply hpending]
  have hview (id : VectorId) := represents_postingList hmirrors forward d snapshotEpoch id
  have hafter (id : VectorId) := Represents.fromValue ((st.apply records).getPostingList id)
  refine ⟨fun id hdeleted => ⟨fun p => ?_, fun hnode hlevel => ?_⟩, fun id hdeleted => ?_,
    hmirrors.freeze hpending hfreeze⟩
  · rw [(hview id).mem_iff, (hafter id).mem_iff]
    exact iff_of_eq (congrArg (fun m => Finmap.lookup p.1 m = some p.2) (hstored id).symm)
  · have hin : Freezes.InCache state d id := by
      rcases hnode with hroot | ⟨-, hcentroid⟩
      · exact .root hroot
      · rw [centroid, if_neg hdeleted, Option.isSome_or, Bool.or_eq_true]
          at hcentroid
        exact Freezes.inCache_of_known hmirrors hpending hlevel hcentroid
    obtain ⟨w, hw, hm⟩ := hfreezes.holds hmirrors hpending hdeleted hin
    exact ⟨w, hw, fun p => (hview id).mem_iff.trans hm.mem_iff.symm⟩
  · have hroot := (hfreezes.isCentroid_of_deleted hdeleted).2
    have hempty := hstored id
    rw [SearchIndexDelta.patched_deleted hroot hdeleted] at hempty
    have hread := hview id
    rw [SearchIndexDelta.patched_deleted hroot hdeleted] at hread
    refine ⟨hread.eq_nil, ?_, ?_⟩
    · exact Represents.eq_nil (hempty ▸ hafter id)
    · refine Option.not_isSome_iff_eq_none.mp fun hsome => ?_
      exact (hfreezes.inCache hpending hsome).1 hdeleted

end

namespace TwoLevels

theorem data_lt : 0 < 2 ^ 8 := by decide

theorem leaf_lt : 1 < 2 ^ 8 := by decide

theorem inner_lt : 2 < 2 ^ 8 := by decide

theorem three_le : 3 ≤ 4 := by decide

theorem four_lt : 4 < 2 ^ 8 := by decide

theorem one_lt : 1 < 2 ^ 56 := by decide

theorem two_lt : 2 < 2 ^ 56 := by decide

theorem three_lt : 3 < 2 ^ 56 := by decide

theorem five_lt : 5 < 2 ^ 56 := by decide

def vector : VectorId := ⟨0, 5, data_lt, five_lt⟩

def oldLeaf : VectorId := ⟨1, 2, leaf_lt, two_lt⟩

def newLeaf : VectorId := ⟨1, 3, leaf_lt, three_lt⟩

def centroid : VectorId := ⟨2, 1, inner_lt, one_lt⟩

def listOf (id : VectorId) (value : Nat) : PostingListValue Nat :=
  PostingListValue.fromPostingUpdates [.append id value]

def storage : Storage Nat :=
  { Storage.empty with
    postingLists := AList.insert VectorId.root (listOf centroid 10)
      (AList.insert centroid (listOf oldLeaf 20)
        (AList.insert oldLeaf (listOf vector 20) ∅)) }

def before : VectorIndexState Nat where
  dictionary := ∅
  depth := ⟨4, three_le, four_lt⟩
  rootCentroidCount := 1
  centroids := AList.insert centroid ⟨2, 10, VectorId.root⟩
    (AList.insert oldLeaf ⟨1, 20, centroid⟩ ∅)
  centroidCounts := AList.insert centroid 1 (AList.insert oldLeaf 1 ∅)
  sequence := ⟨[], none, 0⟩
  centroidSequence := ⟨[], some ⟨0, 4096⟩, 3⟩
  centroidCache := AList.insert VectorId.root ⟨PostingList.fromValue (listOf centroid 10), 0⟩
    (AList.insert centroid ⟨PostingList.fromValue (listOf oldLeaf 20), 0⟩ ∅)

/-- The leaf is replaced by a new one. -/
def ops : List (DeltaOp Nat) :=
  [.addCentroid 1 30 centroid, .addToPosting centroid newLeaf 30,
    .addToPosting newLeaf vector 20, .removeFromPosting centroid oldLeaf,
    .deleteCentroids [oldLeaf]]

theorem mirrors : Mirrors before storage where
  cached := by
    intro id w hw
    by_cases hroot : id = VectorId.root
    · subst hroot
      obtain rfl := Option.some.inj ((AList.lookup_insert _).symm.trans hw)
      exact ⟨Represents.fromValue (listOf centroid 10), .inl rfl⟩
    · rw [before, AList.lookup_insert_ne hroot] at hw
      by_cases hinner : id = centroid
      · subst hinner
        obtain rfl := Option.some.inj ((AList.lookup_insert _).symm.trans hw)
        exact ⟨Represents.fromValue (listOf oldLeaf 20), .inr (by decide)⟩
      · rw [AList.lookup_insert_ne hinner] at hw
        cases hw
  root := by decide
  inner := by
    intro id info hinfo
    by_cases hinner : id = centroid
    · subst hinner
      obtain rfl := Option.some.inj ((AList.lookup_insert _).symm.trans hinfo)
      decide
    · rw [before, AList.lookup_insert_ne hinner] at hinfo
      by_cases hleaf : id = oldLeaf
      · subst hleaf
        obtain rfl := Option.some.inj ((AList.lookup_insert _).symm.trans hinfo)
        decide
      · rw [AList.lookup_insert_ne hleaf] at hinfo
        cases hinfo
  wf := ⟨by decide, by decide⟩
  free := by
    intro id hsome
    by_cases hroot : id = VectorId.root
    · exact .inl hroot
    · rw [storage, AList.lookup_insert_ne hroot] at hsome
      by_cases hinner : id = centroid
      · exact .inr (hinner ▸ by decide)
      · rw [AList.lookup_insert_ne hinner] at hsome
        by_cases hleaf : id = oldLeaf
        · exact .inr (hleaf ▸ by decide)
        · rw [AList.lookup_insert_ne hleaf] at hsome
          cases hsome

end TwoLevels

theorem freeze_agrees_twoLevels : Mirrors TwoLevels.before TwoLevels.storage ∧ ∃ d state' records,
      Run SearchIndexDelta.step (SearchIndexDelta.Issued TwoLevels.before)
        (SearchIndexDelta.new TwoLevels.before) TwoLevels.ops d ∧
      freeze ⟨ForwardIndexDelta.new TwoLevels.before, d⟩ 1 TwoLevels.before =
        .ok (state', records) ∧ (TwoLevels.newLeaf, 30) ∈ PostingList.fromValue
        ((TwoLevels.storage.apply records).getPostingList TwoLevels.centroid) ∧
      PostingList.fromValue
        ((TwoLevels.storage.apply records).getPostingList TwoLevels.oldLeaf) = [] := by
  have hall : ((TwoLevels.ops.foldlM (fun d op =>
      if decide (SearchIndexDelta.Issued TwoLevels.before d op) then d.step op else none)
      (SearchIndexDelta.new TwoLevels.before)).bind fun d =>
        (freeze ⟨ForwardIndexDelta.new TwoLevels.before, d⟩ 1
          TwoLevels.before).toOption.map fun _ => (d.deletedCentroids,
            postingList ⟨⟨ForwardIndexDelta.new TwoLevels.before, d⟩,
              TwoLevels.before, TwoLevels.storage, 0⟩ TwoLevels.centroid)) =
      some ([TwoLevels.oldLeaf], [(TwoLevels.newLeaf, 30)]) := by decide +kernel
  obtain ⟨d, hops, hrest⟩ := Option.bind_eq_some_iff.mp hall
  obtain ⟨⟨state', records⟩, hfreeze, hview⟩ := Option.map_eq_some_iff.mp hrest
  obtain ⟨hdeleted, hinner⟩ := Prod.mk.inj hview
  have hrun := Run.of_check (fun _ _ h => of_decide_eq_true h) hops
  have hfreeze := toOption_eq_some.mp hfreeze
  obtain ⟨hkept, hgone, -⟩ := @freeze_agrees Nat TwoLevels.before state' TwoLevels.storage d _ 1 _
    records TwoLevels.ops 0 TwoLevels.mirrors hrun hfreeze
  refine ⟨TwoLevels.mirrors, d, state', records, hrun, hfreeze, ?_, ?_⟩
  · refine ((hkept TwoLevels.centroid ?_).1 _).mp ?_
    · rw [hdeleted]
      decide
    · rw [hinner]
      exact mem_singleton_self _
  · exact (hgone TwoLevels.oldLeaf (hdeleted ▸ mem_singleton_self _)).2.1

end OpenData.Vector

import OpenData.Lib.Regroup
import OpenData.Timeseries.Merge
import OpenData.Proofs.Timeseries.Serde

/-!
# The merge operator may regroup its operands

A store with merges combines operands when it likes: a compaction may merge some consecutive
operands of a key on their own and merge the result into the value later. That is sound if the final
value does not depend on the grouping (`mergeBatch_regroup`).
-/

namespace OpenData.Timeseries

open Lib Common List TimeSeriesValue

/-! ### What a value stands for -/

section

variable (crates : Crates)

/-- Later times come later. -/
def Increasing (points : List Sample) : Prop :=
  points.Pairwise fun a b => a.timestampMs.toInt < b.timestampMs.toInt

/-- The value decodes, and samples are sorted by time. -/
def Valid : RecordType → Bytes → Prop
  | .timeSeries, v => ∃ points, decode crates v = .ok points ∧ Increasing points
  | .invertedIndex, v => ∃ postings, crates.roaringDeserialize v = .ok postings
  | .bucketList, v => ∃ buckets, BucketListValue.decode v = .ok buckets
  | .seriesDictionary, _ => True
  | .forwardIndex, _ => True

def SameValue : RecordType → Bytes → Bytes → Prop
  | .timeSeries, v, w => ∃ points,
      decode crates v = .ok points ∧ decode crates w = .ok points
  | .invertedIndex, v, w => ∃ postings,
      crates.roaringDeserialize v = .ok postings ∧ crates.roaringDeserialize w = .ok postings
  | .bucketList, v, w => ∃ buckets,
      BucketListValue.decode v = .ok buckets ∧ BucketListValue.decode w = .ok buckets
  | .seriesDictionary, v, w => v = w
  | .forwardIndex, v, w => v = w

/-- Both merges return values that decode to the same, unless there is nothing to merge: a record
that is replaced has no merge of no values. -/
def SameMerge (t : RecordType) (values : List Bytes) (r1 r2 : Option Bytes) : Prop :=
  (∃ v w, r1 = some v ∧ r2 = some w ∧ SameValue crates t v w) ∨
    ((t = .seriesDictionary ∨ t = .forwardIndex) ∧ values = [] ∧ r1 = none ∧ r2 = none)

def decoded {α : Type} [Inhabited α] (decode : Bytes → Except EncodingError α) (v : Bytes) : α :=
  (decode v).toOption.getD default

end

variable {v : Bytes}

theorem decode_eq_ok {α : Type} [Inhabited α] {decode : Bytes → Except EncodingError α}
    (h : ∃ a, decode v = .ok a) : decode v = .ok (decoded decode v) := by
  obtain ⟨a, ha⟩ := h
  simp [decoded, ha, Except.toOption]

theorem decoded_of_eq_ok {α : Type} [Inhabited α] {decode : Bytes → Except EncodingError α} {a}
    (h : decode v = .ok a) : decoded decode v = a := by
  simp [decoded, h, Except.toOption]

/-! ### Posting sets -/

variable {operands : List Bytes} {existing : Option Bytes} {groups : List (List Bytes)}

variable {crates : Crates}

theorem mergeBatchInvertedIndex_spec (hcrates : crates.RoundTrip)
    (h : ∀ v ∈ existing.toList ++ operands, ∃ p, crates.roaringDeserialize v = .ok p) :
    ∃ v, mergeBatchInvertedIndex crates existing operands = .ok v ∧
      crates.roaringDeserialize v = .ok
        (((existing.toList ++ operands).map (decoded crates.roaringDeserialize)).foldl
          (· ∪ ·) ∅) := by
  have hstart : existing.elim (.ok ∅) crates.roaringDeserialize =
      .ok ((existing.toList.map (decoded crates.roaringDeserialize)).foldl (· ∪ ·) ∅) := by
    cases existing with
    | none => rfl
    | some e => simp [decode_eq_ok (h e (by simp))]
  have hloop : ∀ p, operands.foldlM (fun merged operand => do
        let bitmap ← crates.roaringDeserialize operand
        Except.ok (merged ∪ bitmap)) p =
      .ok ((operands.map (decoded crates.roaringDeserialize)).foldl (· ∪ ·) p) := by
    intro p
    rw [foldl_map]
    refine foldlM_eq_pure (fun p operand ho => ?_) p
    rw [decode_eq_ok (h operand (mem_append_right _ ho))]
    rfl
  obtain ⟨v, hv, hdecode⟩ := hcrates.roaring
    (((existing.toList ++ operands).map (decoded crates.roaringDeserialize)).foldl (· ∪ ·) ∅)
  refine ⟨v, ?_, hdecode⟩
  rw [mergeBatchInvertedIndex, hstart]
  show (operands.foldlM _ _ >>= crates.roaringSerialize) = _
  rw [hloop, ← foldl_append, ← map_append]
  exact hv

theorem foldl_union_flatten (p : Finset SeriesId) (groups : List (List (Finset SeriesId))) :
    (groups.map fun g => g.foldl (· ∪ ·) ∅).foldl (· ∪ ·) p = groups.flatten.foldl (· ∪ ·) p := by
  have hpull : ∀ (g : List (Finset SeriesId)) (p : Finset SeriesId),
      p ∪ g.foldl (· ∪ ·) ∅ = g.foldl (· ∪ ·) p := by
    intro g p
    have hassoc : Std.Associative (α := Finset SeriesId) (· ∪ ·) := ⟨Finset.union_assoc⟩
    exact foldl_assoc.symm.trans (by rw [Finset.union_empty])
  induction groups generalizing p with
  | nil => rfl
  | cons g groups ih =>
    rw [map_cons, foldl_cons, hpull, ih, flatten_cons, foldl_append]

/-! ### Samples -/

theorem increasing_decoded (h : Valid crates .timeSeries v) :
    Increasing (decoded (decode crates) v) := by
  obtain ⟨points, hdecode, hincreasing⟩ := h
  rwa [decoded_of_eq_ok hdecode]

theorem decode_tszEncode (hcrates : crates.RoundTrip) {points} (hne : points ≠ []) :
    decode crates (crates.tszEncode points) = .ok points := by
  rw [decode, if_neg (hcrates.tsz_ne_nil points hne), hcrates.tsz points hne,
    mapM_map]
  exact (mapM_eq_pure fun a _ => rfl).trans (by simp; rfl)

section

variable (hcrates : crates.RoundTrip) {sources : List Bytes}
  (h : ∀ v ∈ sources, Valid crates .timeSeries v)

include hcrates h in
theorem mergeSources_spec (hne : ∀ v ∈ sources, v ≠ []) : ∃ v, mergeSources crates sources = .ok v ∧
      decode crates v = .ok (lastWinsMerge (fun s : Sample => s.timestampMs.toInt)
          (sources.map (decoded (decode crates)))) := by
  match sources with
  | [] => exact ⟨[], rfl, rfl⟩
  | [source] =>
    have hsource := h source mem_cons_self
    refine ⟨source, rfl, ?_⟩
    rw [map_singleton, lastWinsMerge_singleton (increasing_decoded hsource)]
    exact decode_eq_ok ⟨_, hsource.choose_spec.1⟩
  | first :: second :: rest =>
    have hsamples : (first :: second :: rest).mapM (fun source =>
        (crates.tszDecode source).mapM id) =
        .ok ((first :: second :: rest).map (decoded (decode crates))) := by
      refine mapM_eq_pure fun v hv => ?_
      obtain ⟨points, hdecode, -⟩ := h v hv
      rw [decoded_of_eq_ok hdecode]
      rwa [decode, if_neg (hne v hv)] at hdecode
    -- With two sources or more the samples are decoded and merged.
    show ∃ v, (List.mapM _ (first :: second :: rest) >>= fun samples =>
      if samples.all List.isEmpty then Except.ok []
      else .ok (crates.tszEncode (lastWinsMerge (fun s => s.timestampMs.toInt) samples))) =
        .ok v ∧ _
    rw [hsamples]
    generalize hlists : (first :: second :: rest).map (decoded (decode crates)) = lists
    have hnil : lastWinsMerge (fun s : Sample => s.timestampMs.toInt) lists = [] ↔
        ∀ s ∈ lists, s = [] :=
      lastWinsMerge_eq_nil_iff
    show ∃ v, (if lists.all List.isEmpty then Except.ok [] else _) = .ok v ∧ _
    by_cases hempty : lists.all List.isEmpty = true
    · rw [if_pos hempty, hnil.mpr (by simpa using hempty)]
      exact ⟨[], rfl, rfl⟩
    · rw [if_neg hempty]
      exact ⟨_, rfl, decode_tszEncode hcrates fun heq => hempty (by simpa using hnil.mp heq)⟩

include hcrates in
theorem mergeBatchTimeSeries_spec
    (h : ∀ v ∈ existing.toList ++ operands, Valid crates .timeSeries v) :
    ∃ v, mergeBatchTimeSeries crates existing operands = .ok v ∧
      decode crates v = .ok (lastWinsMerge (fun s : Sample => s.timestampMs.toInt)
          ((existing.toList ++ operands).map (decoded (decode crates)))) := by
  have hsources : ∀ v ∈ (existing.toList ++ operands).filter (fun source => !source.isEmpty),
      Valid crates .timeSeries v := fun v hv => h v (mem_of_mem_filter hv)
  obtain ⟨v, hv, hdecode⟩ := mergeSources_spec hcrates hsources fun v hv => by
    simpa using (mem_filter.mp hv).2
  refine ⟨v, hv, ?_⟩
  rw [hdecode]
  -- Empty values have no samples, so that leaving them out changes nothing.
  refine congrArg _ (eq_of_find?_eq (pairwise_lastWinsMerge _) (pairwise_lastWinsMerge _)
    fun k => ?_)
  rw [find?_lastWinsMerge, find?_lastWinsMerge, lastWins_map_filter]
  intro v hv
  obtain rfl : v = [] := by simpa using hv
  exact decoded_of_eq_ok rfl

end

/-! ### Bucket lists and other values -/

theorem mergeBatchBucketList_spec
    (h : ∀ v ∈ existing.toList ++ operands, ∃ buckets, BucketListValue.decode v = .ok buckets) :
    ∃ v, mergeBatchBucketList existing operands = .ok v ∧
      BucketListValue.decode v = .ok (sortBy (fun bucket : UInt8 × UInt32 => bucket.2.toNat)
        (pushAll ((existing.map (decoded BucketListValue.decode)).getD [])
          (operands.map (decoded BucketListValue.decode)).flatten)) := by
  refine ⟨_, ?_, BucketListValue.decode_encode _⟩
  have hstart : existing.elim (.ok []) BucketListValue.decode =
      .ok ((existing.map (decoded BucketListValue.decode)).getD []) := by
    cases existing with
    | none => rfl
    | some e => exact decode_eq_ok (h e (by simp))
  have hloop : ∀ buckets, operands.foldlM (fun buckets operand => do
        let otherBuckets ← BucketListValue.decode operand
        Except.ok (pushAll buckets otherBuckets)) buckets =
      .ok (pushAll buckets (operands.map (decoded BucketListValue.decode)).flatten) := by
    intro buckets
    have hflat : pushAll buckets (operands.map (decoded BucketListValue.decode)).flatten =
        operands.foldl (fun buckets operand =>
          pushAll buckets (decoded BucketListValue.decode operand)) buckets := by
      rw [pushAll, foldl_flatten, foldl_map]
      rfl
    rw [hflat]
    refine foldlM_eq_pure (fun buckets operand ho => ?_) buckets
    rw [decode_eq_ok (h operand (mem_append_right _ ho))]
    rfl
  rw [mergeBatchBucketList, hstart]
  show (operands.foldlM _ _ >>= fun buckets => Except.ok _) = _
  rw [hloop]
  rfl

/-! ### Groups -/

theorem getLast?_flatten_of_ne_nil (h : ∀ g ∈ groups, g ≠ []) :
    ∃ results, groups.mapM (fun g => g.getLast?) = some results ∧
      results.getLast? = groups.flatten.getLast? := by
  have hresults : groups.mapM List.getLast? = some (groups.map fun g => g.getLast?.getD []) := by
    refine mapM_eq_pure fun g hg => ?_
    rw [List.getLast?_eq_some_getLast (h g hg)]
    rfl
  exact ⟨_, hresults, getLast?_of_mapM_getLast? hresults⟩

/-- The merge returns on the groups and on their results, and does not see the groups. -/
def Regroups (crates : Crates) (t : RecordType)
    (merge : Option Bytes → List Bytes → Except EncodingError Bytes) (existing : Option Bytes)
    (groups : List (List Bytes)) : Prop :=
  ∃ results, groups.mapM (fun g => (merge none g).toOption) = some results ∧
    ∃ v w, merge existing groups.flatten = .ok v ∧ merge existing results = .ok w ∧
      SameValue crates t v w

section

variable {α : Type} {t : RecordType} {R : Bytes → α → Prop}
  {merge : Option Bytes → List Bytes → Except EncodingError Bytes}

/-- A merge that never fails on values that stand for something. -/
theorem regroups_of_spec (value : Option α → List α → α)
    (hreads : ∀ v, Valid crates t v → ∃ a, R v a)
    (hsame : ∀ v w a, R v a → R w a → SameValue crates t v w)
    (hspec : ∀ existing operands e as, Option.Rel R existing e → Forall₂ R operands as →
      ∃ v, merge existing operands = .ok v ∧ R v (value e as))
    (hvalue : ∀ e (gs : List (List α)), value e (gs.map (value none)) = value e gs.flatten)
    (hexisting : ∀ v ∈ existing, Valid crates t v)
    (hoperands : ∀ g ∈ groups, ∀ v ∈ g, Valid crates t v) :
    Regroups crates t merge existing groups := by
  obtain ⟨e, gs, he, hgs⟩ : ∃ e gs, Option.Rel R existing e ∧ Forall₂ (Forall₂ R) groups gs := by
    refine exists_forall₂_groups fun v hv => hreads v ?_
    rcases mem_append.mp hv with hv | hv
    · exact hexisting v (by simpa using hv)
    · obtain ⟨g, hg, hvg⟩ := mem_flatten.mp hv
      exact hoperands g hg v hvg
  have hreturns : ∀ {existing operands e as}, Option.Rel R existing e → Forall₂ R operands as →
      ∃ v, (merge existing operands).toOption = some v ∧ R v (value e as) := by
    intro existing operands e as he has
    obtain ⟨v, hv, hread⟩ := hspec existing operands e as he has
    exact ⟨v, toOption_eq_some.mpr hv, hread⟩
  obtain ⟨results, hresults⟩ : ∃ results, groups.mapM (fun g => (merge none g).toOption) =
      some results := by
    refine ⟨_, mapM_eq_pure (g := fun g => (merge none g).toOption.getD []) fun g hg => ?_⟩
    obtain ⟨as, has⟩ := exists_forall₂ fun v hv => hreads v (hoperands g hg v hv)
    obtain ⟨v, hv, -⟩ := hreturns .none has
    rw [hv]
    rfl
  obtain ⟨a, ⟨w, hw, hreadw⟩, v, hv, hreadv⟩ := regroup (fun a r => ∃ v, r = some v ∧ R v a) value
    (fun _ _ => True) (fun he has _ => hreturns he has)
    (fun _ _ h => by obtain ⟨v, hv, hread⟩ := h; exact Option.some.inj hv ▸ hread)
    he hgs trivial (fun _ _ => trivial) trivial (hvalue e gs) hresults
  exact ⟨results, hresults, v, w, toOption_eq_some.mp hv, toOption_eq_some.mp hw,
    hsame v w a hreadv hreadw⟩

end

section

variable {α : Type} {decode : Bytes → Except EncodingError α} {P : α → Prop}

theorem map_decoded [Inhabited α] {l as} (h : Forall₂ (fun v a => decode v = .ok a ∧ P a) l as) :
    l.map (decoded decode) = as := by
  induction h with
  | nil => rfl
  | cons hv _ ih => rw [map_cons, decoded_of_eq_ok hv.1, ih]

theorem exists_of_mem_left {l as} (h : Forall₂ (fun v a => decode v = .ok a ∧ P a) l as) :
    ∀ v ∈ l, ∃ a, decode v = .ok a ∧ P a := by
  intro v hv
  obtain ⟨a, -, ha⟩ := exists_of_mem_forall₂ h.flip hv
  exact ⟨a, ha⟩

end

theorem mergeBatchTimeSeries_regroup (hcrates : crates.RoundTrip)
    (hexisting : ∀ v ∈ existing, Valid crates .timeSeries v)
    (hoperands : ∀ g ∈ groups, ∀ v ∈ g, Valid crates .timeSeries v) :
    Regroups crates .timeSeries (mergeBatchTimeSeries crates) existing groups := by
  refine regroups_of_spec
    (fun e as => lastWinsMerge (fun s : Sample => s.timestampMs.toInt) (e.toList ++ as))
    (R := fun v points => decode crates v = .ok points ∧ Increasing points)
    (fun _ h => h) (fun _ _ points hv hw => ⟨points, hv.1, hw.1⟩)
    (fun existing operands e as he has => ?_)
    (fun e gs => lastWinsMerge_flatten _ _) hexisting hoperands
  have hread := forall₂_append_of_rel he has
  obtain ⟨v, hv, hdecode⟩ := mergeBatchTimeSeries_spec hcrates (exists_of_mem_left hread)
  rw [map_decoded hread] at hdecode
  exact ⟨v, hv, hdecode, pairwise_lastWinsMerge _⟩

theorem mergeBatchInvertedIndex_regroup (hcrates : crates.RoundTrip)
    (hexisting : ∀ v ∈ existing, Valid crates .invertedIndex v)
    (hoperands : ∀ g ∈ groups, ∀ v ∈ g, Valid crates .invertedIndex v) :
    Regroups crates .invertedIndex (mergeBatchInvertedIndex crates) existing groups := by
  refine regroups_of_spec (fun e as => (e.toList ++ as).foldl (· ∪ ·) ∅)
    (R := fun v postings => crates.roaringDeserialize v = .ok postings ∧ True)
    (fun _ h => by simpa [Valid] using h) (fun _ _ postings hv hw => ⟨postings, hv.1, hw.1⟩)
    (fun existing operands e as he has => ?_) (fun e gs => ?_) hexisting hoperands
  · have hread := forall₂_append_of_rel he has
    obtain ⟨v, hv, hdecode⟩ := mergeBatchInvertedIndex_spec hcrates fun v hv =>
      (exists_of_mem_left hread v hv).imp fun _ h => h.1
    rw [map_decoded hread] at hdecode
    exact ⟨v, hv, hdecode, trivial⟩
  · have hflatten := foldl_union_flatten (e.toList.foldl (· ∪ ·) ∅) gs
    simpa using hflatten

theorem mergeBatchBucketList_regroup (hexisting : ∀ v ∈ existing, Valid crates .bucketList v)
    (hoperands : ∀ g ∈ groups, ∀ v ∈ g, Valid crates .bucketList v) :
    Regroups crates .bucketList mergeBatchBucketList existing groups := by
  refine regroups_of_spec
    (fun e as => sortBy (fun bucket : UInt8 × UInt32 => bucket.2.toNat)
      (pushAll (e.getD []) as.flatten))
    (R := fun v buckets => BucketListValue.decode v = .ok buckets ∧ True)
    (fun _ h => by simpa [Valid] using h) (fun _ _ buckets hv hw => ⟨buckets, hv.1, hw.1⟩)
    (fun existing operands e as he has => ?_) (fun e gs => ?_) hexisting hoperands
  · obtain ⟨v, hv, hdecode⟩ := mergeBatchBucketList_spec fun v hv =>
      (exists_of_mem_left (forall₂_append_of_rel he has) v hv).imp fun _ h => h.1
    have hstart : existing.map (decoded BucketListValue.decode) = e := by
      cases he with
      | none => rfl
      | some h => exact congrArg some (decoded_of_eq_ok h.1)
    rw [map_decoded has, hstart] at hdecode
    exact ⟨v, hv, hdecode, trivial⟩
  · have hflatten := sortBy_pushAll_flatten (fun bucket : UInt8 × UInt32 => bucket.2.toNat)
      (e.getD []) (gs.map List.flatten)
    rw [map_map] at hflatten
    rw [flatten_flatten]
    exact hflatten

/-- Merging groups of operands first gives a value that decodes to the same, for every kind of
record. A group of a record that is replaced has an operand. -/
theorem mergeBatch_regroup (hcrates : crates.RoundTrip) {key : Bytes} {t : RecordType}
    (hkey : recordTypeOf key = some t) (existing : Option Bytes) (groups : List (List Bytes))
    (hexisting : ∀ v ∈ existing, Valid crates t v)
    (hoperands : ∀ g ∈ groups, ∀ v ∈ g, Valid crates t v)
    (hgroups : t = .seriesDictionary ∨ t = .forwardIndex → ∀ g ∈ groups, g ≠ []) :
    ∃ results, groups.mapM (fun g => mergeBatch crates key none g) = some results ∧
      SameMerge crates t (existing.toList ++ groups.flatten)
        (mergeBatch crates key existing groups.flatten)
        (mergeBatch crates key existing results) := by
  by_cases ht : t = .seriesDictionary ∨ t = .forwardIndex
  · -- The last operand is the last operand of the last group.
    have hmerge : ∀ e ops, mergeBatch crates key e ops = ops.getLast?.or e := by
      intro e ops
      rw [mergeBatch, hkey, ← defaultMergeBatch_eq]
      rcases ht with rfl | rfl <;> rfl
    obtain ⟨results, hresults, hlast⟩ := getLast?_flatten_of_ne_nil (hgroups ht)
    simp only [hmerge, Option.or_none]
    refine ⟨results, hresults, ?_⟩
    rw [hlast]
    cases hmerged : groups.flatten.getLast?.or existing with
    | none => exact .inr ⟨ht, by simpa [and_comm] using hmerged, rfl, rfl⟩
    | some v => exact .inl ⟨v, v, rfl, rfl, by rcases ht with rfl | rfl <;> rfl⟩
  · -- A merge that decodes and encodes never fails on valid values.
    obtain ⟨merge, hmerge, results, hresults, v, w, hv, hw, hsame⟩ :
        ∃ merge : Option Bytes → List Bytes → Except EncodingError Bytes,
          (∀ e ops, mergeBatch crates key e ops = (merge e ops).toOption) ∧
            Regroups crates t merge existing groups := by
      cases t with
      | timeSeries =>
        refine ⟨_, fun e ops => ?_, mergeBatchTimeSeries_regroup hcrates hexisting hoperands⟩
        rw [mergeBatch, hkey]
        rfl
      | invertedIndex =>
        refine ⟨_, fun e ops => ?_, mergeBatchInvertedIndex_regroup hcrates hexisting hoperands⟩
        rw [mergeBatch, hkey]
        rfl
      | bucketList =>
        refine ⟨_, fun e ops => ?_, mergeBatchBucketList_regroup hexisting hoperands⟩
        rw [mergeBatch, hkey]
        rfl
      | seriesDictionary | forwardIndex => simp at ht
    simp only [hmerge]
    refine ⟨results, hresults, .inl ⟨v, w, ?_, ?_, hsame⟩⟩
    · rw [hv]
      rfl
    · rw [hw]
      rfl

/-- Three operands in two groups, merged into samples that one of them overwrites. -/
theorem mergeBatch_regroup_overwritten :
    ∃ results, [[sampleBytes ⟨1, 7⟩], [sampleBytes ⟨2, 8⟩, sampleBytes ⟨3, 9⟩]].mapM
        (fun g => mergeBatch (.fixedWidth fun _ => 0) (timeSeriesKey (.hour 0) "m" 4) none g) =
          some results ∧ SameMerge (.fixedWidth fun _ => 0) .timeSeries
        [sampleBytes ⟨1, 6⟩, sampleBytes ⟨1, 7⟩, sampleBytes ⟨2, 8⟩, sampleBytes ⟨3, 9⟩]
        (mergeBatch (.fixedWidth fun _ => 0) (timeSeriesKey (.hour 0) "m" 4)
          (some (sampleBytes ⟨1, 6⟩)) [sampleBytes ⟨1, 7⟩, sampleBytes ⟨2, 8⟩, sampleBytes ⟨3, 9⟩])
        (mergeBatch (.fixedWidth fun _ => 0) (timeSeriesKey (.hour 0) "m" 4)
          (some (sampleBytes ⟨1, 6⟩)) results) := by
  have hvalid : ∀ s, Valid (.fixedWidth fun _ => 0) .timeSeries (sampleBytes s) := by
    intro s
    refine ⟨[s], ?_, pairwise_singleton _ _⟩
    have hdecode := decode_tszEncode (Crates.fixedWidth_roundTrip fun _ => 0) (cons_ne_nil s [])
    simpa [Crates.fixedWidth] using hdecode
  refine mergeBatch_regroup (Crates.fixedWidth_roundTrip fun _ => 0) (by decide +kernel)
    (some (sampleBytes ⟨1, 6⟩)) [[sampleBytes ⟨1, 7⟩], [sampleBytes ⟨2, 8⟩, sampleBytes ⟨3, 9⟩]]
    ?_ ?_ (by simp)
  · simp only [Option.mem_some_iff, forall_eq', hvalid]
  · simp only [forall_mem_cons, hvalid, not_mem_nil, false_implies, implies_true, and_self]

end OpenData.Timeseries

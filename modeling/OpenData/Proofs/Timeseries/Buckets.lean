import OpenData.Timeseries.Buckets
import OpenData.Proofs.Timeseries.Serde

/-!
# Both paths open the buckets of a query

One function rounds the bounds of a range down to the start of a bucket, the other one compares the
bounds of a bucket with those of the range. For buckets of one hour the two filters agree
(`inRange_iff_overlaps`, `buckets_for_ranges`).
-/

namespace OpenData.Timeseries

open Lib Common List

def ListedBucket.IsHour (bucket : ListedBucket) : Prop := bucket.1 = 1 ∧ bucket.2.toNat % 60 = 0

/-- The half-open interval of an hour bucket. -/
def ListedBucket.HoldsSecond (bucket : ListedBucket) (second : Int) : Prop :=
  bucket.2.toNat * 60 ≤ second ∧ second < (bucket.2.toNat + 60) * 60

/-- Seconds from the epoch on, whose minutes fit into 32 bits. -/
structure IsRange (range : Int64 × Int64) : Prop where
  nonneg : 0 ≤ range.1
  le : range.1 ≤ range.2
  lt : range.2.toInt < 60 * 2 ^ 32

def HasBuckets (storage : Storage) (buckets : List ListedBucket) : Prop :=
  match storage[bucketListKey]? with
  | some value => BucketListValue.decode value = .ok buckets
  | none => buckets = []

section

variable {bucket : ListedBucket} {range : Int64 × Int64} (hbucket : bucket.IsHour)
  (hrange : IsRange range)

include hbucket

theorem overlaps_iff (hle : range.1 ≤ range.2) : bucket.overlaps range = true ↔
    ∃ second, range.1.toInt ≤ second ∧ second ≤ range.2.toInt ∧ bucket.HoldsSecond second := by
  have hsize : (minutesOf bucket.1).toNat = 60 := by rw [hbucket.1]; rfl
  rw [Int64.le_iff_toInt_le] at hle
  simp only [ListedBucket.overlaps, hsize, ListedBucket.HoldsSecond, Bool.and_eq_true,
    decide_eq_true_eq]
  constructor
  · rintro ⟨hend, hstart⟩
    exact ⟨max range.1.toInt (bucket.2.toNat * 60), by omega, by omega, by omega, by omega⟩
  · rintro ⟨second, hlower, hupper, hstart, hend⟩
    omega

include hrange

theorem inRange_iff_overlaps : (bucket.roundDown (UInt32.ofInt (range.1.toInt.tdiv 60)) ≤ bucket.2 ∧
      bucket.2 ≤ bucket.roundDown (UInt32.ofInt (range.2.toInt.tdiv 60))) ↔
    bucket.overlaps range = true := by
  obtain ⟨hnonneg, hle, hlt⟩ := hrange
  rw [Int64.le_iff_toInt_le] at hnonneg hle
  change (0 : Int) ≤ _ at hnonneg
  have hsize : minutesOf bucket.1 = 60 := by rw [hbucket.1]; rfl
  have hhour := hbucket.2
  -- The minutes of a range fit 32 bits.
  have hround : ∀ secs : Int, 0 ≤ secs → secs < 60 * 2 ^ 32 →
      (bucket.roundDown (UInt32.ofInt (secs.tdiv 60))).toNat =
        (secs / 60 - secs / 60 % 60).toNat := by
    intro secs h0 h1
    have hmin : (UInt32.ofInt (secs.tdiv 60)).toNat = (secs / 60).toNat := by
      rw [Int.tdiv_eq_ediv_of_nonneg h0, UInt32.ofInt, UInt32.toNat_ofNat']
      omega
    have hmod : (UInt32.ofInt (secs.tdiv 60) % 60).toNat = (secs / 60).toNat % 60 := by
      rw [UInt32.toNat_mod, hmin]
      rfl
    rw [ListedBucket.roundDown, hsize, UInt32.toNat_sub_of_le, hmin, hmod]
    · omega
    · rw [UInt32.le_iff_toNat_le, hmod, hmin]
      omega
  rw [UInt32.le_iff_toNat_le, UInt32.le_iff_toNat_le, hround _ hnonneg (by omega),
    hround _ (by omega) hlt]
  have hsize' : (minutesOf bucket.1).toNat = 60 := by rw [hsize]; rfl
  simp only [ListedBucket.overlaps, hsize', Bool.and_eq_true, decide_eq_true_eq]
  omega

end

theorem sortByStart_spec (buckets : List ListedBucket) (h : (buckets.map Prod.snd).Nodup) :
    (sortByStart buckets).Pairwise (fun a b => a.2 < b.2) ∧
      ∀ b, b ∈ sortByStart buckets ↔ b ∈ buckets := by
  have hperm : sortByStart buckets ~ buckets := perm_sortBy _ _
  have hnodup : ((sortByStart buckets).map Prod.snd).Nodup := (hperm.map _).nodup_iff.mpr h
  rw [Nodup, pairwise_map] at hnodup
  refine ⟨((pairwise_sortBy _ buckets).and hnodup).imp fun hab => ?_, fun b => hperm.mem_iff⟩
  exact UInt32.lt_of_le_of_ne (UInt32.le_iff_toNat_le.mpr hab.1) hab.2

/-- Both functions return the buckets that hold a second of a range, in order of their starts. -/
theorem buckets_for_ranges {storage : Storage} {buckets : List ListedBucket}
    {ranges : List (Int64 × Int64)} (hlist : HasBuckets storage buckets)
    (hhour : ∀ b ∈ buckets, b.IsHour) (hdistinct : (buckets.map Prod.snd).Nodup)
    (hranges : ∀ r ∈ ranges, IsRange r) :
    ∃ result, getBucketsForRanges storage ranges = .ok result ∧
      result.Pairwise (fun a b => a.2 < b.2) ∧
      (∀ b, b ∈ result ↔ b ∈ buckets ∧ ∃ r ∈ ranges, ∃ second,
        r.1.toInt ≤ second ∧ second ≤ r.2.toInt ∧ b.HoldsSecond second) ∧
      ∀ start stop, ranges = [(start, stop)] →
        getBucketsInRange storage (some start) (some stop) = .ok result := by
  obtain ⟨hsorted, hmem⟩ := sortByStart_spec
    (buckets.filter fun bucket => ranges.any bucket.overlaps)
    (hdistinct.sublist (filter_sublist.map _))
  refine ⟨sortByStart (buckets.filter fun bucket => ranges.any bucket.overlaps), ?_, hsorted,
    fun b => ?_, ?_⟩
  · rw [getBucketsForRanges]
    split
    next hnil => simp [hnil, sortByStart, sortBy]
    next =>
      rw [HasBuckets] at hlist
      split at hlist
      next value hvalue => simp only [hvalue, hlist]; rfl
      next hvalue => simp [hvalue, hlist, sortByStart, sortBy]
  · rw [hmem, mem_filter, any_eq_true]
    refine and_congr_right fun hb => exists_congr fun r => and_congr_right fun hr => ?_
    exact overlaps_iff (hhour b hb) (hranges r hr).le
  · -- For a single range the rounded bounds select the same buckets.
    rintro start stop rfl
    have hrange := hranges _ (mem_singleton.mpr rfl)
    have hfilter : (buckets.filter fun bucket =>
        bucket.roundDown (UInt32.ofInt (start.toInt.tdiv 60)) ≤ bucket.2 &&
          bucket.2 ≤ bucket.roundDown (UInt32.ofInt (stop.toInt.tdiv 60))) =
        buckets.filter fun bucket => [(start, stop)].any bucket.overlaps := by
      refine filter_congr fun b hb => ?_
      rw [Bool.eq_iff_iff, Bool.and_eq_true, decide_eq_true_eq, decide_eq_true_eq,
        inRange_iff_overlaps (hhour b hb) hrange]
      simp
    have hle : ¬ stop < start := Int64.not_lt.mpr hrange.le
    rw [HasBuckets] at hlist
    rw [← hfilter]
    simp only [getBucketsInRange, if_neg hle]
    cases hvalue : storage[bucketListKey]? with
    | some value =>
      rw [hvalue] at hlist
      dsimp only at hlist ⊢
      rw [hlist]
      rfl
    | none =>
      rw [hvalue] at hlist
      dsimp only at hlist
      rw [hlist]
      rfl

def twoHours : Storage :=
  (∅ : Storage).insert bucketListKey (BucketListValue.encode [(1, 60), (1, 0)])

theorem buckets_for_ranges_two_hours : ∃ result, (1, 60) ∈ result ∧
    getBucketsForRanges twoHours [(3600, 7199)] = .ok result ∧
    getBucketsInRange twoHours (some 3600) (some 7199) = .ok result := by
  have hlist : HasBuckets twoHours [(1, 60), (1, 0)] := by
    rw [HasBuckets, twoHours, Std.TreeMap.getElem?_insert_self]
    exact BucketListValue.decode_encode _
  obtain ⟨result, hresult, -, hmem, hsingle⟩ := @buckets_for_ranges _ _ [(3600, 7199)] hlist
    (by simp [ListedBucket.IsHour]) (by decide) fun r hr => by
      rw [mem_singleton.mp hr]
      exact ⟨by decide, by decide, by decide⟩
  refine ⟨result, (hmem _).mpr ⟨by simp, _, mem_singleton.mpr rfl, 3600, by decide, by decide, ?_⟩,
    hresult, hsingle _ _ rfl⟩
  exact ⟨by decide, by decide⟩

end OpenData.Timeseries

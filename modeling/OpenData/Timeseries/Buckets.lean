import OpenData.Lib.Sorted
import OpenData.Timeseries.Serde

/-!
# The buckets that a query opens

The embedding of `get_buckets_in_range` and `get_buckets_for_ranges`
(`timeseries/src/storage/mod.rs`). A listed bucket is a pair of its size and its start in minutes.
-/

namespace OpenData.Timeseries

open Common

abbrev ListedBucket := UInt8 × UInt32

namespace ListedBucket

/-- The last multiple of the bucket size that is not after the minute. -/
def roundDown (bucket : ListedBucket) (minute : UInt32) : UInt32 :=
  minute - minute % minutesOf bucket.1

/-- The filter of `get_buckets_for_ranges`. The start has 32 bits, so the bounds do not overflow. -/
def overlaps (bucket : ListedBucket) (range : Int64 × Int64) : Bool :=
  let bucketStartMin : Int := bucket.2.toNat
  let bucketEndMin : Int := bucketStartMin + (minutesOf bucket.1).toNat
  let bucketStartSecs := bucketStartMin * 60
  let bucketEndSecs := bucketEndMin * 60
  bucketEndSecs > range.1.toInt && bucketStartSecs ≤ range.2.toInt

end ListedBucket

def sortByStart (buckets : List ListedBucket) : List ListedBucket :=
  Lib.sortBy (fun bucket => bucket.2.toNat) buckets

def getBucketsInRange (storage : Storage) (startSecs endSecs : Option Int64) :
    Except EncodingError (List ListedBucket) := do
  match startSecs, endSecs with
  | some start, some stop =>
    if stop < start then .error { message := "end must be greater than or equal to start" }
  | _, _ => pure ()
  let toMin (secs : Int64) : UInt32 := UInt32.ofInt (secs.toInt.tdiv 60)
  let buckets ← match storage[bucketListKey]? with
    | some value => BucketListValue.decode value
    | none => .ok []
  .ok (sortByStart (buckets.filter fun bucket : ListedBucket =>
    match startSecs.map toMin, endSecs.map toMin with
    | none, none => true
    | some start, none => bucket.roundDown start ≤ bucket.2
    | none, some stop => bucket.2 ≤ bucket.roundDown stop
    | some start, some stop =>
      bucket.roundDown start ≤ bucket.2 && bucket.2 ≤ bucket.roundDown stop))

def getBucketsForRanges (storage : Storage) (ranges : List (Int64 × Int64)) :
    Except EncodingError (List ListedBucket) :=
  if ranges = [] then .ok []
  else
    match storage[bucketListKey]? with
    | none => .ok []
    | some value => do
      let buckets ← BucketListValue.decode value
      .ok (sortByStart (buckets.filter fun bucket => ranges.any (ListedBucket.overlaps bucket)))

end OpenData.Timeseries

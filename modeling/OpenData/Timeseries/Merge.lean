import OpenData.Lib.Sorted
import OpenData.Timeseries.Serde

/-!
# The merge operator of the timeseries store

A write may be a merge: the store keeps the operand and combines it with the value later, together
with any other operands of the key. How values are combined depends on the record type in the key:
samples are merged with the last source winning, posting sets and bucket lists are united, and
other values are replaced.
-/

namespace OpenData.Timeseries

open Lib (Bytes sortBy pushAll lastWinsMerge)
open Common

variable (crates : Crates)

def mergeBatchInvertedIndex (existing : Option Bytes) (operands : List Bytes) :
    Except EncodingError Bytes := do
  let merged ← existing.elim (.ok ∅) crates.roaringDeserialize
  let merged ← operands.foldlM
    (fun merged operand => do
      let bitmap ← crates.roaringDeserialize operand
      .ok (merged ∪ bitmap))
    merged
  crates.roaringSerialize merged

/-- One source is taken as it is. Otherwise the samples of all sources are sorted by time, the later
source first, and the first sample of each time is kept. -/
def mergeSources : List Bytes → Except EncodingError Bytes
  | [] => .ok []
  | [source] => .ok source
  | sources => do
      let samples ← sources.mapM fun source => (crates.tszDecode source).mapM id
      if samples.all List.isEmpty then .ok []
      else .ok (crates.tszEncode (lastWinsMerge (fun s => s.timestampMs.toInt) samples))

def mergeBatchTimeSeries (existing : Option Bytes) (operands : List Bytes) :
    Except EncodingError Bytes :=
  mergeSources crates ((existing.toList ++ operands).filter fun source => !source.isEmpty)

def mergeBatchBucketList (existing : Option Bytes) (operands : List Bytes) :
    Except EncodingError Bytes := do
  let buckets ← existing.elim (.ok []) BucketListValue.decode
  let buckets ← operands.foldlM
    (fun buckets operand => do
      let otherBuckets ← BucketListValue.decode operand
      .ok (pushAll buckets otherBuckets))
    buckets
  .ok (BucketListValue.encode (sortBy (fun bucket => bucket.2.toNat) buckets))

/-- The record type in a key. -/
def recordTypeOf (key : Bytes) : Option RecordType := do
  let p ← (KeyPrefix.fromBytes key).toOption
  (RecordType.fromPrefix p).toOption

def mergeBatch (key : Bytes) (existing : Option Bytes) (operands : List Bytes) : Option Bytes := do
  match ← recordTypeOf key with
  | .invertedIndex => (mergeBatchInvertedIndex crates existing operands).toOption
  | .timeSeries => (mergeBatchTimeSeries crates existing operands).toOption
  | .bucketList => (mergeBatchBucketList existing operands).toOption
  | .seriesDictionary | .forwardIndex =>
    defaultMergeBatch existing operands fun _ operand => operand

end OpenData.Timeseries

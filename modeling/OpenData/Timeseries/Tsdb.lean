import OpenData.Timeseries.Merge
import Mathlib.Data.List.AList
import Mathlib.Data.List.Lex

/-!
# The database of one time bucket

Writes are applied to a delta in memory. A series is known by the fingerprint of its sorted labels,
and its first sample in the bucket gives it the next series id. Freezing the delta hands its
contents to the flusher, which turns them into one atomic write, and starts a new delta over the
merged dictionary. Loading a bucket reads the dictionary back from the store.
-/

namespace OpenData.Timeseries

open Lib (Bytes Fault asBytes sortBy)
open Common

/-! ### Labels -/

def labelBytes (labels : List Label) : Bytes :=
  labels.flatMap fun label => asBytes label.name ++ asBytes label.value

def fingerprint (crates : Crates) (labels : List Label) : SeriesFingerprint :=
  crates.blake3 (labelBytes labels)

/-- `sort_by(|a, b| a.name.cmp(&b.name))`: strings are compared by their bytes, and labels of one
name stay in their order. -/
def sortLabels (labels : List Label) : List Label :=
  sortBy (fun label => (asBytes label.name).map UInt8.toNat) labels

/-- The value of the label `__name__`, or the empty string. -/
def metricName (labels : List Label) : String :=
  ((labels.find? fun label => label.name = "__name__").map Label.value).getD ""

/-! ### Deltas -/

structure SeriesSamples where
  metricName : String
  points : List Sample
deriving DecidableEq

abbrev SeriesDict := AList fun _ : SeriesFingerprint => SeriesId

abbrev ForwardIndex := AList fun _ : SeriesId => SeriesSpec

abbrev InvertedIndex := AList fun _ : Label => Finset SeriesId

abbrev SamplesBySeries := AList fun _ : SeriesId => SeriesSamples

structure TsdbContext where
  bucket : TimeBucket
  seriesDict : SeriesDict
  nextSeriesId : UInt32

structure FrozenTsdbDelta where
  bucket : TimeBucket
  forwardIndex : ForwardIndex
  invertedIndex : InvertedIndex
  seriesDictDelta : SeriesDict
  samples : SamplesBySeries

structure TsdbWriteDelta where
  bucket : TimeBucket
  seriesDictBase : SeriesDict
  seriesDictDelta : SeriesDict
  forwardIndex : ForwardIndex
  invertedIndex : InvertedIndex
  samples : SamplesBySeries
  nextSeriesId : UInt32

def FrozenTsdbDelta.isEmpty (frozen : FrozenTsdbDelta) : Bool :=
  frozen.samples.entries.isEmpty && frozen.seriesDictDelta.entries.isEmpty

namespace TimeBucket

def startMs (bucket : TimeBucket) : Int64 := Int64.ofNat bucket.start.toNat * 60 * 1000

def endMs (bucket : TimeBucket) : Int64 :=
  (Int64.ofNat bucket.start.toNat + Int64.ofNat bucket.sizeInMins.toNat) * 60 * 1000

end TimeBucket

namespace TsdbWriteDelta

def init (context : TsdbContext) : TsdbWriteDelta where
  bucket := context.bucket
  seriesDictBase := context.seriesDict
  seriesDictDelta := ∅
  forwardIndex := ∅
  invertedIndex := ∅
  samples := ∅
  nextSeriesId := context.nextSeriesId

def lookup (delta : TsdbWriteDelta) (fingerprint : SeriesFingerprint) : Option SeriesId :=
  (delta.seriesDictDelta.lookup fingerprint).or (delta.seriesDictBase.lookup fingerprint)

/-- A new series takes the next id and enters the dictionary and both indexes. The counter is a
`u32` that wraps in a release build. -/
def addSeries (delta : TsdbWriteDelta) (fingerprint : SeriesFingerprint) (spec : SeriesSpec) :
    TsdbWriteDelta :=
  let id := delta.nextSeriesId
  { delta with
    nextSeriesId := id + 1
    seriesDictDelta := delta.seriesDictDelta.insert fingerprint id
    forwardIndex := delta.forwardIndex.insert id spec
    invertedIndex := spec.labels.foldl
      (fun index label => index.insert label (insert id ((index.lookup label).getD ∅)))
      delta.invertedIndex }

def push (delta : TsdbWriteDelta) (seriesId : SeriesId) (metricName : String) (sample : Sample) :
    TsdbWriteDelta :=
  let entry := (delta.samples.lookup seriesId).getD { metricName, points := [] }
  { delta with
    samples := delta.samples.insert seriesId { entry with points := entry.points ++ [sample] } }

def ingestSample (crates : Crates) (delta : TsdbWriteDelta) (labels : List Label)
    (unit : Option String) (metricType : Option MetricType) (sample : Sample) :
    Except String TsdbWriteDelta :=
  let time := sample.timestampMs
  let first := delta.bucket.startMs
  let last := delta.bucket.endMs
  if time < first ∨ last ≤ time then
    .error s!"Sample timestamp {time} is outside bucket range [{first}, {last})"
  else
    match delta.lookup (fingerprint crates labels) with
    | some id => .ok (delta.push id (metricName labels) sample)
    | none =>
      .ok ((delta.addSeries (fingerprint crates labels) { unit, metricType, labels }).push
        delta.nextSeriesId (metricName labels) sample)

/-- The samples of a series in order. An error ends the loop, and what was ingested before it
stays. -/
def ingestSamples (crates : Crates) (labels : List Label) (unit : Option String)
    (metricType : Option MetricType) :
    TsdbWriteDelta → List Sample → Except String Unit × TsdbWriteDelta
  | delta, [] => (.ok (), delta)
  | delta, sample :: samples =>
    match delta.ingestSample crates labels unit metricType sample with
    | .error e => (.error e, delta)
    | .ok delta => ingestSamples crates labels unit metricType delta samples

def ingest (crates : Crates) (delta : TsdbWriteDelta) (series : Series) :
    Except String Unit × TsdbWriteDelta :=
  ingestSamples crates (sortLabels series.labels) series.unit series.metricType delta series.samples

def apply (crates : Crates) : TsdbWriteDelta → List Series → Except String Unit × TsdbWriteDelta
  | delta, [] => (.ok (), delta)
  | delta, series :: write =>
    match delta.ingest crates series with
    | (.error e, delta) => (.error e, delta)
    | (.ok (), delta) => apply crates delta write

def freeze (delta : TsdbWriteDelta) : FrozenTsdbDelta × TsdbContext :=
  ({ bucket := delta.bucket
     forwardIndex := delta.forwardIndex
     invertedIndex := delta.invertedIndex
     seriesDictDelta := delta.seriesDictDelta
     samples := delta.samples },
   { bucket := delta.bucket
     -- The new entries replace those of the base.
     seriesDict := delta.seriesDictDelta ∪ delta.seriesDictBase
     nextSeriesId := delta.nextSeriesId })

end TsdbWriteDelta

/-! ### The store -/

inductive RecordOp where
  | put (record : Record)
  | merge (record : Record)
deriving Repr, DecidableEq

section

variable (crates : Crates) (bucket : TimeBucket)

def bucketListContains (storage : Storage) : Except EncodingError Bool :=
  match storage[bucketListKey]? with
  | none => .ok false
  | some value => do
      let buckets ← BucketListValue.decode value
      .ok (decide ((bucket.size, bucket.start) ∈ buckets))

def mergeBucketList : RecordOp :=
  .merge { key := bucketListKey, value := BucketListValue.encode [(bucket.size, bucket.start)] }

def seriesDictionaryKey (fingerprint : SeriesFingerprint) : Bytes :=
  SeriesDictionaryKey.encode
    { timeBucket := bucket.start, bucketSize := bucket.size, seriesFingerprint := fingerprint }

def insertSeriesId (fingerprint : SeriesFingerprint) (id : SeriesId) : RecordOp :=
  .put { key := seriesDictionaryKey bucket fingerprint, value := SeriesDictionaryValue.encode id }

def insertForwardIndex (id : SeriesId) (spec : SeriesSpec) :
    Except (Fault EncodingError) RecordOp := do
  let value ← ForwardIndexValue.encode spec
  .ok (.put { key := forwardIndexKey bucket id, value })

def mergeInvertedIndex (label : Label) (postings : Finset SeriesId) :
    Except (Fault EncodingError) RecordOp := do
  let value ← (crates.roaringSerialize postings).mapError .err
  .ok (.merge { key := invertedIndexKey bucket label, value })

def mergeSamples (id : SeriesId) (samples : SeriesSamples) : RecordOp :=
  .merge {
    key := timeSeriesKey bucket samples.metricName id
    value := TimeSeriesValue.encode crates samples.points }

end

/-- The operations of `flush_delta` for a delta that is not empty. -/
def flushOps (crates : Crates) (storage : Storage) (frozen : FrozenTsdbDelta) :
    Except (Fault EncodingError) (List RecordOp) := do
  let announced ← (bucketListContains frozen.bucket storage).mapError .err
  let forward ← frozen.forwardIndex.entries.mapM fun e => insertForwardIndex frozen.bucket e.1 e.2
  let inverted ← frozen.invertedIndex.entries.mapM fun e =>
    mergeInvertedIndex crates frozen.bucket e.1 e.2
  .ok ((if announced then [] else [mergeBucketList frozen.bucket])
    ++ (frozen.seriesDictDelta.entries.map fun e => insertSeriesId frozen.bucket e.1 e.2)
    ++ forward ++ inverted
    ++ (frozen.samples.entries.map fun e => mergeSamples crates frozen.bucket e.1 e.2))

def applyOp (crates : Crates) (storage : Storage) : RecordOp → Option Storage
  | .put record => some (storage.insert record.key record.value)
  | .merge record => do
      let value ← mergeBatch crates record.key storage[record.key]? [record.value]
      some (storage.insert record.key value)

def applyOps (crates : Crates) (storage : Storage) (ops : List RecordOp) : Option Storage :=
  ops.foldlM (applyOp crates) storage

/-- `flush_delta`: all operations or none. -/
def flushDelta (crates : Crates) (storage : Storage) (frozen : FrozenTsdbDelta) :
    Except (Fault EncodingError) Storage :=
  if frozen.isEmpty then .ok storage
  else do
    let ops ← flushOps crates storage frozen
    match applyOps crates storage ops with
    | some storage => .ok storage
    | none => .error .panic

def loadSeriesDictionary (storage : Storage) (bucket : TimeBucket) :
    Except EncodingError (SeriesDict × SeriesId) :=
  (storage.scanRange (RecordType.seriesDictionary.bucketRange bucket)).foldlM
    (fun (dict, maxSeriesId) record => do
      let key ← SeriesDictionaryKey.decode record.key
      let id ← SeriesDictionaryValue.decode record.value
      .ok (dict.insert key.seriesFingerprint id, max maxSeriesId id))
    (∅, 0)

/-- `MiniTsdb::load` takes the greatest id in the dictionary as the next one. -/
def load (storage : Storage) (bucket : TimeBucket) : Except EncodingError TsdbContext := do
  let (seriesDict, nextSeriesId) ← loadSeriesDictionary storage bucket
  .ok { bucket, seriesDict, nextSeriesId }

/-- `MiniQueryReader::samples`: the samples after `startMs` up to `endMs`. -/
def querySamples (crates : Crates) (storage : Storage) (bucket : TimeBucket) (seriesId : SeriesId)
    (metricName : String) (startMs endMs : Int64) : Except String (List Sample) :=
  match storage[timeSeriesKey bucket metricName seriesId]? with
  | none => .ok []
  | some value =>
    if value = [] then .error "Invalid timeseries data in storage"
    else
      .ok (((crates.tszDecode value).filterMap Except.toOption).filter fun s =>
        startMs < s.timestampMs ∧ s.timestampMs ≤ endMs)

/-! ### The buckets of a write -/

/-- `std::num::TryFromIntError`. It ends the text `Integer conversion error: ` of the call's error
with a text of the standard library. -/
inductive TryFromIntError where
  | outOfRange

/-- `hour_bucket_in_epoch_minutes`: the hour of a time, in minutes. The time is cast to `u64`. -/
def TimeBucket.roundToHour (timestampMs : Int64) : Except TryFromIntError TimeBucket :=
  let mins := timestampMs.toUInt64.toNat / 1000 / 60
  let bucket := mins - mins % 60
  if bucket < 2 ^ 32 then .ok (.hour (UInt32.ofNat bucket))
  else .error .outOfRange

def splitSamples (samples : List Sample) :
    Except TryFromIntError (AList fun _ : TimeBucket => List Sample) :=
  samples.foldlM
    (fun bucketSamples sample => do
      let bucket ← TimeBucket.roundToHour sample.timestampMs
      .ok (bucketSamples.insert bucket ((bucketSamples.lookup bucket).getD [] ++ [sample])))
    ∅

/-- The first pass of `Tsdb::ingest_samples`: each series is split into its hours. -/
def groupByBucket (seriesList : List Series) :
    Except TryFromIntError (AList fun _ : TimeBucket => List Series) :=
  seriesList.foldlM
    (fun groups series => do
      let bucketSamples ← splitSamples series.samples
      .ok (bucketSamples.entries.foldl
        (fun groups e =>
          groups.insert e.1 ((groups.lookup e.1).getD [] ++ [{ series with samples := e.2 }]))
        groups))
    ∅

/-! ### The database -/

structure MiniTsdb where
  delta : TsdbWriteDelta
  frozen : List FrozenTsdbDelta

namespace Tsdb

/-- The store and the database over it. The last two fields record the past: whether the dictionary
was empty when the bucket was loaded, and the id that each series of each write has had since. -/
structure State where
  storage : Storage
  tsdb : Option MiniTsdb
  loadedEmpty : Bool
  received : List (List Label × SeriesId)

inductive Op where
  | load
  | ingest (write : List Series)
  | freeze
  | flush (ok : Bool)
  | drop

namespace State

def init (storage : Storage) : State :=
  { storage, tsdb := none, loadedEmpty := true, received := [] }

def step (crates : Crates) (bucket : TimeBucket) (s : State) : Op → Option State
  | .load =>
    if s.tsdb.isSome then none
    else
      match Timeseries.load s.storage bucket with
      | .error _ => none
      | .ok context =>
        some {
          storage := s.storage
          tsdb := some { delta := .init context, frozen := [] }
          loadedEmpty := context.seriesDict.entries.isEmpty
          received := [] }
  | .ingest write => do
      let tsdb ← s.tsdb
      let (_, delta) := tsdb.delta.apply crates write
      some { s with
        tsdb := some { tsdb with delta }
        received := s.received ++ write.filterMap fun series =>
          (delta.lookup (fingerprint crates (sortLabels series.labels))).map fun id =>
            (sortLabels series.labels, id) }
  | .freeze => do
      let tsdb ← s.tsdb
      let (frozen, context) := tsdb.delta.freeze
      some { s with tsdb := some { delta := .init context, frozen := tsdb.frozen ++ [frozen] } }
  | .flush ok => do
      let tsdb ← s.tsdb
      match tsdb.frozen with
      | [] => none
      | frozen :: rest =>
        let s := { s with tsdb := some { tsdb with frozen := rest } }
        if ok then
          match flushDelta crates s.storage frozen with
          | .ok storage => some { s with storage }
          | .error _ => some s
        else some s
  | .drop => do
      let _ ← s.tsdb
      some { s with tsdb := none }

end State

end Tsdb

end OpenData.Timeseries

import OpenData.Timeseries.Tsdb

/-!
# The reader of a bucket

The embedding of the reads of the stored indexes (`storage/mod.rs`) and of `MiniQueryReader`
(`minitsdb.rs`), which answers the queries of one bucket.
-/

namespace OpenData.Timeseries

open Lib (Bytes)
open Common

/-- What a query reads of a bucket. -/
structure Reader where
  invertedIndex : List Label → Except String InvertedIndex
  forwardIndexOne : SeriesId → Except String (Option SeriesSpec)

/-- One read for each key. Keys without a record are left out. -/
def fetchAll {κ ν ε : Type} [DecidableEq κ] (fetch : κ → Except ε (Option ν)) (keys : List κ) :
    Except ε (AList fun _ : κ => ν) :=
  keys.foldlM (fun table k => do
    match ← fetch k with
    | some v => .ok (table.insert k v)
    | none => .ok table) ∅

section

variable (crates : Crates) (storage : Storage) (bucket : TimeBucket)

def getInvertedIndexTerm (term : Label) : Except String (Option (Finset SeriesId)) :=
  match storage[invertedIndexKey bucket term]? with
  | some value =>
    match crates.roaringDeserialize value with
    | .ok postings => .ok (some postings)
    | .error e => .error e.message
  | none => .ok none

def getInvertedIndexTerms (terms : List Label) : Except String InvertedIndex :=
  fetchAll (getInvertedIndexTerm crates storage bucket) terms

def getForwardIndexOne (seriesId : SeriesId) : Except String (Option SeriesSpec) :=
  match storage[forwardIndexKey bucket seriesId]? with
  | some value =>
    match ForwardIndexValue.decode value with
    | .ok spec => .ok (some spec)
    | .error e => .error e.message
  | none => .ok none

def storageReader : Reader where
  invertedIndex := getInvertedIndexTerms crates storage bucket
  forwardIndexOne := getForwardIndexOne storage bucket

end

end OpenData.Timeseries

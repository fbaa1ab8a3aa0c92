import OpenData.Log.Writer

/-!
# Scans and listings

The embedding of the read side of the log: `LogReadView` and `LogIterator` (`log/src/reader.rs`),
`list_keys`, `scan_entries` and `SegmentIterator` (`storage.rs`), `find_covering` and `refresh` of
the segment cache (`segment.rs`), and the ranges of the public interface (`range.rs`).
-/

namespace OpenData.Log

open Lib (Bytes)
open Common (Record Storage)

/-! ### Ranges -/

/-- A bound of a range, `std::ops::Bound`. -/
inductive Bound (α : Type) where
  | included (x : α)
  | excluded (x : α)
  | unbounded
deriving Repr, DecidableEq

/-- What `normalize_sequence` and `normalize_segment_id` have in common: the half-open range from
`start` up to `stop`, for a type with the values from `0` to `max`. -/
def normalize {α : Type} (zero max : α) (saturatingSucc : α → α) (lower upper : Bound α) : α × α :=
  (match lower with
    | .included s => s
    | .excluded s => saturatingSucc s
    | .unbounded => zero,
  match upper with
    | .included e => saturatingSucc e
    | .excluded e => e
    | .unbounded => max)

/-- `saturating_add(1)` for `u64`. -/
def saturatingSucc64 (x : UInt64) : UInt64 := if x = 0xFFFFFFFFFFFFFFFF then x else x + 1

/-- `saturating_add(1)` for `u32`. -/
def saturatingSucc32 (x : UInt32) : UInt32 := if x = 0xFFFFFFFF then x else x + 1

def normalizeSequence : Bound UInt64 → Bound UInt64 → UInt64 × UInt64 :=
  normalize 0 0xFFFFFFFFFFFFFFFF saturatingSucc64

def normalizeSegmentId : Bound UInt32 → Bound UInt32 → UInt32 × UInt32 :=
  normalize 0 0xFFFFFFFF saturatingSucc32

/-! ### Segments -/

namespace SegmentCache

/-- The segment in which `start` can lie, and all segments that start later and before `stop`. -/
def findCovering (cache : SegmentCache) (start stop : UInt64) : List LogSegment :=
  if stop ≤ start then []
  else
    let first := (cache.segments.toList.filter fun p => p.1 ≤ start).getLast?
    let within := cache.segments.toList.filter fun p => saturatingSucc64 start ≤ p.1 && p.1 < stop
    (first.toList ++ within).map Prod.snd

/-- Load the segments after `afterSegmentId`, or all of them. -/
def refresh (cache : SegmentCache) (storage : Storage) (afterSegmentId : Option UInt32) :
    Except Error SegmentCache :=
  match afterSegmentId with
  | some id => do
      let loaded ← scanSegments storage (saturatingSucc32 id) 0xFFFFFFFF
      pure (loaded.foldl insert cache)
  | none => do
      let loaded ← scanSegments storage 0 0xFFFFFFFF
      pure (loaded.foldl insert { cache with segments := ∅ })

end SegmentCache

/-! ### Entries of one segment -/

structure LogEntry where
  key : Bytes
  sequence : UInt64
  value : Bytes
deriving Repr, DecidableEq

/-- `build_scan_key`: sequences before the segment count as its start. -/
def LogEntryKey.buildScanKey (segment : LogSegment) (key : Bytes) (seq : UInt64) : Bytes :=
  let start := segment.segmentMeta.startSeq
  entryKey segment.id key (if start ≤ seq then seq - start else 0)

def LogEntryKey.scanRange (segment : LogSegment) (key : Bytes) (start stop : UInt64) :
    Common.BytesRange where
  start := .included (buildScanKey segment key start)
  stop := .excluded (buildScanKey segment key stop)

structure SegmentIterator where
  inner : List Record
  start : UInt64
  stop : UInt64
  segmentStartSeq : UInt64
deriving Repr, DecidableEq

def scanEntries (storage : Storage) (segment : LogSegment) (key : Bytes) (start stop : UInt64) :
    SegmentIterator where
  inner := storage.scan (LogEntryKey.buildScanKey segment key start)
    (LogEntryKey.buildScanKey segment key stop)
  start := start
  stop := stop
  segmentStartSeq := segment.segmentMeta.startSeq

/-- The loop of `SegmentIterator::next`: the next entry, and the records behind it. -/
def SegmentIterator.nextFrom (start stop segmentStartSeq : UInt64) :
    List Record → Except Error (Option LogEntry × List Record)
  | [] => .ok (none, [])
  | record :: rest =>
    match LogEntryKey.deserialize record.key segmentStartSeq with
    | .error e => .error e
    | .ok entryKey =>
      if entryKey.sequence < start then nextFrom start stop segmentStartSeq rest
      else if stop ≤ entryKey.sequence then .ok (none, rest)
      else
        .ok (some { key := entryKey.key, sequence := entryKey.sequence, value := record.value },
          rest)

def SegmentIterator.next (it : SegmentIterator) :
    Except Error (Option LogEntry × SegmentIterator) :=
  match nextFrom it.start it.stop it.segmentStartSeq it.inner with
  | .error e => .error e
  | .ok (entry, inner) => .ok (entry, { it with inner })

/-! ### Entries of all segments -/

structure LogIterator where
  storage : Storage
  segments : List LogSegment
  key : Bytes
  start : UInt64
  stop : UInt64
  currentIter : Option SegmentIterator

namespace LogIterator

def openRange (storage : Storage) (cache : SegmentCache) (key : Bytes) (start stop : UInt64) :
    LogIterator where
  storage := storage
  segments := cache.findCovering start stop
  key := key
  start := start
  stop := stop
  currentIter := none

/-- The first entry of the segments, when no segment is being read: `advance_segment`, and the
next segment when this one has no entry. -/
def nextSegment (it : LogIterator) : List LogSegment → Except Error (Option LogEntry × LogIterator)
  | [] => .ok (none, { it with segments := [], currentIter := none })
  | segment :: rest =>
    match (scanEntries it.storage segment it.key it.start it.stop).next with
    | .error e => .error e
    | .ok (some entry, iter) =>
      .ok (some entry, { it with segments := segment :: rest, currentIter := some iter })
    | .ok (none, _) => nextSegment it rest

def next (it : LogIterator) : Except Error (Option LogEntry × LogIterator) :=
  match it.currentIter with
  | none => it.nextSegment it.segments
  | some iter =>
    match iter.next with
    | .error e => .error e
    | .ok (some entry, iter) => .ok (some entry, { it with currentIter := some iter })
    | .ok (none, _) => it.nextSegment it.segments.tail

/-- The iterator returns the entries one after the other, and then `None`. -/
inductive Yields : LogIterator → List LogEntry → Prop
  | done {it it' : LogIterator} : it.next = .ok (none, it') → Yields it []
  | entry {it it' : LogIterator} {e : LogEntry} {es : List LogEntry} :
      it.next = .ok (some e, it') → Yields it' es → Yields it (e :: es)

end LogIterator

/-! ### Keys -/

/-- `list_keys`: the keys that are listed in the segments from `start` up to `stop`. -/
def listKeys (storage : Storage) (start stop : UInt32) : Except Error (Std.TreeSet Bytes) :=
  if stop ≤ start then .ok ∅
  else
    (storage.scan (ListingEntryKey.segmentPrefix start) (ListingEntryKey.segmentPrefix stop)).foldlM
      (fun keys record => do
        let entryKey ← ListingEntryKey.deserialize record.key
        pure (keys.insert entryKey.key)) ∅

/-! ### The read view -/

structure LogReadView where
  storage : Storage
  segments : SegmentCache

namespace LogReadView

def updateSnapshot (view : LogReadView) (snapshot : Storage) : LogReadView :=
  { view with storage := snapshot }

def refreshSegments (view : LogReadView) (afterSegmentId : Option UInt32) :
    Except Error LogReadView := do
  let segments ← view.segments.refresh view.storage afterSegmentId
  pure { view with segments }

/-- `scan`, with the range as the public interface takes it. -/
def scan (view : LogReadView) (key : Bytes) (lower upper : Bound UInt64) : LogIterator :=
  let (start, stop) := normalizeSequence lower upper
  LogIterator.openRange view.storage view.segments key start stop

/-- `list_keys`, with the range as the public interface takes it. -/
def listKeys (view : LogReadView) (lower upper : Bound UInt32) : Except Error (Std.TreeSet Bytes) :=
  let (start, stop) := normalizeSegmentId lower upper
  Log.listKeys view.storage start stop

/-- `LogDbReader::open`: the view of a reader that was just opened. -/
def openStorage (storage : Storage) : Except Error LogReadView := do
  let segments ← SegmentCache.openStorage storage { sealInterval := none }
  pure { storage, segments }

end LogReadView

end OpenData.Log

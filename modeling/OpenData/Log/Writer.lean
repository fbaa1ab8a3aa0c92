import OpenData.Common.Coordinator
import OpenData.Common.Sequence
import OpenData.Log.Serde

/-!
# The task that appends to the log

The embedding of `LogWriter` (`log/src/writer.rs`), of the caches it keeps (`segment.rs`,
`listing.rs`) and of the start of a log (`log.rs`). An append takes sequences from the allocator,
picks a segment, lists the keys that are new in the segment, and writes everything in one batch.
The allocator and the caches are changed before the batch is written, and they stay changed when the
write fails.
-/

namespace OpenData.Log

open Lib (Bytes Span)
open Common (Record Storage DeserializeError)
open OpenData.Sequence (SequenceAllocator)
open OpenData.Coordinator (EpochWatermarks)

/-! ### Segments -/

structure LogSegment where
  id : UInt32
  segmentMeta : SegmentMeta
deriving Repr, DecidableEq

/-- `scan_segments`: the segments with ids from `start` up to `stop`. -/
def scanSegments (storage : Storage) (start stop : UInt32) : Except Error (List LogSegment) :=
  (storage.scan (SegmentMetaKey.mk start).serialize (SegmentMetaKey.mk stop).serialize).mapM
    fun record => do
      let key ← SegmentMetaKey.deserialize record.key
      let segmentMeta ← SegmentMeta.deserialize record.value
      pure { id := key.segmentId, segmentMeta }

structure SegmentConfig where
  sealInterval : Option Nat
deriving Repr, DecidableEq

structure SegmentAssignment where
  segment : LogSegment
  isNew : Bool
deriving Repr, DecidableEq

structure SegmentCache where
  segments : Std.TreeMap UInt64 LogSegment
  config : SegmentConfig

namespace SegmentCache

def insert (cache : SegmentCache) (segment : LogSegment) : SegmentCache :=
  { cache with segments := cache.segments.insert segment.segmentMeta.startSeq segment }

def openStorage (storage : Storage) (config : SegmentConfig) : Except Error SegmentCache := do
  let loaded ← scanSegments storage 0 0xFFFFFFFF
  pure (loaded.foldl insert { segments := ∅, config })

def latest (cache : SegmentCache) : Option LogSegment :=
  cache.segments.toList.getLast?.map Prod.snd

def shouldRoll (sealInterval : Option Nat) (currentTimeMs : Int64) (latest : Option LogSegment) :
    Bool :=
  match latest, sealInterval with
  | none, _ => true
  | some _, none => false
  | some latest, some sealInterval =>
    let segmentAgeMs := currentTimeMs - latest.segmentMeta.startTimeMs
    Int64.ofNat sealInterval ≤ segmentAgeMs

/-- The segment of a batch that starts at `startSeq`: the latest one, or a new one with its metadata
record. -/
def assignSegment (cache : SegmentCache) (currentTimeMs : Int64) (startSeq : UInt64)
    (forceSeal : Bool) : SegmentAssignment × List Record × SegmentCache :=
  let latest := cache.latest
  let needsNewSegment := forceSeal || shouldRoll cache.config.sealInterval currentTimeMs latest
  let segmentId := match latest with | some s => s.id + 1 | none => 0
  let segmentMeta : SegmentMeta := { startSeq, startTimeMs := currentTimeMs }
  let segment : LogSegment := { id := segmentId, segmentMeta }
  let record : Record :=
    { key := (SegmentMetaKey.mk segmentId).serialize, value := segmentMeta.serialize }
  if needsNewSegment then ({ segment, isNew := true }, [record], cache.insert segment)
  -- Without a latest segment a new one is needed.
  else ({ segment := latest.getD segment, isNew := false }, [], cache)

end SegmentCache

/-! ### Listings -/

structure ListingCache where
  currentSegmentId : Option UInt32
  keys : Std.TreeSet Bytes

namespace ListingCache

def new : ListingCache := { currentSegmentId := none, keys := ∅ }

def newKeys (known : Std.TreeSet Bytes) : List Bytes → List Bytes × Std.TreeSet Bytes
  | [] => ([], known)
  | key :: keys =>
    if known.contains key then newKeys known keys
    else
      let (fresh, known) := newKeys (known.insert key) keys
      (key :: fresh, known)

def assignNewKeys (cache : ListingCache) (segmentId : UInt32) (keys : List Bytes) :
    List Bytes × List Record × ListingCache :=
  let known := if cache.currentSegmentId = some segmentId then cache.keys else ∅
  let (fresh, known) := newKeys known keys
  (fresh,
    fresh.map fun key =>
      { key := (ListingEntryKey.mk segmentId key).serialize, value := listingEntryValue },
    { currentSegmentId := some segmentId, keys := known })

end ListingCache

/-! ### The writer -/

structure UserRecord where
  key : Bytes
  value : Bytes
deriving Repr, DecidableEq

structure LogWrite where
  records : List UserRecord
  timestampMs : Int64
deriving Repr, DecidableEq

structure AppendOutput where
  startSequence : UInt64
deriving Repr, DecidableEq

structure WrittenView where
  epoch : Nat
  snapshot : Storage
  seqnum : UInt64
  lastSegmentId : Option UInt32

structure LogWriter where
  sequenceAllocator : SequenceAllocator
  segmentCache : SegmentCache
  listingCache : ListingCache
  epoch : Nat
  written : WrittenView
  watermarks : EpochWatermarks
  lastSegmentId : Option UInt32

inductive PutOutcome where
  | putErr (error : String)
  | snapshotErr (error : String)
  | ok (seqnum : UInt64)
deriving Repr, DecidableEq

/-- The entry records of a batch whose first sequence is `baseSequence`. -/
def addEntries (segment : LogSegment) (baseSequence : UInt64) (userRecords : List UserRecord) :
    List Record :=
  userRecords.zipIdx.map fun (userRecord, i) =>
    let entryKey : LogEntryKey :=
      { segmentId := segment.id, key := userRecord.key, sequence := baseSequence + UInt64.ofNat i }
    { key := entryKey.serialize segment.segmentMeta.startSeq, value := userRecord.value }

structure Prepared where
  baseSeq : UInt64
  assignment : SegmentAssignment
  records : List Record
  writer : LogWriter

namespace LogWriter

def new (storage : Storage) (sequenceAllocator : SequenceAllocator) (segmentCache : SegmentCache)
    (listingCache : ListingCache) : LogWriter :=
  let lastSegmentId := segmentCache.latest.map fun s => s.id
  { sequenceAllocator, segmentCache, listingCache
    epoch := 0
    written := { epoch := 0, snapshot := storage, seqnum := 0, lastSegmentId }
    watermarks := { applied := 0, written := 0, durable := 0 }
    lastSegmentId }

/-- Steps 1 to 4 of `handle_append`: the batch of a write. -/
def prepare (w : LogWriter) (write : LogWrite) : Prepared :=
  let count := UInt64.ofNat write.records.length
  let (baseSeq, blockRecord, sequenceAllocator) := w.sequenceAllocator.allocate count
  let (assignment, segmentRecords, segmentCache) :=
    w.segmentCache.assignSegment write.timestampMs baseSeq false
  let (_, listingRecords, listingCache) :=
    w.listingCache.assignNewKeys assignment.segment.id (write.records.map fun r => r.key)
  { baseSeq, assignment
    records := blockRecord.toList ++ segmentRecords ++ listingRecords
      ++ addEntries assignment.segment baseSeq write.records
    writer := { w with sequenceAllocator, segmentCache, listingCache } }

def writeAndBroadcast (w : LogWriter) (storage : Storage) (records : List Record)
    (assignment : SegmentAssignment) : PutOutcome → Except String Unit × Storage × LogWriter
  | .putErr e => (.error e, storage, w)
  | .snapshotErr e => (.error e, storage.put records, w)
  | .ok seqnum =>
    let snapshot := storage.put records
    let epoch := w.epoch + 1
    let lastSegmentId := if assignment.isNew then some assignment.segment.id else w.lastSegmentId
    (.ok (), snapshot, { w with
      epoch
      lastSegmentId
      written := { epoch, snapshot, seqnum, lastSegmentId }
      watermarks := { w.watermarks with written := epoch } })

def handleAppend (w : LogWriter) (storage : Storage) (write : LogWrite) (outcome : PutOutcome) :
    Except String (Option AppendOutput) × Storage × LogWriter :=
  if write.records = [] then (.ok none, storage, w)
  else
    let p := w.prepare write
    match p.writer.writeAndBroadcast storage p.records p.assignment outcome with
    | (.error e, storage, w) => (.error e, storage, w)
    | (.ok _, storage, w) => (.ok (some { startSequence := p.baseSeq }), storage, w)

/-- `error` is the error of the storage, if the flush fails. -/
def handleFlush (w : LogWriter) (error : Option String) : Except String Nat × LogWriter :=
  match error with
  | some e => (.error e, w)
  | none => (.ok w.epoch, { w with watermarks := { w.watermarks with durable := w.epoch } })

end LogWriter

/-! ### Runs -/

structure Append where
  range : Span
  records : List UserRecord
  stored : Bool
  acknowledged : Bool
deriving Repr, DecidableEq

/-- The store and the writer over it. `ahead`: a lost batch had records other than entries. -/
structure State where
  storage : Storage
  writer : Option LogWriter
  -- history
  appends : List Append
  ahead : Bool

inductive Label where
  | start (config : SegmentConfig)
  | append (write : LogWrite) (outcome : PutOutcome)
  | flush (error : Option String)
  | stop
deriving Repr, DecidableEq

def isEntry (record : Record) : Bool :=
  record.key.take 3 == RecordType.logEntry.keyPrefix.toBytes

namespace State

def init : State := { storage := ∅, writer := none, appends := [], ahead := false }

def record (s : State) (p : Prepared) (write : LogWrite) (outcome : PutOutcome) : State :=
  let range : Span :=
    { start := p.baseSeq.toNat, stop := p.baseSeq.toNat + write.records.length }
  let (stored, acknowledged) := match outcome with
    | .putErr _ => (false, false)
    | .snapshotErr _ => (true, false)
    | .ok _ => (true, true)
  { s with
    appends := s.appends ++ [{ range, records := write.records, stored, acknowledged }]
    ahead := s.ahead || (!stored && p.records.any fun r => !isEntry r) }

def step (s : State) : Label → Option State
  -- `LogDb::open`: allocator and caches from the storage, an empty listing cache.
  | .start config =>
    match s.writer, SequenceAllocator.load s.storage seqBlockKey,
        SegmentCache.openStorage s.storage config with
    | none, .ok allocator, .ok segmentCache =>
      some { s with
        writer := some (LogWriter.new s.storage allocator segmentCache ListingCache.new)
        ahead := false }
    | _, _, _ => none
  | .append write outcome =>
    match s.writer with
    | none => none
    | some w =>
      let (_, storage, w') := w.handleAppend s.storage write outcome
      let s' := { s with storage, writer := some w' }
      if write.records = [] then some s'
      else some (s'.record (w.prepare write) write outcome)
  | .flush error =>
    match s.writer with
    | none => none
    | some w => some { s with writer := some (w.handleFlush error).2 }
  | .stop => some { s with writer := none }

end State

end OpenData.Log

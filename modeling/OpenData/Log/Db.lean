import OpenData.Log.Reader

/-!
# The log with its read view

The embedding of `LogDb` (`log/src/log.rs`) and of `ViewTracker` (`view_tracker.rs`). A `LogDb` is a
writer and a read view. A background task, the subscriber, waits for the views that the writer
shows and moves the read view forward: it replaces the snapshot, loads the new segments, and raises
the watermark that `sync_reads` waits for. With `ReadVisibility::Remote` a view waits in the tracker
until the storage has confirmed its sequence number.
-/

namespace OpenData.Log

open Lib (Bytes)
open Common (Storage)
open OpenData.Coordinator (EpochWatermarks)

/-! ### Pending views -/

structure ViewEntry where
  seqnum : UInt64
  epoch : Nat
  snapshot : Storage
  lastSegmentId : Option UInt32

structure ViewTracker where
  pending : List ViewEntry

namespace ViewTracker

def new : ViewTracker := { pending := [] }

def push (tracker : ViewTracker) (entry : ViewEntry) : ViewTracker :=
  { pending := tracker.pending ++ [entry] }

/-- Take the entries up to `durableSeq` from the front. The last one of them is returned. -/
def advance (tracker : ViewTracker) (durableSeq : UInt64) : Option ViewEntry × ViewTracker :=
  ((tracker.pending.takeWhile fun e => e.seqnum ≤ durableSeq).getLast?,
    { pending := tracker.pending.dropWhile fun e => e.seqnum ≤ durableSeq })

end ViewTracker

/-! ### The subscriber -/

inductive ReadVisibility where
  | memory
  | remote
deriving Repr, DecidableEq

inductive SubscriberPc where
  | waiting
  | refreshing (entry : ViewEntry)
  | marking (entry : ViewEntry)

def SubscriberPc.isWaiting : SubscriberPc → Bool
  | .waiting => true
  | .refreshing _ | .marking _ => false

structure Subscriber where
  seen : Nat
  durableUnseen : Bool
  tracker : ViewTracker
  knownSegmentId : Option UInt32
  lastDurableSeq : UInt64
  watermarks : EpochWatermarks
  pc : SubscriberPc

structure LogDb where
  readVisibility : ReadVisibility
  readView : LogReadView
  subscriber : Subscriber

namespace LogDb

/-- The read side of a log that was just opened with the caches of `w`. -/
def new (storage : Storage) (w : LogWriter) (readVisibility : ReadVisibility)
    (durableSeq : UInt64) : LogDb where
  readVisibility := readVisibility
  readView := { storage, segments := w.segmentCache }
  subscriber :=
    { seen := 0
      durableUnseen := false
      tracker := ViewTracker.new
      knownSegmentId := w.segmentCache.latest.map fun s => s.id
      lastDurableSeq := durableSeq
      watermarks := { applied := 0, written := 0, durable := 0 }
      pc := .waiting }

/-- The lock of the read view is free. -/
def unlocked (db : LogDb) : Bool := db.subscriber.pc.isWaiting

/-- The epoch that `sync_reads` waits for. -/
def syncTarget (db : LogDb) (w : LogWriter) : Nat :=
  match db.readVisibility with
  | .remote => w.watermarks.durable
  | .memory => w.watermarks.written

/-- The watermark that `sync_reads` waits on. -/
def syncWatermark (db : LogDb) : Nat :=
  match db.readVisibility with
  | .remote => db.subscriber.watermarks.durable
  | .memory => db.subscriber.watermarks.written

/-- A wait of `sync_reads` for `target` ends with `Ok`. -/
def Synced (db : LogDb) (target : Nat) : Prop := target ≤ db.syncWatermark

instance (db : LogDb) (target : Nat) : Decidable (db.Synced target) :=
  inferInstanceAs (Decidable (_ ≤ _))

/-- The first part of `try_advance_read_view`: with an entry to advance to, the lock is taken and
the snapshot replaced. -/
def tryAdvance (db : LogDb) (throughSeq : UInt64) : LogDb :=
  match db.subscriber.tracker.advance throughSeq with
  | (some entry, tracker) =>
    { db with
      readView := db.readView.updateSnapshot entry.snapshot
      subscriber := { db.subscriber with tracker, pc := .refreshing entry } }
  | (none, tracker) => { db with subscriber := { db.subscriber with tracker } }

/-- A new view from `written_rx`. -/
def receiveWritten (db : LogDb) (view : WrittenView) : LogDb :=
  let entry : ViewEntry :=
    { seqnum := view.seqnum, epoch := view.epoch, snapshot := view.snapshot
      lastSegmentId := view.lastSegmentId }
  let subscriber :=
    { db.subscriber with seen := view.epoch, tracker := db.subscriber.tracker.push entry }
  match db.readVisibility with
  | .memory => { db with subscriber }.tryAdvance view.seqnum
  | .remote =>
    { db with
      subscriber := { subscriber with
        watermarks := { subscriber.watermarks with written := view.epoch } } }.tryAdvance
      subscriber.lastDurableSeq

/-- A new value from `durable_rx`. -/
def receiveDurable (db : LogDb) (durableSeq : UInt64) : LogDb :=
  { db with
    subscriber := { db.subscriber with
      durableUnseen := false, lastDurableSeq := durableSeq } }.tryAdvance durableSeq

/-- The second part of `try_advance_read_view`: the segments are refreshed when the writer reports a
new one. `error` is the error of the storage, if the refresh fails. It is logged, and nothing else
happens. -/
def refresh (db : LogDb) (entry : ViewEntry) (error : Option String) : LogDb :=
  let marking := { db.subscriber with pc := .marking entry }
  if entry.lastSegmentId = db.subscriber.knownSegmentId then { db with subscriber := marking }
  else
    match error, db.readView.refreshSegments db.subscriber.knownSegmentId with
    | none, .ok readView =>
      { db with
        readView
        subscriber := { marking with knownSegmentId := entry.lastSegmentId } }
    | _, _ => { db with subscriber := marking }

/-- The last part of `try_advance_read_view`: the watermark. -/
def mark (db : LogDb) (entry : ViewEntry) : LogDb :=
  let watermarks := match db.readVisibility with
    | .memory => { db.subscriber.watermarks with written := entry.epoch }
    | .remote => { db.subscriber.watermarks with durable := entry.epoch }
  { db with subscriber := { db.subscriber with watermarks, pc := .waiting } }

end LogDb

/-! ### Runs -/

namespace Db

/-- The log with an open `LogDb` over it. -/
structure State where
  log : Log.State
  db : Option LogDb
  durableSeq : UInt64
  -- history
  /-- The views that the running writer has shown, oldest first, each with the number of appends
  before it. -/
  views : List (WrittenView × Nat)
  /-- The number of appends before the last flush of this `LogDb` that succeeded, or before it was
  opened. -/
  flushed : Nat

inductive Label where
  | openDb (config : SegmentConfig) (readVisibility : ReadVisibility)
  | append (write : LogWrite) (outcome : PutOutcome)
  | flush (error : Option String)
  | durable (seq : UInt64)
  | writtenChanged
  | durableChanged
  | refresh (error : Option String)
  | mark
  | close
deriving Repr, DecidableEq

namespace State

def init : State :=
  { log := Log.State.init, db := none, durableSeq := 0, views := [], flushed := 0 }

/-- The history of views after a step to `log`. A new view has a new epoch. -/
def recordView (s : State) (log : Log.State) : List (WrittenView × Nat) :=
  match log.writer with
  | none => s.views
  | some w =>
    if w.written.epoch < s.views.length then s.views
    else s.views ++ [(w.written, log.appends.length)]

def step (s : State) : Label → Option State
  | .openDb config readVisibility =>
    match s.log.step (.start config) with
    | none => none
    | some log =>
      match log.writer with
      | none => none
      | some w =>
        some { s with
          log
          db := some (LogDb.new log.storage w readVisibility s.durableSeq)
          views := [(w.written, log.appends.length)]
          flushed := log.appends.length }
  | .append write outcome =>
    match s.log.step (.append write outcome) with
    | none => none
    | some log => some { s with log, views := s.recordView log }
  | .flush error =>
    match s.log.step (.flush error) with
    | none => none
    | some log =>
      some { s with
        log
        flushed := match error with | none => log.appends.length | some _ => s.flushed }
  | .durable seq =>
    some { s with
      durableSeq := seq
      db := s.db.map fun db =>
        { db with subscriber := { db.subscriber with durableUnseen := true } } }
  | .writtenChanged =>
    match s.db, s.log.writer with
    | some db, some w =>
      if db.unlocked ∧ db.subscriber.seen ≠ w.written.epoch then
        some { s with db := some (db.receiveWritten w.written) }
      else none
    | _, _ => none
  | .durableChanged =>
    match s.db with
    | some db =>
      if db.unlocked ∧ db.readVisibility = .remote ∧ db.subscriber.durableUnseen then
        some { s with db := some (db.receiveDurable s.durableSeq) }
      else none
    | none => none
  | .refresh error =>
    match s.db with
    | some db =>
      match db.subscriber.pc with
      | .refreshing entry => some { s with db := some (db.refresh entry error) }
      | .waiting | .marking _ => none
    | none => none
  | .mark =>
    match s.db with
    | some db =>
      match db.subscriber.pc with
      | .marking entry => some { s with db := some (db.mark entry) }
      | .waiting | .refreshing _ => none
    | none => none
  | .close => some { s with log := { s.log with writer := none }, db := none }

end State

end Db

end OpenData.Log

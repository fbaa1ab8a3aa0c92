import OpenData.Timeseries.Tsdb

/-!
# Concurrent calls on all buckets

The embedding of `Tsdb::ingest_samples`, `get_or_create_for_ingest` and `Tsdb::flush`. A write is
split by bucket, and each group goes to the database of its bucket: a lookup in the ingest cache,
and if that finds nothing a load from the store and an insertion into the cache. These are three
steps, and the steps of other calls may come between them. A flush sends a command to every database
in the cache and waits until the deltas that were frozen by then are written.
-/

namespace OpenData.Timeseries.Database

open Common

structure Instance where
  bucket : TimeBucket
  tsdb : MiniTsdb
  hasWrites : Bool
  frozenCount : Nat
  writtenCount : Nat
  failed : Bool
  -- history
  accepted : List (List Series)
  received : List (List Label × SeriesId)

inductive IngestPc where
  | next
  | load (bucket : TimeBucket)
  | insert (bucket : TimeBucket) (index : Nat)
  | write (bucket : TimeBucket) (index : Nat)
deriving DecidableEq

structure IngestCall where
  seriesList : List Series
  groups : AList fun _ : TimeBucket => List Series
  pc : IngestPc

structure FlushCall where
  /-- The databases of the cache, each with the number of deltas to wait for once its write task has
  handled the command. -/
  waits : List (Nat × Option Nat)
  before : List (List Series)

structure State where
  storage : Storage
  cache : AList fun _ : TimeBucket => Nat
  instances : List Instance
  ingests : AList fun _ : Nat => IngestCall
  flushes : AList fun _ : Nat => FlushCall
  -- history
  returned : List (List Series)
  flushed : List (List (List Series) × Storage)

inductive Label where
  | ingest (call : Nat) (seriesList : List Series)
  | lookup (call : Nat) (bucket : TimeBucket)
  | load (call : Nat)
  | insert (call : Nat)
  | write (call : Nat)
  | done (call : Nat)
  | fail (call : Nat)
  | flush (call : Nat)
  | command (call : Nat) (index : Nat)
  | tick (index : Nat)
  | written (index : Nat) (ok : Bool)
  | sync (call : Nat)
  | failFlush (call : Nat)

namespace Instance

def init (context : TsdbContext) : Instance where
  bucket := context.bucket
  tsdb := { delta := .init context, frozen := [] }
  hasWrites := false
  frozenCount := 0
  writtenCount := 0
  failed := false
  accepted := []
  received := []

def write (crates : Crates) (inst : Instance) (batch : List Series) :
    Except String Unit × Instance :=
  let (result, delta) := inst.tsdb.delta.apply crates batch
  (result, { inst with
    tsdb := { inst.tsdb with delta }
    hasWrites := true
    accepted := if result.isOk then inst.accepted ++ [batch] else inst.accepted
    received := inst.received ++ batch.filterMap fun series =>
      (delta.lookup (fingerprint crates (sortLabels series.labels))).map fun id =>
        (sortLabels series.labels, id) })

def freeze (inst : Instance) : Instance :=
  if inst.hasWrites then
    let (frozen, context) := inst.tsdb.delta.freeze
    { inst with
      tsdb := { delta := .init context, frozen := inst.tsdb.frozen ++ [frozen] }
      hasWrites := false
      frozenCount := inst.frozenCount + 1 }
  else inst

end Instance

namespace State

def init (storage : Storage) : State where
  storage := storage
  cache := ∅
  instances := []
  ingests := ∅
  flushes := ∅
  returned := []
  flushed := []

def setPc (s : State) (id : Nat) (call : IngestCall) (pc : IngestPc) : State :=
  { s with ingests := s.ingests.insert id { call with pc } }

def setInstance (s : State) (index : Nat) (inst : Instance) : State :=
  { s with instances := s.instances.set index inst }

def dropIngest (s : State) (id : Nat) : State := { s with ingests := s.ingests.erase id }

def ingest (s : State) (id : Nat) (seriesList : List Series) : Option State :=
  if id ∈ s.ingests then none
  else
    match groupByBucket seriesList with
    | .error _ => some s
    | .ok groups =>
      some { s with ingests := s.ingests.insert id { seriesList, groups, pc := .next } }

def lookup (s : State) (id : Nat) (bucket : TimeBucket) : Option State := do
  let call ← s.ingests.lookup id
  if call.pc = .next ∧ bucket ∈ call.groups then
    match s.cache.lookup bucket with
    | some index => some (s.setPc id call (.write bucket index))
    | none => some (s.setPc id call (.load bucket))
  else none

def load (s : State) (id : Nat) : Option State := do
  let call ← s.ingests.lookup id
  match call.pc with
  | .load bucket =>
    match Timeseries.load s.storage bucket with
    | .error _ => some (s.dropIngest id)
    | .ok context =>
      some ({ s with instances := s.instances ++ [Instance.init context] }.setPc id call
        (.insert bucket s.instances.length))
  | _ => none

def insert (s : State) (id : Nat) : Option State := do
  let call ← s.ingests.lookup id
  match call.pc with
  | .insert bucket index =>
    some ({ s with cache := s.cache.insert bucket index }.setPc id call (.write bucket index))
  | _ => none

/-- `ingest_batch` with the group of the bucket. -/
def write (crates : Crates) (s : State) (id : Nat) : Option State := do
  let call ← s.ingests.lookup id
  match call.pc with
  | .write bucket index => do
      let inst ← s.instances[index]?
      let batch ← call.groups.lookup bucket
      match inst.write crates batch with
      | (.ok (), inst) =>
        some ((s.setInstance index inst).setPc id
          { call with groups := call.groups.erase bucket } .next)
      | (.error _, inst) => some ((s.setInstance index inst).dropIngest id)
  | _ => none

def fail (s : State) (id : Nat) : Option State := do
  let call ← s.ingests.lookup id
  match call.pc with
  | .load _ | .write _ _ => some (s.dropIngest id)
  | _ => none

def done (s : State) (id : Nat) : Option State := do
  let call ← s.ingests.lookup id
  if call.pc = .next ∧ call.groups.entries.isEmpty then
    some { s.dropIngest id with returned := s.returned ++ [call.seriesList] }
  else none

def flush (s : State) (id : Nat) : Option State :=
  if id ∈ s.flushes then none
  else some { s with flushes := s.flushes.insert id {
    waits := s.cache.entries.map fun e => (e.2, none)
    before := s.returned } }

def command (s : State) (id index : Nat) : Option State := do
  let call ← s.flushes.lookup id
  let inst ← s.instances[index]?
  if (index, none) ∈ call.waits then
    let inst := inst.freeze
    some { s.setInstance index inst with
      flushes := s.flushes.insert id { call with
        waits := call.waits.map fun w =>
          if w = (index, none) then (index, some inst.frozenCount) else w } }
  else none

def tick (s : State) (index : Nat) : Option State := do
  let inst ← s.instances[index]?
  some (s.setInstance index inst.freeze)

def written (crates : Crates) (s : State) (index : Nat) (ok : Bool) : Option State := do
  let inst ← s.instances[index]?
  match inst.tsdb.frozen with
  | [] => none
  | frozen :: rest =>
    if inst.failed then none
    else
      match ok, flushDelta crates s.storage frozen with
      | true, .ok storage =>
        some { s.setInstance index { inst with
            tsdb := { inst.tsdb with frozen := rest }
            writtenCount := inst.writtenCount + 1 } with storage }
      | _, _ => some (s.setInstance index { inst with failed := true })

/-- All databases have written what the call waits for: `Storage::flush`, and the call returns. -/
def sync (s : State) (id : Nat) : Option State := do
  let call ← s.flushes.lookup id
  if call.waits.all fun w =>
      match w.2, s.instances[w.1]? with
      | some count, some inst => decide (count ≤ inst.writtenCount)
      | _, _ => false then
    some { s with
      flushes := s.flushes.erase id
      flushed := s.flushed ++ [(call.before, s.storage)] }
  else none

def step (crates : Crates) (s : State) : Label → Option State
  | .ingest id seriesList => s.ingest id seriesList
  | .lookup id bucket => s.lookup id bucket
  | .load id => s.load id
  | .insert id => s.insert id
  | .write id => s.write crates id
  | .done id => s.done id
  | .fail id => s.fail id
  | .flush id => s.flush id
  | .command id index => s.command id index
  | .tick index => s.tick index
  | .written index ok => s.written crates index ok
  | .sync id => s.sync id
  | .failFlush id =>
    if id ∈ s.flushes then some { s with flushes := s.flushes.erase id } else none

end State

end OpenData.Timeseries.Database

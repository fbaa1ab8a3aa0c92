import OpenData.Buffer.Queue

/-!
# Batch files and their garbage collection

The embedding of `GarbageCollector` (`buffer/src/gc.rs`) and of the part of the producer that
writes a batch file before it enqueues it (`buffer/src/producer.rs`), over the calls of
`OpenData.Buffer.Queue`. One step of a collector is one access to the object store: it takes the
time, reads the manifest, gets one file from the listing, or deletes one candidate. Other steps
come between them in any order.
-/

namespace OpenData.Buffer

open Lib

structure GcConfig where
  parseUlid : String → Option Nat
  gcGracePeriod : Nat

def fileName (path : String) : List Char :=
  (path.toList.reverse.takeWhile (fun ch => ch ≠ '/')).reverse

def stripSuffix (suffix name : List Char) : Option (List Char) :=
  if suffix <:+ name then some (name.take (name.length - suffix.length)) else none

def GcConfig.extractUlidTimestamp (cfg : GcConfig) (path : String) : Option Nat :=
  match stripSuffix ".batch".toList (fileName path) with
  | some stem => cfg.parseUlid (String.ofList stem)
  | none => none

structure ManifestSnapshot where
  locations : List String
  oldestLocationTs : Option Nat

/-- The loop of `read_manifest_snapshot` over the entries, for the oldest time in a location. -/
def GcConfig.oldestLocationTs (cfg : GcConfig) (entries : List QueueEntry) : Option Nat :=
  entries.foldl (fun oldest entry =>
    match cfg.extractUlidTimestamp entry.location, oldest with
    | some ts, some old => if ts < old then some ts else some old
    | some ts, none => some ts
    | none, _ => oldest) none

/-- `read_manifest_snapshot`: an entry that cannot be decoded is an error. -/
def GcConfig.readManifestSnapshot (cfg : GcConfig) (object : Cell Bytes) :
    Result ManifestSnapshot := do
  let (manifest, _) ← ManifestStore.read object
  let entries ← manifest.entries
  .ok { locations := entries.map QueueEntry.location
        oldestLocationTs := cfg.oldestLocationTs entries }

/-- Whether `collect_once` collects a listed file for deletion. -/
def GcConfig.isCandidate (cfg : GcConfig) (now : Nat) (manifest : ManifestSnapshot)
    (path : String) : Bool :=
  match cfg.extractUlidTimestamp path with
  | none => false
  | some fileTs =>
    -- `duration_since` of a later time is an error, and then the age is zero.
    let age := now - fileTs
    if manifest.oldestLocationTs.any (fun oldestTs => decide (oldestTs ≤ fileTs)) then false
    else if age < cfg.gcGracePeriod then false
    else if path ∈ manifest.locations then false
    else true

inductive Collector where
  | started (now : Nat)
  | listing (now : Nat) (manifest : ManifestSnapshot) (toDelete : List String)
  | deleting (toDelete : List String)

abbrev CollectorId := Nat

/-- The queue, the clock, the data files and the collectors, with the paths put and deleted. -/
structure World where
  queue : State
  clock : Nat
  files : List String
  collectors : CollectorId → Option Collector
  written : List String
  deleted : List String

inductive WorldEvent where
  | queue (l : Label)
  | tick (now : Nat)
  | put (path : String)
  | takeNow (g : CollectorId)
  | readManifest (g : CollectorId)
  | list (g : CollectorId) (path : String)
  | endList (g : CollectorId)
  | delete (g : CollectorId) (path : String)
  | finish (g : CollectorId)

namespace World

/-- Nothing was written. -/
def init : World where
  queue := State.init
  clock := 0
  files := []
  collectors := fun _ => none
  written := []
  deleted := []

def setCollector (w : World) (g : CollectorId) (collector : Option Collector) : World :=
  { w with collectors := Function.update w.collectors g collector }

def step (cfg : GcConfig) (w : World) : WorldEvent → Option World
  | .queue l =>
    match w.queue.step l with
    | some queue => some { w with queue }
    | none => none
  | .tick now => if w.clock ≤ now then some { w with clock := now } else none
  | .put path => some { w with files := path :: w.files, written := path :: w.written }
  | .takeNow g =>
    match w.collectors g with
    | none => some (w.setCollector g (some (.started w.clock)))
    | some _ => none
  | .readManifest g =>
    match w.collectors g with
    | some (.started now) =>
      match cfg.readManifestSnapshot w.queue.object with
      | .ok manifest => some (w.setCollector g (some (.listing now manifest [])))
      | .error _ => some (w.setCollector g none)
    | _ => none
  | .list g path =>
    match w.collectors g with
    | some (.listing now manifest toDelete) =>
      if path ∈ w.files then
        if cfg.isCandidate now manifest path then
          some (w.setCollector g (some (.listing now manifest (toDelete ++ [path]))))
        else some w
      else none
    | _ => none
  | .endList g =>
    match w.collectors g with
    | some (.listing _ _ toDelete) => some (w.setCollector g (some (.deleting toDelete)))
    | _ => none
  | .delete g path =>
    match w.collectors g with
    | some (.deleting toDelete) =>
      if path ∈ toDelete then
        some { w with files := w.files.erase path, deleted := path :: w.deleted }
      else none
    | _ => none
  | .finish g =>
    match w.collectors g with
    | some _ => some (w.setCollector g none)
    | none => none

def References (w : World) (path : String) : Prop :=
  ∃ manifest version entry, ManifestStore.read w.queue.object = .ok (manifest, version) ∧
    .ok entry ∈ manifest.items ∧ entry.location = path

end World

/-- The location that an `enqueue` adds. -/
def Op.location? (o : Op) : Option String :=
  match o.call with
  | .enqueue location _ => some location
  | _ => none

/-- What is assumed of the producers and of time: the name of a file is new, it carries a time
that is not in the future when the file is put, only files that were put are enqueued, and the
manifest put of the enqueue comes before that time plus the grace period. -/
def gcAssumptions (cfg : GcConfig) (w : World) : WorldEvent → Prop
  | .put path => path ∉ w.written ∧ ∃ ts ∈ cfg.extractUlidTimestamp path, ts ≤ w.clock
  | .queue (.start _ (.enqueue path _)) => path ∈ w.written
  | .queue (.put op) => ∀ path ∈ (w.queue.ops op).bind Op.location?,
      ∃ ts ∈ cfg.extractUlidTimestamp path, w.clock < ts + cfg.gcGracePeriod
  | _ => True

instance (cfg : GcConfig) (w : World) (e : WorldEvent) : Decidable (gcAssumptions cfg w e) :=
  match e with
  | .put path => inferInstanceAs (Decidable
      (path ∉ w.written ∧ ∃ ts ∈ cfg.extractUlidTimestamp path, ts ≤ w.clock))
  | .queue (.start _ (.enqueue path _)) => inferInstanceAs (Decidable (path ∈ w.written))
  | .queue (.put op) => inferInstanceAs (Decidable
      (∀ path ∈ (w.queue.ops op).bind Op.location?,
        ∃ ts ∈ cfg.extractUlidTimestamp path, w.clock < ts + cfg.gcGracePeriod))
  | .queue (.start _ (.initializeConsumer _)) | .queue (.start _ (.peek _))
  | .queue (.start _ (.read _ _)) | .queue (.start _ (.dequeue _ _)) | .queue (.read _)
  | .queue (.readFails _ _) | .queue (.check _) | .queue (.putFails _ _) | .queue (.store _)
  | .tick _ | .takeNow _ | .readManifest _ | .list _ _ | .endList _ | .delete _ _ | .finish _ =>
    isTrue trivial

end OpenData.Buffer

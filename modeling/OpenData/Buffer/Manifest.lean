import OpenData.Lib.Cursor

/-!
# The queue manifest as bytes

The embedding of `Manifest`, `QueueEntry`, `decode_entry`, `split_entries` and `ManifestIter`
(`buffer/src/queue.rs`). A manifest is edited on its serialized form: `append` encodes into a
side buffer, `dequeue` copies the tail of the entry area, `set_epoch` patches the footer, and
`to_bytes` writes a new footer behind the merged buffers.
-/

namespace OpenData.Buffer

open Lib

inductive Error where
  | storage (msg : String)
  | serialization (msg : String)
  | invalidInput (msg : String)
  | fenced
deriving Repr, DecidableEq

/-- `buffer::Result`, with the panics of the code as a second exit. -/
abbrev Result := Except (Fault Error)

def fail {α : Type} (e : Error) : Result α := .error (.err e)

def manifestVersion : Nat := 1
def uninitializedEpoch : UInt64 := UInt64.ofNat (2 ^ 64 - 1)
def entryLenSize : Nat := 4
def locationLenSize : Nat := 2
def ingestionTimeMsSize : Nat := 8
def metadataLenSize : Nat := 4
def startIndexSize : Nat := 4
def metadataCountSize : Nat := 4
def entriesCountSize : Nat := 4
def sequenceSize : Nat := 8
def epochSize : Nat := 8
def versionSize : Nat := 2
def footerSize : Nat := entriesCountSize + sequenceSize + epochSize + versionSize

def u16Max : Nat := 2 ^ 16 - 1

def u32Max : Nat := 2 ^ 32 - 1

structure Metadata where
  startIndex : UInt32
  ingestionTimeMs : Int64
  payload : Bytes
deriving DecidableEq

structure QueueEntry where
  sequence : UInt64
  location : String
  metadata : List Metadata
deriving DecidableEq

namespace QueueEntry

/-- `QueueEntry::new`: a location and a metadata list that the length fields can count. -/
def new (location : String) (metadata : List Metadata) : Result QueueEntry :=
  if (asBytes location).length > u16Max then
    fail (.invalidInput
      ("location length " ++ toString (asBytes location).length ++ " exceeds u16::MAX"))
  else if metadata.length > u32Max then
    fail (.invalidInput
      ("metadata count " ++ toString metadata.length ++ " exceeds u32::MAX"))
  else
    .ok { sequence := 0, location, metadata }

def cloneWithSequence (entry : QueueEntry) (sequence : UInt64) : QueueEntry :=
  { entry with sequence }

end QueueEntry

/-! ### Encoding one entry -/

def metadataItemSize (m : Metadata) : Nat :=
  startIndexSize + ingestionTimeMsSize + metadataLenSize + m.payload.length

/-- `metadata_size` in `encode_entry`. -/
def metadataSize (metadata : List Metadata) : Nat :=
  metadataCountSize + (metadata.map metadataItemSize).sum

/-- `entry_body_len` in `encode_entry`. -/
def entryBodyLen (location : String) (metadata : List Metadata) : Nat :=
  sequenceSize + locationLenSize + (asBytes location).length + metadataSize metadata

/-- The loop of `encode_entry` over the metadata ranges. -/
def encodeMetadata : List Metadata → Result Bytes
  | [] => .ok []
  | m :: ms =>
    if m.payload.length > u32Max then
      fail (.invalidInput
        ("metadata payload size " ++ toString m.payload.length ++ " exceeds u32::MAX"))
    else do
      let rest ← encodeMetadata ms
      .ok (toLe startIndexSize m.startIndex.toNat
        ++ toLe ingestionTimeMsSize m.ingestionTimeMs.toUInt64.toNat
        ++ toLe metadataLenSize m.payload.length ++ m.payload ++ rest)

/-- `Manifest::encode_entry`: the bytes it appends to its buffer. The assertion
`entry_body_len <= u32::MAX` is a `debug_assert!`, so the length field keeps the low four bytes
of a longer body. -/
def encodeEntry (entry : QueueEntry) : Result Bytes := do
  let metadataBytes ← encodeMetadata entry.metadata
  .ok (toLe entryLenSize (entryBodyLen entry.location entry.metadata)
    ++ toLe sequenceSize entry.sequence.toNat
    ++ toLe locationLenSize (asBytes entry.location).length ++ asBytes entry.location
    ++ toLe metadataCountSize entry.metadata.length ++ metadataBytes)

/-! ### Decoding one entry -/

/-- The loop of `decode_entry` over `metadata_count` metadata ranges. Its size checks compare
with `limit`, the end of the entry area, not with the end of the entry. -/
def decodeMetadata (data : Bytes) (limit : Nat) : Nat → Cursor Error (List Metadata)
  | 0 => pure []
  | n + 1 => do
      require startIndexSize limit (.serialization
        "queue entry corrupt: size of start index field does not fit in entry")
      let startIndex ← readLe data startIndexSize
      require ingestionTimeMsSize limit (.serialization
        "queue entry corrupt: size of ingestion time field does not fit in entry")
      let ingestionTimeMs ← readLe data ingestionTimeMsSize
      require metadataLenSize limit (.serialization
        "queue entry corrupt: size of metadata length field does not fit in entry")
      let mLen ← readLe data metadataLenSize
      require mLen limit (.serialization
        "queue entry corrupt: metadata has less bytes than set in the metadata length")
      let payload ← sliceHere data mLen
      skip mLen
      let rest ← decodeMetadata data limit n
      pure ({ startIndex := UInt32.ofNat startIndex
              ingestionTimeMs := (UInt64.ofNat ingestionTimeMs).toInt64
              payload } :: rest)

/-- The fields of an entry in front of its metadata. -/
structure EntryHeader where
  entryEnd : Nat
  sequence : UInt64
  location : String
  metadataCount : Nat
deriving Repr, DecidableEq

/-- `decode_entry` up to the metadata count, in a buffer whose entry area ends at `limit`. The
text of the UTF-8 error is the one of the standard library and is not modelled further. -/
def decodeHeader (data : Bytes) (limit : Nat) : Cursor Error EntryHeader := do
  require entryLenSize limit (.serialization
    "queue entry corrupt: size of entry length field does not fit in entry")
  let entryLen ← readLe data entryLenSize
  require entryLen limit (.serialization
    "queue entry corrupt: entry has less bytes than set in the entry length")
  let entryEnd := (← get) + entryLen
  let sequence ← readLe data sequenceSize
  let locationLen ← readLe data locationLenSize
  let minEntryLen := sequenceSize + locationLenSize + locationLen + metadataCountSize
  if entryLen < minEntryLen then
    throw (.err (.serialization ("queue entry corrupt: entry length " ++ toString entryLen
      ++ " is less than minimum entry length " ++ toString minEntryLen
      ++ " for the length of the location " ++ toString locationLen)))
  let raw ← sliceHere data locationLen
  match fromUtf8 raw with
  | none => throw (.err (.serialization "invalid utf-8"))
  | some location => do
      skip locationLen
      let metadataCount ← readLe data metadataCountSize
      pure { entryEnd, sequence := UInt64.ofNat sequence, location, metadataCount }

/-- An allocator with room for every request. -/
def everyRequest (_ : Nat) : Bool := true

/-- `Vec::with_capacity`: the program is aborted when there is no room for `n` elements. -/
def withCapacity (grants : Nat → Bool) (n : Nat) : Cursor Error Unit :=
  if grants n then pure () else throw .panic

/-- `decode_entry`: one entry at the offset. The vector for the metadata is allocated for the
stored count, before a byte of the metadata is read. `grants n` says that the allocator has room
for `n` metadata ranges. -/
def decodeEntry (data : Bytes) (limit : Nat) (grants : Nat → Bool := everyRequest) :
    Cursor Error QueueEntry := do
  let header ← decodeHeader data limit
  withCapacity grants header.metadataCount
  let metadata ← decodeMetadata data limit header.metadataCount
  set header.entryEnd
  pure { sequence := header.sequence, location := header.location, metadata }

/-- The loop of `split_entries` with `n` entries left, at the offset `off`. -/
def splitEntriesFrom (data : Bytes) (limit : Nat) (throughSequence : UInt64) (n off : Nat)
    (grants : Nat → Bool := everyRequest) : Result (List QueueEntry × Nat × Nat) :=
  match n with
  | 0 => .ok ([], limit, 0)
  | n + 1 =>
    match runAt (decodeEntry data limit grants) off with
    | (.error e, _) => .error e
    | (.ok entry, off') =>
      if entry.sequence ≤ throughSequence then do
        let (removed, start, count) ← splitEntriesFrom data limit throughSequence n off' grants
        .ok (entry :: removed, start, count)
      else .ok ([], off, (n + 1) % 2 ^ 32)

/-- `split_entries`: the removed entries, the offset of the first entry that stays, and how many
stay. -/
def splitEntries (data : Bytes) (count limit : Nat) (throughSequence : UInt64)
    (grants : Nat → Bool := everyRequest) : Result (List QueueEntry × Nat × Nat) :=
  splitEntriesFrom data limit throughSequence count 0 grants

/-! ### The manifest -/

def footer (count : Nat) (nextSequence epoch : UInt64) : Bytes :=
  toLe entriesCountSize count ++ toLe sequenceSize nextSequence.toNat
    ++ toLe epochSize epoch.toNat ++ toLe versionSize manifestVersion

@[simp] theorem length_footer (count : Nat) (nextSequence epoch : UInt64) :
    (footer count nextSequence epoch).length = footerSize := by
  simp [footer, footerSize, entriesCountSize, sequenceSize, epochSize, versionSize]

/-- `Manifest`: serialized entries with their footer, and the entries appended since. Every
constructor of the source leaves room for a footer in `data`. -/
structure Manifest where
  data : Bytes
  appended : Bytes
  appendedCount : Nat
  nextSequence : UInt64
  epoch : UInt64
  footer_le : footerSize ≤ data.length

namespace Manifest

def empty : Manifest where
  data := footer 0 0 0
  appended := []
  appendedCount := 0
  nextSequence := 0
  epoch := 0
  footer_le := by simp

/-- `Manifest::from_bytes`: accepts any buffer with a footer of the current version. -/
def fromBytes (data : Bytes) : Result Manifest :=
  if data = [] then fail (.serialization "queue manifest data must not be empty")
  else if h : data.length < footerSize then
    fail (.serialization "queue manifest too short for footer")
  else
    let version := ofLe (data.drop (data.length - versionSize))
    if version ≠ manifestVersion then
      fail (.serialization ("unsupported queue manifest version: " ++ toString version))
    else
      let epochStart := data.length - versionSize - epochSize
      let nextSeqStart := data.length - versionSize - epochSize - sequenceSize
      .ok { data
            appended := []
            appendedCount := 0
            nextSequence := UInt64.ofNat (ofLe ((data.drop nextSeqStart).take sequenceSize))
            epoch := UInt64.ofNat (ofLe ((data.drop epochStart).take epochSize))
            footer_le := Nat.le_of_not_lt h }

/-- `existing_entries_count`: the count in the footer of `data`. -/
def existingEntriesCount (m : Manifest) : Nat :=
  if m.data = [] then 0
  else ofLe ((m.data.drop (m.data.length - footerSize)).take entriesCountSize)

/-- Where the entry area of `data` ends. -/
def entriesEnd (m : Manifest) : Nat :=
  if m.data = [] then 0 else m.data.length - footerSize

/-- `Manifest::append`: the entry gets the next sequence number and is encoded behind the
entries appended before. -/
def append (m : Manifest) (entry : QueueEntry) : Result Manifest := do
  let bytes ← encodeEntry (entry.cloneWithSequence m.nextSequence)
  .ok { m with
        appended := m.appended ++ bytes
        nextSequence := m.nextSequence + 1
        appendedCount := m.appendedCount + 1 }

/-- `Manifest::dequeue`: removes the entries with sequence at most `throughSequence` and copies
the bytes of the others behind a new footer. -/
def dequeue (m : Manifest) (throughSequence : UInt64) (grants : Nat → Bool := everyRequest) :
    Result (List QueueEntry × Manifest) := do
  let (removed, baseStart, baseCount) ←
    splitEntries m.data m.existingEntriesCount m.entriesEnd throughSequence grants
  let (appendedRemoved, appendedStart, appendedRemaining) ←
    splitEntries m.appended m.appendedCount m.appended.length throughSequence grants
  let remainingBase ← slice m.data baseStart m.entriesEnd
  let remainingAppended ← slice m.appended appendedStart m.appended.length
  .ok (removed ++ appendedRemoved,
    { data := remainingBase ++ remainingAppended
        ++ footer (baseCount + appendedRemaining) m.nextSequence m.epoch
      appended := []
      appendedCount := 0
      nextSequence := m.nextSequence
      epoch := m.epoch
      footer_le := by
        simp only [List.length_append, length_footer]
        omega })

/-- `Manifest::set_epoch`: the epoch field and the epoch bytes of the footer. -/
def setEpoch (m : Manifest) (epoch : UInt64) : Manifest :=
  { m with
    epoch
    data := patch m.data (m.data.length - versionSize - epochSize) (toLe epochSize epoch.toNat)
    footer_le := by
      have h := m.footer_le
      simp only [footerSize, entriesCountSize, sequenceSize, epochSize, versionSize] at h
      rw [length_patch]
      · exact m.footer_le
      · simp only [length_toLe, epochSize, versionSize]
        omega }

/-- `Manifest::to_bytes`: the data as it is when nothing was appended, else the entry area, the
appended entries and a new footer. The `u32` entry count is a checked sum. -/
def toBytes (m : Manifest) : Result Bytes :=
  if m.appended = [] then .ok m.data
  else
    let prefixBytes := m.data.take m.entriesEnd
    let baseCount := m.existingEntriesCount
    let totalCount := baseCount + m.appendedCount % 2 ^ 32
    if totalCount > u32Max then
      fail (.serialization ("total entry count consisting of " ++ toString baseCount
        ++ " existing entries + " ++ toString m.appendedCount
        ++ " appended entries exceeds u32::MAX"))
    else
      .ok (prefixBytes ++ m.appended ++ footer totalCount m.nextSequence m.epoch)

end Manifest

/-! ### The borrowing iterator -/

structure ManifestIter where
  data : Bytes
  offset : Nat
  remaining : Nat
  entriesEnd : Nat
  appended : Bytes
  appendedOffset : Nat
  appendedRemaining : Nat

def Manifest.iter (m : Manifest) : ManifestIter where
  data := m.data
  offset := 0
  remaining := m.existingEntriesCount
  entriesEnd := m.entriesEnd
  appended := m.appended
  appendedOffset := 0
  appendedRemaining := m.appendedCount

namespace ManifestIter

/-- `ManifestIter::next`: the next item and the iterator after it. A decoding error is an item,
and the iterator goes on from the offset where decoding stopped. -/
def next (it : ManifestIter) (grants : Nat → Bool := everyRequest) :
    Option (Result QueueEntry × ManifestIter) :=
  if 0 < it.remaining then
    let (item, offset) := runAt (decodeEntry it.data it.entriesEnd grants) it.offset
    some (item, { it with remaining := it.remaining - 1, offset })
  else if 0 < it.appendedRemaining then
    let (item, appendedOffset) :=
      runAt (decodeEntry it.appended it.appended.length grants) it.appendedOffset
    some (item, { it with appendedRemaining := it.appendedRemaining - 1, appendedOffset })
  else if it.offset ≠ it.entriesEnd then
    some (fail (.serialization ("base entries did not consume all bytes: offset "
        ++ toString it.offset ++ " != entries_end " ++ toString it.entriesEnd)),
      { it with offset := it.entriesEnd })
  else none

/-- The items of an iteration, at most `fuel` of them. -/
def take : Nat → ManifestIter → List (Result QueueEntry)
  | 0, _ => []
  | fuel + 1, it =>
    match it.next with
    | none => []
    | some (item, it') => item :: it'.take fuel

/-- All items of the iterator. `ManifestIter.take_eq_items` shows that the fuel is enough. -/
def items (it : ManifestIter) : List (Result QueueEntry) :=
  it.take (it.remaining + it.appendedRemaining + 1)

end ManifestIter

/-- All items of an iteration over the manifest. -/
def Manifest.items (m : Manifest) : List (Result QueueEntry) := m.iter.items

def Manifest.entries (m : Manifest) : Result (List QueueEntry) := m.items.mapM id

end OpenData.Buffer

import OpenData.Common.Serde

/-!
# Keys and values of the log

Four kinds of records share the store of a log: log entries, the block of sequence numbers, segment
metadata and key listings. Their keys start with the subsystem, the key version and the record
tag; the entries, segments and listings continue with the segment id.
-/

namespace OpenData.Log

open Lib (Bytes toBe ofBe)
open Common

inductive Error where
  | encoding (message : String)
deriving Repr, DecidableEq

def keyVersion : UInt8 := 0x01

def subsystem : UInt8 := 0x03

def seqBlockKey : Bytes := [subsystem, keyVersion, 0x20]

/-! ### Record types -/

inductive RecordType where
  | logEntry
  | seqBlock
  | segmentMeta
  | listingEntry
deriving Repr, DecidableEq

namespace RecordType

def id : RecordType → UInt8
  | .logEntry => 0x01
  | .seqBlock => 0x02
  | .segmentMeta => 0x03
  | .listingEntry => 0x04

/-- The name that `{:?}` prints. -/
def name : RecordType → String
  | .logEntry => "LogEntry"
  | .seqBlock => "SeqBlock"
  | .segmentMeta => "SegmentMeta"
  | .listingEntry => "ListingEntry"

def fromId (id : UInt8) : Except Error RecordType :=
  if id = 0x01 then .ok .logEntry
  else if id = 0x02 then .ok .seqBlock
  else if id = 0x03 then .ok .segmentMeta
  else if id = 0x04 then .ok .listingEntry
  else .error (.encoding s!"invalid record type: 0x{hexByte id}")

def fromPrefix (p : KeyPrefix) : Except Error RecordType :=
  if p.subsystem ≠ subsystem then
    .error (.encoding
      s!"invalid subsystem: expected 0x{hexByte subsystem}, got 0x{hexByte p.subsystem}")
  else fromId ((p.tag &&& 0xF0) >>> 4)

def tag (t : RecordType) : UInt8 := recordTag t.id 0

def keyPrefix (t : RecordType) : KeyPrefix := { subsystem, version := keyVersion, tag := t.tag }

end RecordType

/-- What the decoders of the keys with a segment id have in common: the checks of the record type
and of the length, and the segment id. -/
def deserializeSegmentId (expected : RecordType) (what : String) (data : Bytes) :
    Except Error UInt32 :=
  match KeyPrefix.fromBytesWithValidation data subsystem keyVersion with
  | .error e => .error (.encoding e.message)
  | .ok p =>
    match RecordType.fromPrefix p with
    | .error e => .error e
    | .ok recordType =>
      if recordType ≠ expected then
        .error (.encoding
          s!"invalid record type: expected {expected.name}, got {recordType.name}")
      else if data.length < 7 then .error (.encoding s!"buffer too short for {what}")
      else .ok (UInt32.ofNat (ofBe ((data.drop 3).take 4)))

/-! ### Log entries -/

def entryKey (segmentId : UInt32) (key : Bytes) (relativeSeq : UInt64) : Bytes :=
  RecordType.logEntry.keyPrefix.toBytes ++ toBe 4 segmentId.toNat
    ++ TerminatedBytes.serialize key ++ VarU64.serialize relativeSeq

structure LogEntryKey where
  segmentId : UInt32
  key : Bytes
  sequence : UInt64
deriving Repr, DecidableEq

namespace LogEntryKey

def serialize (k : LogEntryKey) (segmentStartSeq : UInt64) : Bytes :=
  entryKey k.segmentId k.key (k.sequence - segmentStartSeq)

def deserialize (data : Bytes) (segmentStartSeq : UInt64) : Except Error LogEntryKey :=
  match deserializeSegmentId .logEntry "log entry key" data with
  | .error e => .error e
  | .ok segmentId =>
    match TerminatedBytes.deserialize (data.drop 7) with
    | .error e => .error (.encoding e.message)
    | .ok (key, rest) =>
      match VarU64.deserialize rest with
      | .error e => .error (.encoding e.message)
      | .ok (relativeSeq, _) =>
        .ok { segmentId, key, sequence := segmentStartSeq + relativeSeq }

end LogEntryKey

/-! ### Segments -/

structure SegmentMetaKey where
  segmentId : UInt32
deriving Repr, DecidableEq

namespace SegmentMetaKey

def serialize (k : SegmentMetaKey) : Bytes :=
  RecordType.segmentMeta.keyPrefix.toBytes ++ toBe 4 k.segmentId.toNat

def deserialize (data : Bytes) : Except Error SegmentMetaKey :=
  match deserializeSegmentId .segmentMeta "SegmentMeta key" data with
  | .error e => .error e
  | .ok segmentId => .ok { segmentId }

end SegmentMetaKey

structure SegmentMeta where
  startSeq : UInt64
  startTimeMs : Int64
deriving Repr, DecidableEq

namespace SegmentMeta

def serialize (m : SegmentMeta) : Bytes :=
  toBe 8 m.startSeq.toNat ++ toBe 8 m.startTimeMs.toUInt64.toNat

def deserialize (data : Bytes) : Except Error SegmentMeta :=
  if data.length < 16 then
    .error (.encoding
      s!"buffer too short for SegmentMeta value: need 16 bytes, got {data.length}")
  else
    .ok {
      startSeq := UInt64.ofNat (ofBe (data.take 8))
      startTimeMs := (UInt64.ofNat (ofBe ((data.drop 8).take 8))).toInt64 }

end SegmentMeta

/-! ### Listings -/

structure ListingEntryKey where
  segmentId : UInt32
  key : Bytes
deriving Repr, DecidableEq

namespace ListingEntryKey

def serialize (k : ListingEntryKey) : Bytes :=
  RecordType.listingEntry.keyPrefix.toBytes ++ toBe 4 k.segmentId.toNat ++ k.key

def deserialize (data : Bytes) : Except Error ListingEntryKey :=
  match deserializeSegmentId .listingEntry "listing entry key" data with
  | .error e => .error e
  | .ok segmentId => .ok { segmentId, key := data.drop 7 }

/-- `segment_prefix`: the smallest key of a segment. -/
def segmentPrefix (segmentId : UInt32) : Bytes :=
  RecordType.listingEntry.keyPrefix.toBytes ++ toBe 4 segmentId.toNat

def scanRange (start stop : UInt32) : BytesRange where
  start := .included (segmentPrefix start)
  stop := .excluded (segmentPrefix stop)

end ListingEntryKey

/-- `ListingEntryValue::serialize`: the presence of the record is all it says. -/
def listingEntryValue : Bytes := []

end OpenData.Log

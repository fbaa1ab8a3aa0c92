import OpenData.Common.Range

/-!
# Encodings shared by the storage keys

Every key starts with a prefix of three bytes. The fields behind it use encodings that keep the
lexicographic order of the bytes equal to the order of the values, so that a scan of a key range is
a scan of a value range.
-/

namespace OpenData.Common

open Lib (Bytes Fault toLe ofLe asBytes fromUtf8)

/-- The two lowercase hexadecimal digits of `{:02x}`. -/
def hexByte (b : UInt8) : String :=
  String.ofList [Nat.digitChar (b.toNat / 16), Nat.digitChar (b.toNat % 16)]

/-! ### The prefix of a key -/

structure KeyPrefix where
  subsystem : UInt8
  version : UInt8
  tag : UInt8
deriving Repr, DecidableEq

namespace KeyPrefix

def validateByte (byte : UInt8) (message : String) : Except DeserializeError UInt8 :=
  if byte = 0 then .error { message } else .ok byte

def validateSubsystem (byte : UInt8) : Except DeserializeError UInt8 :=
  validateByte byte s!"invalid subsystem: 0x{hexByte byte} (subsystem 0 is reserved)"

def validateKeyVersion (byte : UInt8) : Except DeserializeError UInt8 :=
  validateByte byte s!"invalid key version: 0x{hexByte byte} (version 0 is reserved)"

def validateRecordTag (byte : UInt8) : Except DeserializeError UInt8 :=
  validateByte byte s!"invalid record tag: 0x{hexByte byte} (tag 0 is reserved)"

def fromBytes : Bytes → Except DeserializeError KeyPrefix
  | b0 :: b1 :: b2 :: _ => do
      let subsystem ← validateSubsystem b0
      let version ← validateKeyVersion b1
      let tag ← validateRecordTag b2
      .ok { subsystem, version, tag }
  | data =>
    .error { message := s!"buffer too short for key prefix: need 3 bytes, got {data.length}" }

def fromBytesWithValidation (data : Bytes) (expectedSubsystem expectedVersion : UInt8) :
    Except DeserializeError KeyPrefix := do
  let p ← fromBytes data
  if p.subsystem ≠ expectedSubsystem then
    .error { message :=
      s!"invalid subsystem: expected 0x{hexByte expectedSubsystem}, got 0x{hexByte p.subsystem}" }
  else if p.version ≠ expectedVersion then
    .error { message :=
      s!"invalid key version: expected 0x{hexByte expectedVersion}, got 0x{hexByte p.version}" }
  else .ok p

def toBytes (p : KeyPrefix) : Bytes := [p.subsystem, p.version, p.tag]

end KeyPrefix

/-- `RecordTag::new`: the record type in the high four bits. -/
def recordTag (recordType reserved : UInt8) : UInt8 := (recordType <<< 4) ||| reserved

/-! ### Byte strings -/

namespace TerminatedBytes

def terminatorByte : UInt8 := 0x00

def escapeByte : UInt8 := 0x01

def escape (byte : UInt8) : Bytes :=
  if byte = terminatorByte then [escapeByte, 0x01]
  else if byte = escapeByte then [escapeByte, 0x02]
  else [byte]

def serialize (data : Bytes) : Bytes := data.flatMap escape ++ [terminatorByte]

/-- The loop of `deserialize`: `result` is what was read so far. The second component of the
result is what follows the terminator. -/
def deserializeFrom (result : Bytes) : Bytes → Except DeserializeError (Bytes × Bytes)
  | [] => .error { message := "unterminated bytes sequence (missing 0x00 terminator)" }
  | byte :: rest =>
    if byte = terminatorByte then .ok (result, rest)
    else if byte = escapeByte then
      match rest with
      | [] => .error { message := "truncated escape sequence in terminated bytes" }
      | next :: rest =>
        if next = 0x01 then deserializeFrom (result ++ [terminatorByte]) rest
        else if next = 0x02 then deserializeFrom (result ++ [escapeByte]) rest
        else .error { message := s!"invalid escape sequence: 0x01 0x{hexByte next}" }
    else deserializeFrom (result ++ [byte]) rest

def deserialize (data : Bytes) : Except DeserializeError (Bytes × Bytes) :=
  deserializeFrom [] data

def prefixRange (head : Bytes) : BytesRange :=
  if head = [] then { start := .unbounded, stop := .unbounded }
  else
    match lexIncrement head with
    | some stop => { start := .included (serialize head), stop := .excluded (serialize stop) }
    | none => { start := .included (serialize head), stop := .unbounded }

end TerminatedBytes

/-! ### Numbers -/

namespace VarU32

def maxLenCode : Nat := 4

def thresholds : List UInt64 :=
  ([5, 13, 21, 29, 37] : List UInt64).map fun bits : UInt64 => (1 : UInt64) <<< bits

def lengthCode (x : UInt32) : Nat :=
  (thresholds.findIdx? fun threshold => x.toUInt64 < threshold).getD maxLenCode

def serialize (value : UInt32) : Bytes :=
  let lenCode := lengthCode value
  let totalBytes := lenCode + 1
  let shift := 8 * (totalBytes - 1)
  let firstDataBits : UInt8 := (value.toUInt64 >>> UInt64.ofNat shift).toUInt8 &&& 0x1F
  ((UInt8.ofNat lenCode <<< 5) ||| firstDataBits) ::
    (List.range' 1 lenCode).map fun i =>
      ((value >>> UInt32.ofNat (8 * (totalBytes - 1 - i))) &&& 0xFF).toUInt8

def deserialize : Bytes → Except DeserializeError (UInt32 × Bytes)
  | [] => .error { message := "unexpected end of input: missing var_u32 first byte" }
  | firstByte :: rest =>
    let lenCode := (firstByte >>> 5).toNat
    let totalBytes := lenCode + 1
    let got := rest.length + 1
    if maxLenCode < lenCode then
      .error { message := s!"invalid var_u32 length code: {lenCode} (expected 0..{maxLenCode})" }
    else if got < totalBytes then
      .error { message := s!"unexpected end of input: expected {totalBytes} bytes, got {got}" }
    else
      let value : UInt64 :=
        (rest.take lenCode).foldl (fun value byte => (value <<< 8) ||| byte.toUInt64)
        (firstByte &&& 0x1F).toUInt64
      if 0xFFFFFFFF < value then
        .error { message := s!"var_u32 value {value} exceeds u32::MAX" }
      else .ok (value.toUInt32, rest.drop lenCode)

end VarU32

namespace VarU64

def maxLenCode : Nat := 8

def thresholds : List UInt64 :=
  ([4, 12, 20, 28, 36, 44, 52, 60] : List UInt64).map (fun bits : UInt64 => (1 : UInt64) <<< bits)
    ++ [0xFFFFFFFFFFFFFFFF]

def lengthCode (x : UInt64) : Nat :=
  (thresholds.findIdx? fun threshold => x < threshold).getD maxLenCode

def serialize (value : UInt64) : Bytes :=
  let lenCode := lengthCode value
  let totalBytes := lenCode + 1
  let shift := 8 * (totalBytes - 1)
  let firstDataBits : UInt8 :=
    if 64 ≤ shift then 0 else (value >>> UInt64.ofNat shift).toUInt8 &&& 0x0F
  ((UInt8.ofNat lenCode <<< 4) ||| firstDataBits) ::
    (List.range' 1 lenCode).map fun i =>
      ((value >>> UInt64.ofNat (8 * (totalBytes - 1 - i))) &&& 0xFF).toUInt8

def deserialize : Bytes → Except DeserializeError (UInt64 × Bytes)
  | [] => .error { message := "unexpected end of input: missing var_u64 first byte" }
  | firstByte :: rest =>
    let lenCode := (firstByte >>> 4).toNat
    let totalBytes := lenCode + 1
    let got := rest.length + 1
    if maxLenCode < lenCode then
      .error { message := s!"invalid var_u64 length code: {lenCode} (expected 0..{maxLenCode})" }
    else if got < totalBytes then
      .error { message := s!"unexpected end of input: expected {totalBytes} bytes, got {got}" }
    else
      .ok ((rest.take lenCode).foldl (fun value byte => (value <<< 8) ||| byte.toUInt64)
        (firstByte &&& 0x0F).toUInt64, rest.drop lenCode)

end VarU64

/-! ### Values -/

structure EncodingError where
  message : String
deriving Repr, DecidableEq

def DeserializeError.toEncodingError (e : DeserializeError) : EncodingError :=
  { message := e.message }

def encodeUtf8 (s : String) : Except (Fault EncodingError) Bytes :=
  if (asBytes s).length > 2 ^ 16 - 1 then .error .panic
  else .ok (toLe 2 (asBytes s).length ++ asBytes s)

def encodeOptionalUtf8 : Option String → Except (Fault EncodingError) Bytes
  | some s => encodeUtf8 s
  | none => .ok (toLe 2 0)

/-- A string from the front of the buffer, and the rest. The message for bytes that are not UTF-8
goes on with what the standard library finds in them, which is left out. -/
def decodeUtf8 : Bytes → Except EncodingError (String × Bytes)
  | b0 :: b1 :: buf =>
    let len := ofLe [b0, b1]
    if buf.length < len then
      .error { message :=
        s!"Buffer too short for UTF-8 payload: need {len} bytes, have {buf.length}" }
    else
      match fromUtf8 (buf.take len) with
      | none => .error { message := "Invalid UTF-8" }
      | some s => .ok (s, buf.drop len)
  | _ => .error { message := "Buffer too short for UTF-8 length" }

def decodeOptionalUtf8 : Bytes → Except EncodingError (Option String × Bytes)
  | b0 :: b1 :: buf =>
    if ofLe [b0, b1] = 0 then .ok (none, buf)
    else do
      let (s, rest) ← decodeUtf8 (b0 :: b1 :: buf)
      .ok (some s, rest)
  | _ => .error { message := "Buffer too short for optional UTF-8 length" }

end OpenData.Common

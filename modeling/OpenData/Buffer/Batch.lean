import OpenData.Buffer.Manifest

/-!
# The files of batches

The embedding of `encode_batch` and `decode_batch` (`buffer/src/model.rs`) and of
`find_metadata_for_entry` (`timeseries/src/server/buffer_consumer.rs`). A file is the records of a
batch, each with its length in front, perhaps compressed, and a footer: compression, number of
records, version.
-/

namespace OpenData.Buffer

open Lib

def formatVersion : Nat := 1

/-- `FOOTER_SIZE` of a batch file. -/
def batchFooterSize : Nat := 1 + 4 + 2

inductive CompressionType where
  | none
  | zstd
deriving Repr, DecidableEq

namespace CompressionType

def toByte : CompressionType → UInt8
  | none => 0
  | zstd => 1

def tryFrom (value : UInt8) : Result CompressionType :=
  if value = 0 then .ok none
  else if value = 1 then .ok zstd
  else fail (.serialization s!"unsupported compression type: {value}")

end CompressionType

/-- The `zstd` crate: `bulk::compress` and `stream::decode_all`, with the texts of their errors. -/
structure Zstd where
  compress : Bytes → Except String Bytes
  decompress : Bytes → Except String Bytes

def encodeRecord (entry : Bytes) : Bytes := toLe 4 entry.length ++ entry

def encodeBatch (zstd : Zstd) (entries : List Bytes) (compression : CompressionType) :
    Result Bytes := do
  let records := entries.flatMap encodeRecord
  let compressed ← (match compression with
    | .none => .ok records
    | .zstd =>
      match zstd.compress records with
      | .ok compressed => .ok compressed
      | .error e => fail (.serialization s!"zstd compression failed: {e}"))
  .ok (compressed ++ (compression.toByte :: toLe 4 entries.length ++ toLe 2 formatVersion))

/-- The loop of `decode_batch`. -/
def decodeRecords : Nat → Bytes → Result (List Bytes)
  | 0, _ => .ok []
  | count + 1, data =>
    if data.length < 4 then fail (.serialization "truncated record length")
    else if (data.drop 4).length < ofLe (data.take 4) then
      fail (.serialization "truncated record data")
    else do
      let entries ← decodeRecords count ((data.drop 4).drop (ofLe (data.take 4)))
      .ok ((data.drop 4).take (ofLe (data.take 4)) :: entries)

/-- What `decode_batch` does with the record block and the footer. -/
def decodeParts (zstd : Zstd) (data : Bytes) : Bytes → Result (List Bytes)
  | [] => .error .panic
  | compressionByte :: footer => do
      let compression ← CompressionType.tryFrom compressionByte
      let recordCount := ofLe (footer.take 4)
      let version := ofLe ((footer.drop 4).take 2)
      if version ≠ formatVersion then
        fail (.serialization s!"unsupported batch version: {version}")
      else do
        let entryData ← (match compression with
          | .none => .ok data
          | .zstd =>
            match zstd.decompress data with
            | .ok decompressed => .ok decompressed
            | .error e => fail (.serialization s!"zstd decompression failed: {e}"))
        decodeRecords recordCount entryData

def decodeBatch (zstd : Zstd) (data : Bytes) : Result (List Bytes) :=
  if data.length < batchFooterSize then fail (.serialization "batch too small for footer")
  else
    decodeParts zstd (data.take (data.length - batchFooterSize))
      (data.drop (data.length - batchFooterSize))

/-- `find_metadata_for_entry`: the last range that starts at the entry or before. The ranges are
sorted, so that `partition_point` counts the ranges up to the first that starts later. -/
def findMetadataForEntry (metadata : List Metadata) (idx : UInt32) : Option Metadata :=
  let pos := (metadata.takeWhile fun m => m.startIndex ≤ idx).length
  if pos > 0 then metadata[pos - 1]? else none

end OpenData.Buffer

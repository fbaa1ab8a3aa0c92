import OpenData.Buffer.Batch
import OpenData.Lib.Monadic

/-!
# A batch file is read back, and each entry has its metadata

* `decodeBatch_encodeBatch`: a file of entries that the length fields can count decodes to the
  entries.
* `findMetadataForEntry_eq`: the lookup returns the range that starts at the entry or before it if
  the next range starts behind it.
-/

namespace OpenData.Buffer

open Lib List

/-- What is compressed is decompressed to itself. -/
def Zstd.RoundTrip (zstd : Zstd) : Prop :=
  ∀ data compressed, zstd.compress data = .ok compressed → zstd.decompress compressed = .ok data

variable {entries : List Bytes}

theorem decodeRecords_flatMap (h : ∀ e ∈ entries, e.length < 2 ^ 32) :
    decodeRecords entries.length (entries.flatMap encodeRecord) = .ok entries := by
  induction entries with
  | nil => rfl
  | cons e entries ih =>
    obtain ⟨he, hentries⟩ := forall_mem_cons.mp h
    have hlen : ofLe (((e :: entries).flatMap encodeRecord).take 4) = e.length := by
      rw [flatMap_cons, encodeRecord, append_assoc, take_left' (length_toLe 4 _)]
      exact ofLe_toLe_of_lt he
    have hdrop : ((e :: entries).flatMap encodeRecord).drop 4 =
        e ++ entries.flatMap encodeRecord := by
      rw [flatMap_cons, encodeRecord, append_assoc, drop_left' (length_toLe 4 _)]
    have hfour : ¬((e :: entries).flatMap encodeRecord).length < 4 := by
      rw [flatMap_cons, encodeRecord, length_append, length_append, length_toLe]
      omega
    rw [length_cons, decodeRecords, if_neg hfour, hlen, hdrop, if_neg (by simp),
      drop_left, take_left, ih hentries]
    rfl

variable {compression : CompressionType} {payload : Bytes} {zstd : Zstd}

theorem of_encodeBatch (h : encodeBatch zstd entries compression = .ok payload) : ∃ compressed,
      payload = compressed ++
        (compression.toByte :: toLe 4 entries.length ++ toLe 2 formatVersion) ∧
      match compression with
      | .none => compressed = entries.flatMap encodeRecord
      | .zstd => zstd.compress (entries.flatMap encodeRecord) = .ok compressed := by
  obtain ⟨compressed, hcompressed, h⟩ := exists_of_bind_eq_ok h
  refine ⟨compressed, (Except.ok.inj h).symm, ?_⟩
  cases compression with
  | none => exact (Except.ok.inj hcompressed).symm
  | zstd =>
    cases hzstd : zstd.compress (entries.flatMap encodeRecord) with
    | error => simp [hzstd, fail] at hcompressed
    | ok => simpa [hzstd] using hcompressed

theorem decodeBatch_encodeBatch (hzstd : zstd.RoundTrip) (hcount : entries.length < 2 ^ 32)
    (hlen : ∀ e ∈ entries, e.length < 2 ^ 32)
    (h : encodeBatch zstd entries compression = .ok payload) :
    decodeBatch zstd payload = .ok entries := by
  obtain ⟨compressed, rfl, hcompressed⟩ := of_encodeBatch h
  have hfooter : (compression.toByte :: toLe 4 entries.length ++ toLe 2 formatVersion).length =
      batchFooterSize := by
    simp [batchFooterSize]
  have hsub : (compressed ++ (compression.toByte :: toLe 4 entries.length
      ++ toLe 2 formatVersion)).length - batchFooterSize = compressed.length := by
    rw [length_append, hfooter]
    omega
  have hrecordCount : ofLe ((toLe 4 entries.length ++ toLe 2 formatVersion).take 4) =
      entries.length := by
    rw [take_left' (length_toLe 4 _)]
    exact ofLe_toLe_of_lt hcount
  have hversion : ofLe (((toLe 4 entries.length ++ toLe 2 formatVersion).drop 4).take 2) =
      formatVersion := by
    rw [drop_left' (length_toLe 4 _), take_of_length_le (by simp)]
    exact ofLe_toLe_of_lt (by decide)
  have htype : CompressionType.tryFrom compression.toByte = .ok compression := by
    cases compression <;> rfl
  rw [decodeBatch, if_neg (by rw [length_append, hfooter]; omega), hsub, take_left,
    drop_left, cons_append]
  simp only [decodeParts, htype, hrecordCount, hversion, bind, Except.bind, ne_eq,
    not_true_eq_false, if_false]
  cases compression with
  | none =>
    obtain rfl : compressed = _ := hcompressed
    exact decodeRecords_flatMap hlen
  | zstd =>
    simp only [hzstd _ _ hcompressed]
    exact decodeRecords_flatMap hlen

theorem findMetadataForEntry_eq {before after m idx}
    (hbefore : ∀ x ∈ before, x.startIndex ≤ idx) (hm : m.startIndex ≤ idx)
    (hafter : ∀ x ∈ after.head?, idx < x.startIndex) :
    findMetadataForEntry (before ++ m :: after) idx = some m := by
  have htake : (before ++ m :: after).takeWhile (fun m => decide (m.startIndex ≤ idx)) =
      before ++ [m] := by
    rw [takeWhile_append_of_pos fun x hx => by simpa using hbefore x hx,
      takeWhile_cons_of_pos (by simpa using hm)]
    cases after with
    | nil => rfl
    | cons x =>
      rw [takeWhile_cons_of_neg]
      simpa using hafter x rfl
  rw [findMetadataForEntry, htake]
  simp

end OpenData.Buffer

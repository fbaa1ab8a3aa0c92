import OpenData.Proofs.Vector.Serde
import OpenData.Vector.Keys

/-!
# Order and ranges of the keys

The keys of the metadata index are read back, sort like the values of their field and are a range
for each field (`metadata_index_keys`). `IdDictionaryKey.prefixRange` takes the terminator of its
argument as a part of the prefix, so that no longer id is in it (`prefix_range_misses_extension`)
and the range is that of the prefix for all other ids (`prefix_range_exact`).
-/

namespace OpenData.Vector

open Lib Common List

/-! ### Numbers -/

theorem toNat_xor_signBit (x : UInt64) :
    (x ^^^ 0x8000000000000000).toNat = (x.toNat + 2 ^ 63) % 2 ^ 64 := by
  have hlt := x.toNat_lt
  rw [UInt64.toNat_xor, show (0x8000000000000000 : UInt64).toNat = 2 ^ 63 from rfl]
  have hdiv := Nat.xor_div_two_pow (a := x.toNat) (b := 2 ^ 63) (n := 63)
  have hmod := Nat.xor_mod_two_pow (a := x.toNat) (b := 2 ^ 63) (n := 63)
  rw [Nat.mod_self, Nat.xor_zero] at hmod
  rw [Nat.div_self (by decide)] at hdiv
  rcases (by omega : x.toNat / 2 ^ 63 = 0 ∨ x.toNat / 2 ^ 63 = 1) with h | h <;> rw [h] at hdiv
  · change _ = 1 at hdiv
    omega
  · change _ = 0 at hdiv
    omega

theorem encodeI64Sortable_lt {i j : Int64} : encodeI64Sortable i < encodeI64Sortable j ↔ i < j := by
  have hsigned : ∀ k : Int64, ((encodeI64Sortable k).toNat : Int) = k.toInt + 2 ^ 63 := by
    intro k
    have hcond : k.toInt = _ := BitVec.toInt_eq_toNat_cond k.toBitVec
    have hlt := k.toUInt64.toNat_lt
    have heq : k.toBitVec.toNat = k.toUInt64.toNat := rfl
    rw [encodeI64Sortable, toNat_xor_signBit, hcond, heq]
    split <;> omega
  rw [UInt64.lt_iff_toNat_lt, Int64.lt_iff_toInt_lt]
  have hi := hsigned i
  have hj := hsigned j
  omega

theorem decodeI64Sortable_encodeI64Sortable (v : Int64) :
    decodeI64Sortable (encodeI64Sortable v) = v := by
  rw [decodeI64Sortable, encodeI64Sortable, UInt64.xor_assoc, UInt64.xor_self, UInt64.xor_zero,
    Int64.toInt64_toUInt64]

/-! ### Field values -/

theorem decodeTerminated_append (what s : String) (rest : Bytes) :
    decodeTerminated what (TerminatedBytes.serialize (asBytes s) ++ rest) = .ok (s, rest) := by
  rw [decodeTerminated, TerminatedBytes.deserialize_serialize]
  simp [Except.mapError, bind, Except.bind, fromUtf8_asBytes]

namespace FieldValue

def IsSortable : FieldValue Floats → Bool
  | .string _ | .int64 _ | .bool _ => true
  | _ => false

/-- The order of the values of one type. -/
def Before : FieldValue Floats → FieldValue Floats → Prop
  | .string s, .string t => asBytes s < asBytes t
  | .int64 i, .int64 j => i < j
  | .bool b, .bool c => b = false ∧ c = true
  | _, _ => False

theorem decodeSortable_append {value : FieldValue Floats} (h : value.IsSortable) :
    ∃ bytes, value.encodeSortable = .ok bytes ∧ bytes ≠ [] ∧
      ∀ rest, decodeSortable (bytes ++ rest) = .ok (value, rest) := by
  have htag : ∀ t : FieldType, FieldType.fromByte t.toByte = .ok t := fun t => by cases t <;> rfl
  cases value with
  | string =>
    refine ⟨_, rfl, by simp, fun rest => ?_⟩
    simp [decodeSortable.eq_def, htag, decodeTerminated_append, bind, Except.bind]
  | int64 =>
    refine ⟨_, rfl, by simp, fun rest => ?_⟩
    simp [decodeSortable.eq_def, htag, takeBytes_append, bind, Except.bind, ofBe_toBe_uint64,
      decodeI64Sortable_encodeI64Sortable]
  | bool v => cases v <;> exact ⟨_, rfl, by simp, fun rest => rfl⟩
  | float64 | vector => cases h

theorem encodeSortable_lt {value value' : FieldValue Floats} (h : value.IsSortable)
    (htype : value.fieldType = value'.fieldType) {bytes bytes' : Bytes}
    (hbytes : value.encodeSortable = .ok bytes) (hbytes' : value'.encodeSortable = .ok bytes') :
    bytes < bytes' ↔ Before value value' := by
  cases value <;> cases value' <;> cases htype <;> cases h <;> cases hbytes <;> cases hbytes' <;>
    rw [cons_lt_cons_iff] <;> simp only [UInt8.lt_irrefl, false_or, true_and, Before]
  case string.string => exact TerminatedBytes.orderedCode.lt_iff
  case int64.int64 => rw [← encodeI64Sortable_lt]; exact orderedCode_uint64.lt_iff
  case bool.bool b c => revert b c; decide

end FieldValue

/-! ### The metadata index -/

namespace MetadataIndexKey

def head : Bytes := RecordType.metadataIndex.keyPrefix.toBytes

variable {key : Field Floats}

theorem encode_eq {value : Bytes} (h : key.value.encodeSortable = .ok value) :
    encode key =
      .ok (head ++ (TerminatedBytes.serialize (asBytes key.fieldName) ++ value)) := by
  rw [encode, h, ← append_assoc]
  rfl

theorem decode_encode (h : key.value.IsSortable) :
    ∃ bytes, encode key = .ok bytes ∧ decode bytes = .ok key := by
  obtain ⟨value, hvalue, hne, hdecode⟩ := key.value.decodeSortable_append h
  refine ⟨_, encode_eq hvalue, ?_⟩
  have hlen : 5 ≤ head.length +
      ((TerminatedBytes.serialize (asBytes key.fieldName)).length + value.length) := by
    have hpos := length_pos_iff.mpr hne
    have hhead : head.length = 3 := rfl
    rw [hhead, TerminatedBytes.serialize, length_append, length_singleton]
    omega
  have hhead : ∀ rest, validateKeyPrefix .metadataIndex (head ++ rest) = .ok () := fun _ => rfl
  have hdrop : ∀ rest : Bytes, (head ++ rest).drop 3 = rest := fun _ => rfl
  have hvalue := hdecode []
  rw [append_nil] at hvalue
  simp [decode, Nat.not_lt.mpr hlen, hhead, hdrop, decodeTerminated_append, hvalue, bind,
    Except.bind]

theorem contains_fieldRange {bytes : Bytes} (h : encode key = .ok bytes)
    (field : String) : (fieldRange field).contains bytes = true ↔ key.fieldName = field := by
  cases hvalue : key.value.encodeSortable with
  | error => simp [encode, hvalue, bind, Except.bind] at h
  | ok =>
    rw [encode_eq hvalue] at h
    cases h
    rw [fieldRange, BytesRange.contains_ofPrefix, ← head, prefix_append_right_inj,
      TerminatedBytes.orderedCode.prefix_append_iff]
    exact ⟨fun h => asBytes_inj h.symm, fun h => h ▸ rfl⟩

theorem metadata_index_keys {key key' : Field Floats} (h : key.value.IsSortable)
    (h' : key'.value.IsSortable) : ∃ bytes bytes',
      encode key = .ok bytes ∧ encode key' = .ok bytes' ∧ decode bytes = .ok key ∧
      (key.fieldName = key'.fieldName → key.value.fieldType = key'.value.fieldType →
        (bytes < bytes' ↔ key.value.Before key'.value)) ∧
      (key ≠ key' → bytes ≠ bytes') ∧
      ∀ field, (fieldRange field).contains bytes = true ↔ key.fieldName = field := by
  obtain ⟨bytes, hbytes, hdecode⟩ := decode_encode h
  obtain ⟨bytes', hbytes', hdecode'⟩ := decode_encode h'
  refine ⟨bytes, bytes', hbytes, hbytes', hdecode, fun hname htype => ?_, fun hne heq => hne ?_,
    contains_fieldRange hbytes⟩
  · obtain ⟨value, hvalue, -⟩ := key.value.decodeSortable_append h
    obtain ⟨value', hvalue', -⟩ := key'.value.decodeSortable_append h'
    rw [encode_eq hvalue] at hbytes
    rw [encode_eq hvalue'] at hbytes'
    cases hbytes
    cases hbytes'
    rw [hname, append_lt_append_left, append_lt_append_left,
      FieldValue.encodeSortable_lt h htype hvalue hvalue']
  · rw [heq, hdecode'] at hdecode
    exact (Except.ok.inj hdecode).symm

theorem metadata_index_keys_negative :
    ∃ bytes bytes', encode ⟨"a", .int64 (-1)⟩ = .ok bytes ∧ encode ⟨"a", .int64 1⟩ = .ok bytes' ∧
      bytes < bytes' := by
  obtain ⟨bytes, bytes', hbytes, hbytes', -, hlt, -⟩ := @metadata_index_keys
    ⟨"a", .int64 (-1)⟩ ⟨"a", .int64 1⟩ rfl rfl
  exact ⟨bytes, bytes', hbytes, hbytes', (hlt rfl rfl).mpr (show (-1 : Int64) < 1 by decide)⟩

end MetadataIndexKey

/-! ### The id dictionary -/

namespace IdDictionaryKey

theorem contains_prefixRange (head id : String) :
    (prefixRange head).contains (encode id) = true ↔ head = id := by
  have hiff := TerminatedBytes.orderedCode.prefix_append_iff (a := asBytes head) (b := asBytes id)
    (s := [])
  rw [append_nil] at hiff
  rw [prefixRange, BytesRange.contains_ofPrefix, encode, prefix_append_right_inj, hiff]
  exact ⟨asBytes_inj, fun h => h ▸ rfl⟩

/-- The range is that of the prefix exactly for the ids that are not a proper extension of it. -/
theorem prefix_range_exact (head id : String) :
    ((prefixRange head).contains (encode id) = true ↔ asBytes head <+: asBytes id) ↔
      ¬ (asBytes head <+: asBytes id ∧ head ≠ id) := by
  have hself : head = id → asBytes head <+: asBytes id := fun h => h ▸ prefix_rfl
  rw [contains_prefixRange]
  tauto

theorem prefix_range_misses_extension :
    asBytes "a" <+: asBytes "ab" ∧ (prefixRange "a").contains (encode "ab") = false := by
  decide

end IdDictionaryKey

end OpenData.Vector

import OpenData.Common.Serde
import OpenData.Lib.Bits
import OpenData.Lib.OrderedCode
import OpenData.Proofs.Common.Range

/-!
# The encodings determine what they encode

A store that is addressed by encoded keys keeps two keys apart only if their encodings differ. The
decoders read every encoding back, whatever follows it, so the encodings are injective and can be
cut off (`terminated_encoding`, `var_int_encodings`, `var_int_decoded`).
-/

namespace OpenData.Common

open Lib List Option

/-! ### Byte strings -/

namespace TerminatedBytes

theorem serialize_cons (x : UInt8) (data : Bytes) :
    serialize (x :: data) = escape x ++ serialize data := by
  simp [serialize]

theorem escape_cases (x : UInt8) : x = 0 ∧ escape x = [1, 1] ∨ x = 1 ∧ escape x = [1, 2] ∨
    1 < x ∧ escape x = [x] := by
  unfold escape
  split_ifs with h0 h1
  · exact .inl ⟨h0, rfl⟩
  · exact .inr (.inl ⟨h1, rfl⟩)
  · refine .inr (.inr ⟨?_, rfl⟩)
    have h0 : x.toNat ≠ 0 := fun h => h0 (UInt8.toNat_inj.mp h)
    have h1 : x.toNat ≠ 1 := fun h => h1 (UInt8.toNat_inj.mp h)
    rw [UInt8.lt_iff_toNat_lt]
    show 1 < x.toNat
    omega

/-- The terminator is smaller than the first byte of every escaped one. -/
theorem terminator_lt_escape (x : UInt8) (r s : Bytes) : terminatorByte :: r < escape x ++ s := by
  rcases escape_cases x with ⟨-, h⟩ | ⟨-, h⟩ | ⟨hx, h⟩ <;> rw [h] <;>
    simp only [cons_append, nil_append, cons_lt_cons_iff, terminatorByte]
  · exact .inl (by decide)
  · exact .inl (by decide)
  · exact .inl (UInt8.lt_trans (by decide) hx)

theorem escape_lt_escape {x y} (h : x < y) (r s : Bytes) : escape x ++ r < escape y ++ s := by
  rcases escape_cases y with ⟨rfl, -⟩ | ⟨rfl, hy⟩ | ⟨hlt, hy⟩
  · exact absurd h UInt8.not_lt_zero
  · have hx : x = 0 := UInt8.toNat_inj.mp (Nat.lt_one_iff.mp (UInt8.lt_iff_toNat_lt.mp h))
    subst hx
    rw [hy, show escape 0 = [1, 1] from rfl]
    simp only [cons_append, nil_append, cons_lt_cons_iff]
    exact .inr ⟨trivial, .inl (by decide)⟩
  · rcases escape_cases x with ⟨-, hx⟩ | ⟨-, hx⟩ | ⟨-, hx⟩ <;> rw [hx, hy] <;>
      simp only [cons_append, nil_append, cons_lt_cons_iff]
    · exact .inl hlt
    · exact .inl hlt
    · exact .inl h

theorem orderedCode : OrderedCode serialize := by
  intro a b
  induction a generalizing b with
  | nil =>
    intro hab r s
    cases b with
    | nil => exact absurd hab (List.lt_irrefl _)
    | cons y =>
      rw [serialize_cons, append_assoc]
      exact terminator_lt_escape y r _
  | cons x a ih =>
    intro hab r s
    cases b with
    | nil => exact absurd hab (List.not_lt_nil _)
    | cons =>
      rw [serialize_cons, serialize_cons, append_assoc, append_assoc]
      rcases cons_lt_cons_iff.mp hab with hxy | ⟨rfl, htail⟩
      · exact escape_lt_escape hxy _ _
      · exact append_lt_append_left.mpr (ih htail r s)

theorem deserialize_serialize (data rest : Bytes) :
    deserialize (serialize data ++ rest) = .ok (data, rest) := by
  -- The loop, with what it has read so far.
  have hloop : ∀ result, deserializeFrom result (serialize data ++ rest)
      = .ok (result ++ data, rest) := by
    induction data with
    | nil =>
      intro result
      rw [deserializeFrom.eq_def]
      simp [serialize]
    | cons x data ih =>
      intro result
      have hstep : deserializeFrom result (escape x ++ (serialize data ++ rest))
          = deserializeFrom (result ++ [x]) (serialize data ++ rest) := by
        unfold escape
        split_ifs with h0 h1
        · simp [deserializeFrom, escapeByte, terminatorByte, h0]
        · simp [deserializeFrom, escapeByte, terminatorByte, h1]
        · rw [deserializeFrom.eq_def]
          simp [h0, h1]
      rw [serialize_cons, append_assoc, hstep, ih, append_assoc]
      rfl
  exact hloop []

theorem eq_of_deserializeFrom {result data a rest}
    (h : deserializeFrom result data = .ok (a, rest)) :
    ∃ b, a = result ++ b ∧ data = serialize b ++ rest := by
  fun_induction deserializeFrom result data with
  | case1 | case3 | case6 => cases h
  | case2 result =>
    cases h
    exact ⟨[], by simp, by simp [serialize]⟩
  | case4 result next _ ih =>
    obtain ⟨b, rfl, rfl⟩ := ih h
    exact ⟨terminatorByte :: b, by simp, rfl⟩
  | case5 result next _ _ ih =>
    obtain ⟨b, rfl, rfl⟩ := ih h
    exact ⟨escapeByte :: b, by simp, rfl⟩
  | case7 result byte next hne hne' ih =>
    obtain ⟨b, rfl, rfl⟩ := ih h
    exact ⟨byte :: b, by simp, by simp [serialize_cons, escape, hne, hne']⟩

theorem contains_prefixRange (head data : Bytes) :
    (prefixRange head).contains (serialize data) = true ↔ head <+: data := by
  have hle : ∀ a b, serialize a ≤ serialize b ↔ a ≤ b := fun a b => by
    rw [← List.not_lt, ← List.not_lt, orderedCode.lt_iff]
  rw [isPrefix_iff_between, prefixRange]
  by_cases hnil : head = []
  · subst hnil
    simp [BytesRange.contains, lexIncrement, lexIncrementRev]
  · rw [if_neg hnil]
    cases lexIncrement head <;> simp [BytesRange.contains, hle, orderedCode.lt_iff]

/-- Terminated strings sort like the strings themselves, whatever follows them, and the range of a
prefix holds the strings that start with it. -/
theorem terminated_encoding : OrderedCodec serialize deserialize ∧
    (∀ data a rest, deserialize data = .ok (a, rest) → data = serialize a ++ rest) ∧
    ∀ p a, (prefixRange p).contains (serialize a) = true ↔ p <+: a := by
  refine ⟨orderedCode.codec deserialize_serialize, ?_, contains_prefixRange⟩
  intro data a rest h
  obtain ⟨b, rfl, hdata⟩ := eq_of_deserializeFrom h
  exact hdata

theorem serialize_append_inj {a b r s} (h : serialize a ++ r = serialize b ++ s) :
    a = b ∧ r = s := orderedCode.append_inj.mp h

end TerminatedBytes

/-! ### Numbers -/

section

variable {α : Type}

/-- The index of the first threshold above a number, where the thresholds are the numbers of values
that fit behind each length code. -/
theorem isLengthCode_thresholds {thresholds : List UInt64} {max lead}
    (hlen : thresholds.length = max + 1)
    (hthreshold : ∀ i : Fin max, thresholds[i.val]?.map UInt64.toNat = some (lead * 256 ^ i.val))
    (value : α → UInt64) (hvalue : ∀ a, (value a).toNat < lead * 256 ^ max) :
    IsLengthCode lead max (fun a => (value a).toNat)
      fun a => (thresholds.findIdx? fun threshold => value a < threshold).getD max := by
  have hle : ∀ a, (thresholds.findIdx? fun threshold => value a < threshold).getD max ≤ max := by
    intro a
    cases hfind : thresholds.findIdx? fun threshold => value a < threshold with
    | none => exact Nat.le_refl max
    | some =>
      have hi := (findIdx?_eq_some_iff_getElem.mp hfind).1
      rw [hlen] at hi
      exact Nat.le_of_lt_succ hi
  have hget : ∀ i (hi : i < max), ∃ hlt : i < thresholds.length,
      thresholds[i].toNat = lead * 256 ^ i := by
    intro i hi
    have hlt : i < thresholds.length := hlen ▸ Nat.lt_succ_of_lt hi
    have hvalue := hthreshold ⟨i, hi⟩
    rw [getElem?_eq_getElem hlt, map_some, Option.some.injEq] at hvalue
    exact ⟨hlt, hvalue⟩
  refine ⟨hle, fun a => ?_, fun a j hj => ?_⟩
  · have hmax := hle a
    cases hfind : thresholds.findIdx? fun threshold => value a < threshold with
    | none => exact hvalue a
    | some i =>
      obtain ⟨hi, hx, -⟩ := findIdx?_eq_some_iff_getElem.mp hfind
      rw [hfind, getD_some] at hmax
      rcases Nat.lt_or_eq_of_le hmax with hlt | rfl
      · have hvalue := (hget i hlt).2
        exact hvalue ▸ UInt64.lt_iff_toNat_lt.mp (of_decide_eq_true hx)
      · exact hvalue a
  · obtain ⟨hlt, heq⟩ := hget j (Nat.lt_of_lt_of_le hj (hle a))
    have hnot : ¬ value a < thresholds[j] := by
      cases hfind : thresholds.findIdx? fun threshold => value a < threshold with
      | none =>
        exact of_decide_eq_false (findIdx?_eq_none_iff.mp hfind thresholds[j] (getElem_mem hlt))
      | some =>
        rw [hfind, getD_some] at hj
        obtain ⟨_, _, hbefore⟩ := findIdx?_eq_some_iff_getElem.mp hfind
        simpa using hbefore j hj
    rw [UInt64.lt_iff_toNat_lt, heq] at hnot
    exact Nat.le_of_not_lt hnot

/-- The bytes that the loop of `serialize` writes. -/
theorem map_range'_eq_toBe (byte : Nat → UInt8) {value w}
    (hbyte : ∀ k < w, byte k = UInt8.ofNat (value / 256 ^ k)) :
    ((List.range' 1 w).map fun i => byte (w + 1 - 1 - i)) = toBe w value := by
  induction w with
  | zero => rfl
  | succ w ih =>
    rw [List.range'_succ, List.map_cons, toBe_succ, ← ih fun k hk => hbyte k (Nat.lt_succ_of_lt hk),
      ← List.map_add_range', List.map_map, ← hbyte w (Nat.lt_succ_self w)]
    -- The loop over the other positions is the loop for one byte less.
    refine congrArg (_ :: ·) (List.map_congr_left fun i _ => congrArg byte ?_)
    show w + 1 + 1 - 1 - (1 + i) = w + 1 - 1 - i
    omega

theorem toNat_shiftRight_byte {bits shift} (hshift : shift.toNat = bits)
    (hbits : bits < 8) (byte : UInt8) : (byte >>> shift).toNat = byte.toNat / 2 ^ bits := by
  rw [UInt8.toNat_shiftRight, hshift, Nat.mod_eq_of_lt hbits, Nat.shiftRight_eq_div_pow]

/-- The first byte: the length code above `bits` bits of data. -/
theorem firstByte_eq (bits : Nat) (shift mask : UInt8) {code digit} (hshift : shift.toNat = bits)
    (hmask : mask.toNat = 2 ^ bits - 1) (hbits : bits < 8) (hcode : 2 ^ bits * (code + 1) ≤ 256)
    (hdigit : digit < 2 ^ bits) :
    (UInt8.ofNat (2 ^ bits * code + digit) >>> shift).toNat = code ∧
      (UInt8.ofNat (2 ^ bits * code + digit) &&& mask).toNat = digit ∧
      ∀ data : UInt8, data.toNat = digit →
        (UInt8.ofNat code <<< shift) ||| data = UInt8.ofNat (2 ^ bits * code + digit) := by
  have hpos : 0 < 2 ^ bits := Nat.two_pow_pos bits
  rw [Nat.mul_add, Nat.mul_one] at hcode
  have hbyte : (UInt8.ofNat (2 ^ bits * code + digit)).toNat = 2 ^ bits * code + digit := by
    rw [UInt8.toNat_ofNat', Nat.mod_eq_of_lt (by omega)]
  refine ⟨?_, ?_, fun data hdata => UInt8.toNat_inj.mp ?_⟩
  · rw [toNat_shiftRight_byte hshift hbits, hbyte, Nat.mul_add_div hpos, Nat.div_eq_of_lt hdigit,
      Nat.add_zero]
  · rw [UInt8.toNat_and, hmask, Nat.and_two_pow_sub_one_eq_mod, hbyte, Nat.mul_add_mod_self_left,
      Nat.mod_eq_of_lt hdigit]
  · have hle : code ≤ 2 ^ bits * code := Nat.le_mul_of_pos_left code hpos
    rw [UInt8.toNat_or, UInt8.toNat_shiftLeft, hshift, Nat.mod_eq_of_lt hbits, UInt8.toNat_ofNat',
      Nat.mod_eq_of_lt (by omega : code < 2 ^ 8), Nat.shiftLeft_eq, Nat.mul_comm code,
      Nat.mod_eq_of_lt (by omega : 2 ^ bits * code < 2 ^ 8), hdata,
      ← Nat.two_pow_add_eq_or_of_lt hdigit, hbyte]

theorem toNat_shiftRight_bytes (value : UInt64) {k} (hk : k < 8) :
    (value >>> UInt64.ofNat (8 * k)).toNat = value.toNat / 256 ^ k := by
  have hshift : (UInt64.ofNat (8 * k)).toNat % 64 = 8 * k := by
    rw [UInt64.toNat_ofNat']
    omega
  have hpow : (2 : Nat) ^ (8 * k) = 256 ^ k := by rw [Nat.pow_mul]
  rw [UInt64.toNat_shiftRight, hshift, Nat.shiftRight_eq_div_pow, hpow]

theorem toNat_foldl_bytes (bs : Bytes) (acc : UInt64) :
    (bs.foldl (fun (value : UInt64) byte => (value <<< 8) ||| byte.toUInt64) acc).toNat
      = (acc.toNat * 256 ^ bs.length + ofBe bs) % 2 ^ 64 := by
  induction bs generalizing acc with
  | nil =>
    have hlt := acc.toNat_lt
    simp only [foldl_nil, length_nil, ofBe, reverse_nil, ofLe]
    omega
  | cons b bs ih =>
    have hstep : ((acc <<< 8) ||| b.toUInt64).toNat = (acc.toNat * 256 + b.toNat) % 2 ^ 64 :=
      toNat_shiftLeft_or rfl (by decide : 8 < 64) b.toNat_lt
    rw [foldl_cons, ih, hstep, ofBe_cons, length_cons, Nat.add_mod, Nat.mod_mul_mod,
      ← Nat.add_mod, Nat.pow_succ]
    congr 1
    ring

theorem toNat_foldl_toBe {value code} (hvalue : value < 2 ^ 64) {acc}
    (hacc : acc.toNat = value / 256 ^ code) :
    ((toBe code value).foldl (fun (value : UInt64) byte => (value <<< 8) ||| byte.toUInt64)
      acc).toNat
      = value := by
  have hrest : ofBe (toBe code value) = value % 256 ^ code := by
    rw [← toBe_mod, ofBe_toBe_of_lt (Nat.mod_lt _ (Nat.pow_pos (by decide)))]
  rw [toNat_foldl_bytes, hacc, length_toBe, hrest, Nat.mul_comm, Nat.div_add_mod,
    Nat.mod_eq_of_lt hvalue]

end

namespace VarU32

theorem isLengthCode : IsLengthCode (2 ^ 5) 4 UInt32.toNat lengthCode := by
  refine isLengthCode_thresholds rfl (by decide) UInt32.toUInt64 fun a => ?_
  have hlt := a.toNat_lt
  rw [UInt32.toNat_toUInt64]
  omega

theorem digit_lt (x : UInt32) : x.toNat / 256 ^ lengthCode x < 2 ^ 5 :=
  Nat.div_lt_of_lt_mul (by rw [Nat.mul_comm]; exact isLengthCode.room x)

theorem serialize_eq (x : UInt32) : serialize x = lengthCoded (2 ^ 5) (lengthCode x) x.toNat := by
  have hle : lengthCode x ≤ 4 := isLengthCode.le_max x
  have hdigit := digit_lt x
  obtain ⟨-, -, hfirst⟩ := firstByte_eq 5 5 0x1F rfl rfl (by decide)
    (by omega : 2 ^ 5 * (lengthCode x + 1) ≤ 256) hdigit
  rw [lengthCoded_eq_cons]
  refine congrArg₂ List.cons (hfirst _ ?_) (map_range'_eq_toBe
    (fun k => ((x >>> UInt32.ofNat (8 * k)) &&& 0xFF).toUInt8) fun k hk => ?_)
  · have hmask : (0x1F : UInt8).toNat = 2 ^ 5 - 1 := rfl
    rw [Nat.add_sub_cancel, UInt8.toNat_and, hmask, Nat.and_two_pow_sub_one_eq_mod,
      UInt64.toNat_toUInt8, toNat_shiftRight_bytes _ (by omega), UInt32.toNat_toUInt64]
    generalize x.toNat / 256 ^ lengthCode x = digit at hdigit ⊢
    omega
  · have hshift : (UInt32.ofNat (8 * k)).toNat % 32 = 8 * k := by
      rw [UInt32.toNat_ofNat']
      omega
    have hpow : (2 : Nat) ^ (8 * k) = 256 ^ k := by rw [Nat.pow_mul]
    have hmask : (0xFF : UInt32).toNat = 2 ^ 8 - 1 := rfl
    apply UInt8.toNat_inj.mp
    rw [UInt32.toNat_toUInt8, UInt32.toNat_and, hmask, Nat.and_two_pow_sub_one_eq_mod,
      UInt32.toNat_shiftRight, hshift, Nat.shiftRight_eq_div_pow, hpow, UInt8.toNat_ofNat',
      Nat.mod_mod]

theorem orderedCode : OrderedCode serialize := by
  rw [show serialize = fun x => lengthCoded (2 ^ 5) (lengthCode x) x.toNat from funext serialize_eq]
  exact isLengthCode.orderedCode (by decide) fun _ _ => UInt32.lt_iff_toNat_lt.mp

theorem deserialize_serialize (x : UInt32) (rest : Bytes) :
    deserialize (serialize x ++ rest) = .ok (x, rest) := by
  have hle : lengthCode x ≤ 4 := isLengthCode.le_max x
  have hx := x.toNat_lt
  obtain ⟨hlen, hbits, -⟩ := firstByte_eq 5 5 0x1F rfl rfl (by decide)
    (by omega : 2 ^ 5 * (lengthCode x + 1) ≤ 256) (digit_lt x)
  have hvalue := toNat_foldl_toBe (by omega : x.toNat < 2 ^ 64)
    ((UInt8.toNat_toUInt64 _).trans hbits)
  rw [serialize_eq, lengthCoded_eq_cons, cons_append]
  simp only [deserialize, hlen, maxLenCode, if_neg (Nat.not_lt.mpr hle), length_append, length_toBe,
    take_left' (length_toBe _ _), drop_left' (length_toBe _ _)]
  rw [if_neg (by omega), if_neg, Except.ok.injEq, Prod.mk.injEq]
  · exact ⟨UInt32.toNat_inj.mp (by rw [UInt64.toNat_toUInt32, hvalue, Nat.mod_eq_of_lt hx]), rfl⟩
  · rw [UInt64.lt_iff_toNat_lt, hvalue, Nat.not_lt]
    exact Nat.le_of_lt_succ hx

end VarU32

namespace VarU64

theorem isLengthCode : IsLengthCode (2 ^ 4) 8 UInt64.toNat lengthCode := by
  refine isLengthCode_thresholds rfl (by decide) id fun a => ?_
  have hlt := a.toNat_lt
  rw [id]
  omega

theorem digit_lt (x : UInt64) : x.toNat / 256 ^ lengthCode x < 2 ^ 4 :=
  Nat.div_lt_of_lt_mul (by rw [Nat.mul_comm]; exact isLengthCode.room x)

theorem serialize_eq (x : UInt64) : serialize x = lengthCoded (2 ^ 4) (lengthCode x) x.toNat := by
  have hle : lengthCode x ≤ 8 := isLengthCode.le_max x
  have hdigit := digit_lt x
  obtain ⟨-, -, hfirst⟩ := firstByte_eq 4 4 0x0F rfl rfl (by decide)
    (by omega : 2 ^ 4 * (lengthCode x + 1) ≤ 256) hdigit
  rw [lengthCoded_eq_cons]
  refine congrArg₂ List.cons (hfirst _ ?_) (map_range'_eq_toBe
    (fun k => ((x >>> UInt64.ofNat (8 * k)) &&& 0xFF).toUInt8) fun k hk => ?_)
  · have hmask : (0x0F : UInt8).toNat = 2 ^ 4 - 1 := rfl
    split
    · -- Eight bytes hold every value, so that the first one has no data bits.
      have heq : lengthCode x = 8 := by omega
      rw [heq, Nat.div_eq_of_lt (show x.toNat < 256 ^ 8 from x.toNat_lt)]
      rfl
    · rw [Nat.add_sub_cancel, UInt8.toNat_and, hmask, Nat.and_two_pow_sub_one_eq_mod,
        UInt64.toNat_toUInt8, toNat_shiftRight_bytes _ (by omega)]
      generalize x.toNat / 256 ^ lengthCode x = digit at hdigit ⊢
      omega
  · have hmask : (0xFF : UInt64).toNat = 2 ^ 8 - 1 := rfl
    apply UInt8.toNat_inj.mp
    rw [UInt64.toNat_toUInt8, UInt64.toNat_and, hmask, Nat.and_two_pow_sub_one_eq_mod,
      toNat_shiftRight_bytes x (by omega), UInt8.toNat_ofNat', Nat.mod_mod]

theorem orderedCode : OrderedCode serialize := by
  rw [show serialize = fun x => lengthCoded (2 ^ 4) (lengthCode x) x.toNat from funext serialize_eq]
  exact isLengthCode.orderedCode (by decide) fun _ _ => UInt64.lt_iff_toNat_lt.mp

theorem deserialize_serialize (x : UInt64) (rest : Bytes) :
    deserialize (serialize x ++ rest) = .ok (x, rest) := by
  have hle : lengthCode x ≤ 8 := isLengthCode.le_max x
  obtain ⟨hlen, hbits, -⟩ := firstByte_eq 4 4 0x0F rfl rfl (by decide)
    (by omega : 2 ^ 4 * (lengthCode x + 1) ≤ 256) (digit_lt x)
  have hvalue := toNat_foldl_toBe x.toNat_lt ((UInt8.toNat_toUInt64 _).trans hbits)
  rw [serialize_eq, lengthCoded_eq_cons, cons_append]
  simp only [deserialize, hlen, maxLenCode, if_neg (Nat.not_lt.mpr hle), length_append, length_toBe,
    take_left' (length_toBe _ _), drop_left' (length_toBe _ _)]
  rw [if_neg (by omega), UInt64.toNat_inj.mp hvalue]

end VarU64

/-- A longer encoding has a larger length code in front, and so the bytes sort like the numbers. -/
theorem var_int_encodings : OrderedCodec VarU32.serialize VarU32.deserialize ∧
    OrderedCodec VarU64.serialize VarU64.deserialize :=
  ⟨VarU32.orderedCode.codec VarU32.deserialize_serialize,
    VarU64.orderedCode.codec VarU64.deserialize_serialize⟩

/-- The data bits of the first byte followed by the bytes that its length code announces. -/
def dataNumber (bits : Nat) : Bytes → Nat
  | [] => 0
  | first :: rest => first.toNat % 2 ^ bits * 256 ^ (first.toNat / 2 ^ bits)
      + ofBe (rest.take (first.toNat / 2 ^ bits))

theorem dataNumber_lt (bits : Nat) (first : UInt8) (rest : Bytes) :
    dataNumber bits (first :: rest) < 2 ^ bits * 256 ^ (first.toNat / 2 ^ bits) := by
  have hdigit : first.toNat % 2 ^ bits + 1 ≤ 2 ^ bits := Nat.mod_lt _ (Nat.two_pow_pos bits)
  have hrest : ofBe (rest.take (first.toNat / 2 ^ bits)) < 256 ^ (first.toNat / 2 ^ bits) := by
    refine (ofLe_lt _).trans_le (Nat.pow_le_pow_right (by decide) ?_)
    rw [length_reverse]
    exact length_take_le _ _
  calc dataNumber bits (first :: rest)
    _ < (first.toNat % 2 ^ bits + 1) * 256 ^ (first.toNat / 2 ^ bits) := by
      rw [Nat.succ_mul]
      exact Nat.add_lt_add_left hrest _
    _ ≤ 2 ^ bits * 256 ^ (first.toNat / 2 ^ bits) := Nat.mul_le_mul_right _ hdigit

/-- The loop of `deserialize` keeps the low 64 bits of the number. -/
theorem toNat_foldl_take (bits : Nat) {shift mask : UInt8} (hshift : shift.toNat = bits)
    (hmask : mask.toNat = 2 ^ bits - 1) (hbits : bits < 8) {first : UInt8} {rest : Bytes}
    (hle : (first >>> shift).toNat ≤ rest.length) :
    ((rest.take (first >>> shift).toNat).foldl (fun (value : UInt64) byte =>
        (value <<< 8) ||| byte.toUInt64) (first &&& mask).toUInt64).toNat
      = dataNumber bits (first :: rest) % 2 ^ 64 := by
  rw [toNat_foldl_bytes, length_take_of_le hle, UInt8.toNat_toUInt64, UInt8.toNat_and, hmask,
    Nat.and_two_pow_sub_one_eq_mod, toNat_shiftRight_byte hshift hbits, dataNumber]

theorem VarU32.deserialize_data {data rest v}
    (h : VarU32.deserialize data = .ok (v, rest)) : v.toNat = dataNumber 5 data := by
  cases data with
  | nil => cases h
  | cons first tail =>
    simp only [VarU32.deserialize] at h
    split at h
    · cases h
    · rename_i hcode
      split at h
      · cases h
      · have hvalue := @toNat_foldl_take 5 5 0x1F rfl rfl (by decide) first tail (by omega)
        split at h
        · cases h
        · rename_i hmax
          cases h
          -- At most 37 data bits, so nothing was shifted out.
          have hpow : 256 ^ (first.toNat / 2 ^ 5) ≤ 256 ^ 4 := by
            refine Nat.pow_le_pow_right (by decide) (Nat.le_of_not_lt ?_)
            rwa [← @toNat_shiftRight_byte 5 5 rfl (by decide) first]
          have hlt := dataNumber_lt 5 first tail
          rw [Nat.mod_eq_of_lt (by omega)] at hvalue
          rw [UInt64.lt_iff_toNat_lt, hvalue] at hmax
          rw [UInt64.toNat_toUInt32, hvalue]
          exact Nat.mod_eq_of_lt (Nat.lt_succ_of_le (Nat.le_of_not_lt hmax))

theorem VarU64.deserialize_data {data rest v}
    (h : VarU64.deserialize data = .ok (v, rest)) : v.toNat = dataNumber 4 data % 2 ^ 64 := by
  cases data with
  | nil => cases h
  | cons first tail =>
    simp only [VarU64.deserialize] at h
    split at h
    · cases h
    · split at h
      · cases h
      · cases h
        exact toNat_foldl_take 4 rfl rfl (by decide) (by omega)

/-- What the decoders accept is the number that the bytes denote. `VarU32` rejects a number that
does not fit; the result of `VarU64` is right for numbers that fit, and for no others. -/
theorem var_int_decoded (data : Bytes) :
    (∀ v rest, VarU32.deserialize data = .ok (v, rest) → v.toNat = dataNumber 5 data) ∧
    (2 ^ 32 ≤ dataNumber 5 data → ∃ e, VarU32.deserialize data = .error e) ∧
    ∀ v rest, VarU64.deserialize data = .ok (v, rest) →
      (v.toNat = dataNumber 4 data ↔ dataNumber 4 data < 2 ^ 64) := by
  refine ⟨fun _ _ => VarU32.deserialize_data, fun hlarge => ?_, fun v rest h => ?_⟩
  · cases h : VarU32.deserialize data with
    | error e => exact ⟨e, rfl⟩
    | ok p =>
      have hlt := p.1.toNat_lt
      rw [VarU32.deserialize_data h] at hlt
      exact absurd hlarge (Nat.not_le.mpr hlt)
  · rw [VarU64.deserialize_data h]
    exact Nat.mod_eq_iff_lt (by decide)

/-- Nine bytes have 68 data bits, and the upper four are shifted out. -/
theorem var_u64_truncates : dataNumber 4 [0x81, 0, 0, 0, 0, 0, 0, 0, 0] = 2 ^ 64 ∧
    VarU64.deserialize [0x81, 0, 0, 0, 0, 0, 0, 0, 0] = .ok (0, []) := by
  decide +kernel

/-! ### Strings -/

theorem exists_toLe_two {n} (h : n < 2 ^ 16) :
    ∃ b0 b1, toLe 2 n = [b0, b1] ∧ ofLe [b0, b1] = n := by
  obtain ⟨b0, b1, hbytes⟩ := length_eq_two.mp (length_toLe 2 n)
  exact ⟨b0, b1, hbytes, by rw [← hbytes, ofLe_toLe_of_lt h]⟩

def FitsUtf8 (s : String) : Prop := (asBytes s).length < 2 ^ 16

instance (s : String) : Decidable (FitsUtf8 s) := inferInstanceAs (Decidable (_ < _))

variable {s : String}

theorem encodeUtf8_of_fits (h : FitsUtf8 s) :
    encodeUtf8 s = .ok (toLe 2 (asBytes s).length ++ asBytes s) :=
  if_neg (Nat.not_lt.mpr (Nat.le_sub_one_of_lt h))

theorem encodeUtf8_of_not_fits (h : ¬ FitsUtf8 s) : encodeUtf8 s = .error .panic :=
  if_pos (Nat.lt_of_lt_of_le (by decide) (Nat.not_lt.mp h))

theorem fits_of_encodeUtf8 {bytes} (h : encodeUtf8 s = .ok bytes) :
    FitsUtf8 s ∧ bytes = toLe 2 (asBytes s).length ++ asBytes s := by
  by_cases hfits : FitsUtf8 s
  · rw [encodeUtf8_of_fits hfits] at h
    exact ⟨hfits, (Except.ok.inj h).symm⟩
  · rw [encodeUtf8_of_not_fits hfits] at h
    cases h

theorem decodeUtf8_append (h : FitsUtf8 s) (rest : Bytes) :
    decodeUtf8 (toLe 2 (asBytes s).length ++ asBytes s ++ rest) = .ok (s, rest) := by
  obtain ⟨b0, b1, hbytes, hlen⟩ := exists_toLe_two h
  have hshort : ¬ (asBytes s ++ rest).length < (asBytes s).length := by
    rw [length_append]
    omega
  rw [hbytes, append_assoc]
  show decodeUtf8 (b0 :: b1 :: (asBytes s ++ rest)) = _
  simp only [decodeUtf8, hlen, hshort, if_false, take_left, drop_left, fromUtf8_asBytes]

theorem decodeOptionalUtf8_append {s bytes} (h : encodeOptionalUtf8 s = .ok bytes) (rest : Bytes) :
    decodeOptionalUtf8 (bytes ++ rest) = .ok (s.filter (· ≠ ""), rest) := by
  cases s with
  | none =>
    obtain rfl : toLe 2 0 = bytes := Except.ok.inj h
    rfl
  | some s =>
    obtain ⟨hfits, rfl⟩ := fits_of_encodeUtf8 h
    obtain ⟨b0, b1, hbytes, hlen⟩ := exists_toLe_two hfits
    have hread := decodeUtf8_append hfits rest
    rw [hbytes] at hread ⊢
    change decodeUtf8 (b0 :: b1 :: (asBytes s ++ rest)) = _ at hread
    show decodeOptionalUtf8 (b0 :: b1 :: (asBytes s ++ rest)) = _
    by_cases hempty : s = ""
    · subst hempty
      rw [decodeOptionalUtf8, if_pos (hlen.trans (by decide))]
      rfl
    · have hpos : (asBytes s).length ≠ 0 := by
        intro hzero
        exact hempty (asBytes_inj (eq_nil_of_length_eq_zero hzero))
      have hkeep : (some s).filter (· ≠ "") = some s := by simp [Option.filter, hempty]
      rw [decodeOptionalUtf8, if_neg (hlen ▸ hpos), hread, hkeep]
      rfl

end OpenData.Common

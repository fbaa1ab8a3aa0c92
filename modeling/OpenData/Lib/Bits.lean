import Mathlib.Tactic.IntervalCases
import Mathlib.Tactic.Ring
import OpenData.Lib.Bytes

/-!
# Byte strings as lists of bits

The bits of a byte string are read from the most significant one of each byte on. `takeBits` reads a
number at a position, and reading twice is reading once (`takeBits_add`).
-/

namespace OpenData.Lib

open List

/-- The bits of a byte, the most significant one first. -/
def byteBits (byte : UInt8) : List Bool := [7, 6, 5, 4, 3, 2, 1, 0].map byte.toBitVec.getLsbD

def bitsOf (bytes : Bytes) : List Bool := bytes.flatMap byteBits

/-- The number of a list of bits, the most significant one first. -/
def ofBits : List Bool → Nat
  | [] => 0
  | bit :: bits => bit.toNat * 2 ^ bits.length + ofBits bits

/-- The number of the `n` bits at a position, and the position after them. -/
def takeBits (bits : List Bool) (n position : Nat) : Option (Nat × Nat) :=
  if (bits.drop position).length < n then none
  else some (ofBits ((bits.drop position).take n), position + n)

theorem ofBits_append (xs ys : List Bool) :
    ofBits (xs ++ ys) = ofBits xs * 2 ^ ys.length + ofBits ys := by
  induction xs with
  | nil => simp [ofBits]
  | cons x xs ih =>
    rw [cons_append, ofBits, ofBits, ih, length_append, Nat.pow_add]
    ring

theorem ofBits_lt (bits : List Bool) : ofBits bits < 2 ^ bits.length := by
  induction bits with
  | nil => decide
  | cons bit bits ih =>
    rw [ofBits, length_cons, Nat.pow_succ]
    cases bit <;> simp <;> omega

variable {bits : List Bool} {n p : Nat}

theorem takeBits_eq_some {xs rest} (h : bits.drop p = xs ++ rest)
    (hlen : xs.length = n) : takeBits bits n p = some (ofBits xs, p + n) := by
  rw [takeBits, h, if_neg (by rw [length_append]; omega), take_left' hlen]

theorem takeBits_add (m n : Nat) : takeBits bits (m + n) p = (takeBits bits m p).bind fun read =>
      (takeBits bits n read.2).map (Prod.map (fun v => read.1 * 2 ^ n + v) id) := by
  simp only [takeBits, length_drop]
  by_cases hm : bits.length - p < m
  · rw [if_pos hm, if_pos (by omega)]
    rfl
  · rw [if_neg hm, Option.bind_some]
    by_cases hn : bits.length - (p + m) < n
    · rw [if_pos hn, if_pos (by omega)]
      rfl
    · have hlen : (take n (drop (p + m) bits)).length = n := by rw [length_take, length_drop]; omega
      rw [if_neg hn, if_neg (by omega), take_add, ofBits_append, drop_drop, hlen, ← Nat.add_assoc]
      rfl

theorem lt_of_takeBits {read} (h : takeBits bits n p = some read) : read.1 < 2 ^ n := by
  rw [takeBits] at h
  split at h
  · cases h
  · cases h
    refine (ofBits_lt _).trans_le (Nat.pow_le_pow_right (by decide) ?_)
    exact length_take_le _ _

theorem ofBits_byteBits (byte : UInt8) : ofBits (byteBits byte) = byte.toNat := by
  obtain ⟨bits⟩ := byte
  revert bits
  decide +kernel

theorem drop_byteBits (byte : UInt8) {k} (hk : k < 8) : (byteBits byte).drop k =
    decide (byte &&& (1 <<< UInt8.ofNat (7 - k)) ≠ 0) :: (byteBits byte).drop (k + 1) := by
  obtain ⟨bits⟩ := byte
  revert bits k
  decide +kernel

theorem byteBits_joined (b b' : UInt8) {k : Nat} (hpos : 0 < k) (hlt : k < 8) :
    byteBits ((b <<< UInt8.ofNat k) ||| (b' >>> UInt8.ofNat (8 - k))) =
      (byteBits b).drop k ++ (byteBits b').take k := by
  interval_cases k <;> simp [byteBits]

variable {bytes : Bytes} {k : Nat}

theorem bitsOf_drop {byte} (h : bytes[k]? = some byte) :
    bitsOf (bytes.drop k) = byteBits byte ++ bitsOf (bytes.drop (k + 1)) := by
  obtain ⟨hk, rfl⟩ := List.getElem?_eq_some_iff.mp h
  rw [drop_eq_getElem_cons hk]
  rfl

theorem bitsOf_drop_of_none (h : bytes[k]? = none) : bitsOf (bytes.drop k) = [] := by
  rw [drop_eq_nil_of_le (List.getElem?_eq_none_iff.mp h)]
  rfl

theorem drop_bitsOf (bytes : Bytes) (k : Nat) :
    (bitsOf bytes).drop (8 * k) = bitsOf (bytes.drop k) := by
  induction k generalizing bytes with
  | zero => rfl
  | succ k ih =>
    cases bytes with
    | nil => rfl
    | cons byte bytes => exact ih bytes

theorem toNat_shiftLeft_or {acc b s : UInt64} {w} (hs : s.toNat = w) (hw : w < 64)
    (hb : b.toNat < 2 ^ w) :
    ((acc <<< s) ||| b).toNat = (acc.toNat * 2 ^ w + b.toNat) % 2 ^ 64 := by
  have hpow : 2 ^ 64 = 2 ^ w * 2 ^ (64 - w) := by rw [← Nat.pow_add, Nat.add_sub_cancel' hw.le]
  have hshift : acc.toNat * 2 ^ w % 2 ^ 64 = 2 ^ w * (acc.toNat % 2 ^ (64 - w)) := by
    rw [hpow, Nat.mul_comm, Nat.mul_mod_mul_left]
  rw [UInt64.toNat_or, UInt64.toNat_shiftLeft, hs, Nat.mod_eq_of_lt hw, Nat.shiftLeft_eq, hshift,
    ← Nat.two_pow_add_eq_or_of_lt hb, hpow, Nat.mod_mul, Nat.mul_add_mod_self_right,
    Nat.mod_eq_of_lt hb, Nat.add_comm, Nat.mul_comm acc.toNat, Nat.mul_add_div (Nat.two_pow_pos w),
    Nat.div_eq_of_lt hb, Nat.add_zero]

end OpenData.Lib

import OpenData.Lib.Bits
import OpenData.Timeseries.Serde

/-!
# The reader of compressed samples reads bits

The two parts of the position of a `BytesReader` are a position in the bits of its bytes. Each call
is the call of the same width on these bits, so any calls are (`bytes_reader_refines`).
-/

namespace OpenData.Timeseries.BytesReader

open Lib List

variable {bytes : Bytes}

def position (r : BytesReader bytes) : Nat := 8 * r.bytePos + r.bitPos

variable {r : BytesReader bytes} {α : Type}

theorem drop_position (r : BytesReader bytes) :
    (bitsOf bytes).drop r.position = (bitsOf (bytes.drop r.bytePos)).drop r.bitPos := by
  rw [position, ← drop_drop, drop_bitsOf]

theorem drop_position_of_some {byte} (h : bytes[r.bytePos]? = some byte) :
    (bitsOf bytes).drop r.position =
      (byteBits byte).drop r.bitPos ++ bitsOf (bytes.drop (r.bytePos + 1)) := by
  rw [drop_position, bitsOf_drop h, drop_append_of_le_length (Nat.le_of_lt_succ r.bitPos.isLt)]

theorem drop_position_of_none (h : bytes[r.bytePos]? = none) :
    (bitsOf bytes).drop r.position = [] := by
  rw [drop_position, bitsOf_drop_of_none h, drop_nil]

theorem readBit_spec (r : BytesReader bytes) :
    (readBit r).map (Prod.map (fun bit => bit.toUInt64.toNat) position) =
      takeBits (bitsOf bytes) 1 r.position := by
  obtain ⟨s, hs, hpos, hlt⟩ : ∃ s : BytesReader bytes,
      (if r.bitPos = 8 then { bytePos := r.bytePos + 1, bitPos := 0 } else r) = s ∧
        r.position = s.position ∧ s.bitPos.val < 8 := by
    refine ⟨_, rfl, ?_⟩
    split
    · rename_i height
      rw [position, height]
      exact ⟨rfl, Nat.zero_lt_succ 7⟩
    · exact ⟨rfl, by omega⟩
  rw [readBit, hs, hpos]
  cases hbyte : bytes[s.bytePos]? with
  | none =>
    rw [takeBits, drop_position_of_none hbyte]
    rfl
  | some byte =>
    have hbits := drop_position_of_some hbyte
    have hnext : (s.bitPos + 1).val = s.bitPos.val + 1 := by omega
    have hbit : ∀ bit : Bool, ofBits [bit] = bit.toUInt64.toNat := by decide
    rw [drop_byteBits byte hlt, cons_append, ← singleton_append] at hbits
    rw [takeBits_eq_some (n := 1) hbits rfl, hbit, position, Nat.add_assoc, ← hnext]
    rfl

/-- A whole byte, at either spelling of its start. -/
theorem readByte_aligned (k : Nat) :
    (bytes[k]?.map fun byte => (byte, (⟨k, 8⟩ : BytesReader bytes))).map
      (Prod.map UInt8.toNat position) = takeBits (bitsOf bytes) 8 (8 * k) := by
  have hbits := drop_bitsOf bytes k
  cases hbyte : bytes[k]? with
  | none =>
    rw [bitsOf_drop_of_none hbyte] at hbits
    rw [takeBits, hbits]
    rfl
  | some byte =>
    rw [bitsOf_drop hbyte] at hbits
    rw [takeBits_eq_some (n := 8) hbits rfl, ofBits_byteBits]
    rfl

theorem readByte_spec (r : BytesReader bytes) :
    (readByte r).map (Prod.map UInt8.toNat position) = takeBits (bitsOf bytes) 8 r.position := by
  rw [readByte]
  split
  · rename_i hzero
    rw [position, hzero]
    exact readByte_aligned r.bytePos
  · split
    · rename_i height
      rw [position, height]
      exact readByte_aligned (r.bytePos + 1)
    · rename_i hzero height
      cases hb : bytes[r.bytePos]? with
      | none =>
        rw [takeBits, drop_position_of_none hb]
        rfl
      | some b =>
        have hbits := drop_position_of_some hb
        cases hb' : bytes[r.bytePos + 1]? with
        | none =>
          rw [bitsOf_drop_of_none hb', append_nil] at hbits
          rw [takeBits, hbits, if_pos]
          · rfl
          · rw [length_drop]
            exact Nat.sub_lt (Nat.zero_lt_succ 7) (by omega)
        | some b' =>
          rw [bitsOf_drop hb', ← take_append_drop r.bitPos (byteBits b'), append_assoc,
            ← append_assoc, ← byteBits_joined b b' (by omega) (by omega)] at hbits
          rw [takeBits_eq_some (n := 8) hbits rfl, ofBits_byteBits, position, Nat.add_right_comm]
          rfl

/-- What the loop returns: the bits in the accumulator and the next ones. -/
def LoopSpec (bytes : Bytes) (num : Nat) : Prop := ∀ (acc : UInt64) (r : BytesReader bytes),
  (readBitsLoop num acc r).map (Prod.map UInt64.toNat position) =
    (takeBits (bitsOf bytes) num r.position).map
      (Prod.map (fun v => (acc.toNat * 2 ^ num + v) % 2 ^ 64) id)

/-- A read in front of the rest of the loop. -/
theorem LoopSpec.step {w num} (ih : LoopSpec bytes num) (s : UInt64) (word : α → UInt64)
    (hs : s.toNat = w) (hw : w < 64) (hword : ∀ v, (word v).toNat < 2 ^ w) {read : Read bytes α}
    (hread : (read r).map (Prod.map (fun v => (word v).toNat) position) =
      takeBits (bitsOf bytes) w r.position) (acc : UInt64) :
    ((read r).bind fun p => readBitsLoop num ((acc <<< s) ||| word p.1) p.2).map
        (Prod.map UInt64.toNat position) = (takeBits (bitsOf bytes) (w + num) r.position).map
      (Prod.map (fun v => (acc.toNat * 2 ^ (w + num) + v) % 2 ^ 64) id) := by
  rw [takeBits_add, ← hread]
  cases read r with
  | none => rfl
  | some p =>
    show (readBitsLoop num _ p.2).map _ = Option.map _ (Option.map _ (takeBits _ num p.2.position))
    rw [ih, Option.map_map]
    congr 1
    funext q
    refine Prod.ext ?_ rfl
    show (((acc <<< s) ||| word p.1).toNat * 2 ^ num + q.1) % 2 ^ 64 =
      (acc.toNat * 2 ^ (w + num) + ((word p.1).toNat * 2 ^ num + q.1)) % 2 ^ 64
    rw [toNat_shiftLeft_or hs hw (hword p.1), Nat.add_mod, Nat.mod_mul_mod, ← Nat.add_mod,
      Nat.pow_add]
    congr 1
    ring

theorem loopSpec (num : Nat) : LoopSpec bytes num := by
  induction num using Nat.strongRecOn with
  | ind num ih =>
    intro acc r
    rw [readBitsLoop]
    split
    · have hstep := (ih (num - 8) (by omega)).step (w := 8) 8 UInt8.toUInt64 rfl (by decide)
        UInt8.toNat_lt (readByte_spec r) acc
      rwa [Nat.add_sub_cancel' ‹_›] at hstep
    · split
      · have hstep := (ih (num - 1) (by omega)).step (w := 1) 1 Bool.toUInt64 rfl (by decide)
          (by decide) (readBit_spec r) acc
        rwa [Nat.add_sub_cancel' ‹_›] at hstep
      · obtain rfl : num = 0 := by omega
        show some (acc.toNat, r.position) = some ((acc.toNat * 2 ^ 0 + 0) % 2 ^ 64, r.position)
        rw [Nat.pow_zero, Nat.mul_one, Nat.add_zero, Nat.mod_eq_of_lt acc.toNat_lt]

theorem readBits_spec (num : Nat) (r : BytesReader bytes) :
    (readBits num r).map (Prod.map UInt64.toNat position) =
      takeBits (bitsOf bytes) (min num 64) r.position := by
  have hnum : (if 64 < num then 64 else num) = min num 64 := by split <;> omega
  rw [readBits, hnum, loopSpec]
  cases h : takeBits (bitsOf bytes) (min num 64) r.position with
  | none => rfl
  | some read =>
    have hlt : read.1 < 2 ^ 64 :=
      (lt_of_takeBits h).trans_le (Nat.pow_le_pow_right (by decide) (Nat.min_le_right _ _))
    show some ((0 * 2 ^ min num 64 + read.1) % 2 ^ 64, read.2) = some read
    rw [Nat.zero_mul, Nat.zero_add, Nat.mod_eq_of_lt hlt]

/-- The calls of a reader of bits. -/
inductive Call
  | readBit
  | readByte
  | readBits (num : Nat)
  | peakBits (num : Nat)

/-- A call with its result as a number. -/
def call : Call → Read bytes Nat
  | .readBit, r => (readBit r).map (Prod.map (fun bit => bit.toUInt64.toNat) id)
  | .readByte, r => (readByte r).map (Prod.map UInt8.toNat id)
  | .readBits num, r => (readBits num r).map (Prod.map UInt64.toNat id)
  | .peakBits num, r => (peakBits num r).map (Prod.map UInt64.toNat id)

/-- A reader of a list of bits, with the position as its state. -/
def bitCall (bits : List Bool) : Call → StateT Nat Option Nat
  | .readBit, p => takeBits bits 1 p
  | .readByte, p => takeBits bits 8 p
  | .readBits num, p => takeBits bits (min num 64) p
  | .peakBits num, p => (takeBits bits (min num 64) p).map fun read => (read.1, p)

theorem call_spec (c : Call) (r : BytesReader bytes) :
    (call c r).map (Prod.map id position) = bitCall (bitsOf bytes) c r.position := by
  cases c with
  | readBit => exact (Option.map_map ..).trans (readBit_spec r)
  | readByte => exact (Option.map_map ..).trans (readByte_spec r)
  | readBits num => exact (Option.map_map ..).trans (readBits_spec num r)
  | peakBits num =>
    rw [bitCall, ← readBits_spec]
    show Option.map _ (Option.map _ ((readBits num r).bind fun p => some (p.1, r))) = _
    cases readBits num r <;> rfl

/-- Any calls on a byte string return what the same calls on its bits do and end at the same
position, and fail where those ask for more bits than are left. -/
theorem bytes_reader_refines (bytes : Bytes) (calls : List Call) :
    ((calls.mapM call).run (new bytes)).map (Prod.map id position) =
      (calls.mapM (bitCall (bitsOf bytes))).run 0 := by
  have hrun : ∀ r : BytesReader bytes, ((calls.mapM call).run r).map (Prod.map id position) =
      (calls.mapM (bitCall (bitsOf bytes))).run r.position := by
    induction calls with
    | nil => exact fun _ => rfl
    | cons c calls ih =>
      intro r
      rw [mapM_cons, mapM_cons, StateT.run_bind, StateT.run_bind]
      show Option.map _ ((call c r).bind _) = (bitCall _ c r.position).bind _
      rw [← call_spec]
      cases call c r with
      | none => rfl
      | some read =>
        show Option.map _ ((calls.mapM call).run read.2 >>= _) =
          ((calls.mapM (bitCall (bitsOf bytes))).run read.2.position >>= _)
        rw [← ih]
        cases (calls.mapM call).run read.2 <;> rfl
  exact hrun (new bytes)

end OpenData.Timeseries.BytesReader

import OpenData.Lib.Bytes

/-!
# Encodings whose byte order is the order of the values

A key is a sequence of encoded fields. Its bytes sort like the fields if every field but the last
has an ordered code: what follows a field then decides only between equal values
(`OrderedCode.append_lt_append_iff`).
-/

namespace OpenData.Lib

open List

variable {α ε : Type} [LT α] {encode : α → Bytes} {a b : α} {r s : Bytes}

/-- A smaller value has smaller bytes, whatever follows the two encodings. -/
def OrderedCode (encode : α → Bytes) : Prop :=
  ∀ ⦃a b⦄, a < b → ∀ r s, encode a ++ r < encode b ++ s

/-- An ordered code with a decoder that leaves what follows. -/
structure OrderedCodec (encode : α → Bytes) (decode : Bytes → Except ε (α × Bytes)) : Prop where
  lt_iff : ∀ a b, a < b ↔ encode a < encode b
  append_lt_iff : ∀ a b r s, a ≠ b → (a < b ↔ encode a ++ r < encode b ++ s)
  prefix_free : ∀ a b, encode a <+: encode b → encode a = encode b
  decode_append : ∀ a rest, decode (encode a ++ rest) = .ok (a, rest)

namespace OrderedCode

variable [Std.Trichotomous (α := α) (· < ·)] (h : OrderedCode encode)

include h

theorem append_lt_append_iff : encode a ++ r < encode b ++ s ↔ a < b ∨ a = b ∧ r < s := by
  constructor
  · intro hlt
    rcases Std.lt_trichotomy a b with hab | rfl | hab
    · exact .inl hab
    · exact .inr ⟨rfl, append_lt_append_left.mp hlt⟩
    · exact absurd hlt (List.lt_asymm (h hab s r))
  · rintro (hab | ⟨rfl, hrs⟩)
    · exact h hab r s
    · exact append_lt_append_left.mpr hrs

theorem lt_iff : encode a < encode b ↔ a < b := by
  simpa using h.append_lt_append_iff (r := []) (s := [])

theorem append_inj : encode a ++ r = encode b ++ s ↔ a = b ∧ r = s := by
  constructor
  · intro heq
    rcases Std.lt_trichotomy a b with hab | rfl | hab
    · exact absurd (heq ▸ h hab r s) (List.lt_irrefl _)
    · exact ⟨rfl, List.append_cancel_left heq⟩
    · exact absurd (heq ▸ h hab s r) (List.lt_irrefl _)
  · rintro ⟨rfl, rfl⟩
    rfl

theorem prefix_append_iff : encode a <+: encode b ++ s ↔ a = b := by
  constructor
  · rintro ⟨r, hr⟩
    exact (h.append_inj.mp hr).1
  · rintro rfl
    exact prefix_append _ _

theorem codec {decode : Bytes → Except ε (α × Bytes)}
    (hdecode : ∀ a rest, decode (encode a ++ rest) = .ok (a, rest)) :
    OrderedCodec encode decode where
  lt_iff _ _ := h.lt_iff.symm
  append_lt_iff a b r s hne := by simp [h.append_lt_append_iff, hne]
  prefix_free a b hprefix := by
    rw [h.prefix_append_iff.mp (by simpa using hprefix : encode a <+: encode b ++ [])]
  decode_append := hdecode

end OrderedCode

/-! ### Numbers -/

theorem OrderedCode.toBe {w} {value : α → Nat} (hvalue : ∀ ⦃a b⦄, a < b → value a < value b)
    (hlt : ∀ a, value a < 256 ^ w) : OrderedCode fun a => toBe w (value a) := by
  intro a b hab r s
  apply append_lt_append_of_length_eq (by simp)
  exact (toBe_lt_toBe (hlt a) (hlt b)).mpr (hvalue hab)

theorem orderedCode_uint32 : OrderedCode fun x : UInt32 => toBe 4 x.toNat :=
  .toBe (fun _ _ h => UInt32.lt_iff_toNat_lt.mp h) UInt32.toNat_lt

theorem orderedCode_uint64 : OrderedCode fun x : UInt64 => toBe 8 x.toNat :=
  .toBe (fun _ _ h => UInt64.lt_iff_toNat_lt.mp h) UInt64.toNat_lt

/-! ### Numbers behind a length code

The code `c` stands in front of `c` bytes and shares the first byte with the highest digit of the
number, which is below `lead`. -/

def lengthCoded (lead code value : Nat) : Bytes :=
  toBe (code + 1) (lead * code * 256 ^ code + value)

/-- The number fits behind its code, and would not fit behind a smaller one. -/
structure IsLengthCode (lead max : Nat) (value code : α → Nat) : Prop where
  le_max : ∀ a, code a ≤ max
  room : ∀ a, value a < lead * 256 ^ code a
  least : ∀ a, ∀ j < code a, lead * 256 ^ j ≤ value a

theorem lengthCoded_eq_cons (lead code value : Nat) : lengthCoded lead code value =
    UInt8.ofNat (lead * code + value / 256 ^ code) :: toBe code value := by
  rw [lengthCoded, toBe_succ, Nat.mul_comm _ (256 ^ code),
    Nat.mul_add_div (Nat.pow_pos (by decide)), ← toBe_mod code, Nat.mul_add_mod_self_left, toBe_mod]

theorem IsLengthCode.orderedCode {lead max} {value code : α → Nat}
    (h : IsLengthCode lead max value code) (hlead : lead * (max + 1) ≤ 256)
    (hvalue : ∀ ⦃a b⦄, a < b → value a < value b) :
    OrderedCode fun a => lengthCoded lead (code a) (value a) := by
  have hroom : ∀ a, lead * code a + lead ≤ 256 := fun a =>
    (Nat.mul_le_mul_left lead (Nat.succ_le_succ (h.le_max a))).trans hlead
  have hdigit : ∀ a, value a / 256 ^ code a < lead := fun a =>
    Nat.div_lt_of_lt_mul (by rw [Nat.mul_comm]; exact h.room a)
  have hbound : ∀ a, lead * code a * 256 ^ code a + value a < 256 ^ (code a + 1) := by
    intro a
    have hle := Nat.mul_le_mul_right (256 ^ code a) (hroom a)
    have hlt := h.room a
    rw [Nat.add_mul] at hle
    rw [Nat.pow_succ]
    omega
  intro a b hab r s
  dsimp only
  rcases Nat.lt_trichotomy (code a) (code b) with hlt | heq | hgt
  · -- A smaller length code makes a smaller first byte.
    have hstep : lead * (code a + 1) ≤ lead * code b := Nat.mul_le_mul_left lead hlt
    have ha := hdigit a
    have hb := hdigit b
    have hb' := hroom b
    rw [lengthCoded_eq_cons, lengthCoded_eq_cons, cons_append, cons_append, cons_lt_cons_iff]
    left
    rw [Nat.mul_add] at hstep
    rw [UInt8.lt_iff_toNat_lt, UInt8.toNat_ofNat', UInt8.toNat_ofNat']
    generalize value a / 256 ^ code a = x at ha ⊢
    generalize value b / 256 ^ code b = y at hb ⊢
    omega
  · have hvalues := hvalue hab
    rw [lengthCoded, lengthCoded]
    apply append_lt_append_of_length_eq (by simp [heq])
    rw [← heq, toBe_lt_toBe (hbound a) (heq ▸ hbound b)]
    omega
  · have hle := h.least a (code b) hgt
    have hlt := h.room b
    have hvalues := hvalue hab
    omega

end OpenData.Lib

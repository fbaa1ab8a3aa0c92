import Mathlib.Tactic.Ring

/-!
# Fixed-width integers and slices over byte lists

A byte buffer is a `List UInt8`.
-/

namespace OpenData.Lib

open List

/-- A byte buffer. -/
abbrev Bytes := List UInt8

/-! ### Fixed-width integers -/

/-- The `w` little-endian bytes of `n`. Higher digits are dropped. -/
def toLe : Nat → Nat → Bytes
  | 0, _ => []
  | w + 1, n => UInt8.ofNat n :: toLe w (n / 256)

def ofLe : Bytes → Nat
  | [] => 0
  | b :: bs => b.toNat + 256 * ofLe bs

/-- The `w` big-endian bytes of `n`. -/
def toBe (w n : Nat) : Bytes := (toLe w n).reverse

def ofBe (bs : Bytes) : Nat := ofLe bs.reverse

variable (w n : Nat)

@[simp] theorem length_toLe : (toLe w n).length = w := by
  induction w generalizing n with
  | zero => rfl
  | succ w ih => simp [toLe, ih]

@[simp] theorem length_toBe : (toBe w n).length = w := by
  simp [toBe]

theorem ofLe_toLe : ofLe (toLe w n) = n % 256 ^ w := by
  induction w generalizing n with
  | zero => simp [toLe, ofLe, Nat.mod_one]
  | succ w ih =>
    have hhead : (UInt8.ofNat n).toNat = n % 256 := by simp
    rw [toLe, ofLe, ih, hhead, Nat.pow_succ, Nat.mul_comm (256 ^ w) 256, Nat.mod_mul]

theorem ofLe_toLe_of_lt {w n} (h : n < 256 ^ w) : ofLe (toLe w n) = n := by
  rw [ofLe_toLe, Nat.mod_eq_of_lt h]

theorem ofBe_toBe_of_lt {w n} (h : n < 256 ^ w) : ofBe (toBe w n) = n := by
  rw [ofBe, toBe, reverse_reverse, ofLe_toLe_of_lt h]

theorem toLe_mod : toLe w (n % 256 ^ w) = toLe w n := by
  induction w generalizing n with
  | zero => rfl
  | succ w ih =>
    have hdiv : n % 256 ^ (w + 1) / 256 = n / 256 % 256 ^ w := by
      rw [Nat.pow_succ, Nat.mul_comm, Nat.mod_mul_right_div_self]
    have hhead : UInt8.ofNat (n % 256 ^ (w + 1)) = UInt8.ofNat n := by
      apply UInt8.toNat_inj.mp
      have hdvd : 256 ∣ 256 ^ (w + 1) := Dvd.intro_left (256 ^ w) rfl
      simp [Nat.mod_mod_of_dvd n hdvd]
    rw [toLe, toLe, hdiv, ih, hhead]

theorem ofLe_lt (bs : Bytes) : ofLe bs < 256 ^ bs.length := by
  induction bs with
  | nil => simp [ofLe]
  | cons b =>
    have hb : b.toNat < 256 := b.toNat_lt
    rw [ofLe, length_cons, Nat.pow_succ]
    omega

theorem toLe_ofLe (bs : Bytes) : toLe bs.length (ofLe bs) = bs := by
  induction bs with
  | nil => rfl
  | cons b bs ih =>
    have hb : b.toNat < 256 := b.toNat_lt
    have hdiv : (b.toNat + 256 * ofLe bs) / 256 = ofLe bs := by omega
    have hhead : UInt8.ofNat (b.toNat + 256 * ofLe bs) = b := by
      apply UInt8.toNat_inj.mp
      simp
    rw [length_cons, ofLe, toLe, hdiv, ih, hhead]

theorem ofLe_toLe_uint32 (x : UInt32) : UInt32.ofNat (ofLe (toLe 4 x.toNat)) = x := by
  rw [ofLe_toLe_of_lt (by simpa using x.toNat_lt), UInt32.ofNat_toNat]

theorem ofLe_toLe_uint64 (x : UInt64) : UInt64.ofNat (ofLe (toLe 8 x.toNat)) = x := by
  rw [ofLe_toLe_of_lt (by simpa using x.toNat_lt), UInt64.ofNat_toNat]

theorem ofBe_toBe_uint64 (x : UInt64) : UInt64.ofNat (ofBe (toBe 8 x.toNat)) = x := by
  rw [ofBe_toBe_of_lt (by simpa using x.toNat_lt), UInt64.ofNat_toNat]

theorem ofBe_toBe_uint32 (x : UInt32) : UInt32.ofNat (ofBe (toBe 4 x.toNat)) = x := by
  rw [ofBe_toBe_of_lt (by simpa using x.toNat_lt), UInt32.ofNat_toNat]

/-! ### The order of big-endian bytes -/

theorem toLe_succ_last : toLe (w + 1) n = toLe w n ++ [UInt8.ofNat (n / 256 ^ w)] := by
  induction w generalizing n with
  | zero => simp [toLe]
  | succ w ih =>
    have hdiv : n / 256 / 256 ^ w = n / 256 ^ (w + 1) := by
      rw [Nat.div_div_eq_div_mul, Nat.pow_succ, Nat.mul_comm]
    rw [toLe, ih, hdiv]
    rfl

theorem toBe_succ : toBe (w + 1) n = UInt8.ofNat (n / 256 ^ w) :: toBe w n := by
  rw [toBe, toLe_succ_last, reverse_append]
  rfl

theorem ofBe_cons (b : UInt8) (bs : Bytes) :
    ofBe (b :: bs) = b.toNat * 256 ^ bs.length + ofBe bs := by
  have hsnoc : ∀ l : Bytes, ofLe (l ++ [b]) = ofLe l + b.toNat * 256 ^ l.length := by
    intro l
    induction l with
    | nil => simp [ofLe]
    | cons a l ih =>
      rw [cons_append, ofLe, ofLe, ih, length_cons, Nat.pow_succ]
      ring
  rw [ofBe, reverse_cons, hsnoc, length_reverse, Nat.add_comm, ofBe]

theorem toBe_mod : toBe w (n % 256 ^ w) = toBe w n := by
  rw [toBe, toLe_mod, toBe]

theorem toBe_inj {w m n} (hm : m < 256 ^ w) (hn : n < 256 ^ w) : toBe w m = toBe w n ↔ m = n := by
  constructor
  · intro h
    rw [← ofBe_toBe_of_lt hm, h, ofBe_toBe_of_lt hn]
  · rintro rfl
    rfl

theorem toBe_lt_toBe {w m n} (hm : m < 256 ^ w) (hn : n < 256 ^ w) :
    toBe w m < toBe w n ↔ m < n := by
  induction w generalizing m n with
  | zero =>
    have hm : m = 0 := by simpa using hm
    have hn : n = 0 := by simpa using hn
    simp [hm, hn]
  | succ w ih =>
    have hpos : 0 < 256 ^ w := Nat.pow_pos (by decide)
    have hdigit : ∀ {k}, k < 256 ^ (w + 1) → k / 256 ^ w < 256 := by
      intro k hk
      rw [Nat.pow_succ] at hk
      exact Nat.div_lt_of_lt_mul hk
    have hhead : ∀ {k}, k < 256 ^ (w + 1) → (UInt8.ofNat (k / 256 ^ w)).toNat = k / 256 ^ w := by
      intro k hk
      simpa using Nat.mod_eq_of_lt (hdigit hk)
    have hrest := ih (Nat.mod_lt m hpos) (Nat.mod_lt n hpos)
    rw [toBe_mod, toBe_mod] at hrest
    -- Both numbers as the highest digit and the rest.
    have hm' := Nat.div_add_mod m (256 ^ w)
    have hn' := Nat.div_add_mod n (256 ^ w)
    rw [toBe_succ, toBe_succ, cons_lt_cons_iff, hrest, UInt8.lt_iff_toNat_lt,
      ← UInt8.toNat_inj, hhead hm, hhead hn]
    constructor
    · rintro (hlt | ⟨heq, hlt⟩)
      · exact Nat.lt_of_not_le fun hge => Nat.not_lt.mpr (Nat.div_le_div_right hge) hlt
      · rw [heq] at hm'
        omega
    · intro hlt
      have hle : m / 256 ^ w ≤ n / 256 ^ w := Nat.div_le_div_right (Nat.le_of_lt hlt)
      rcases Nat.lt_or_eq_of_le hle with h | h
      · exact Or.inl h
      · rw [h] at hm'
        exact Or.inr ⟨h, by omega⟩

/-! ### Ranges of keys -/

theorem range_append {p x y k : Bytes} :
    p ++ x ≤ k ∧ k < p ++ y ↔ ∃ z, k = p ++ z ∧ x ≤ z ∧ z < y := by
  induction p generalizing k with
  | nil => simp
  | cons b p ih =>
    cases k with
    | nil => simp
    | cons c k =>
      have hcons : b :: p ++ x ≤ c :: k ∧ c :: k < b :: p ++ y ↔
          c = b ∧ p ++ x ≤ k ∧ k < p ++ y := by
        rw [← List.not_lt, ← List.not_lt, List.cons_append, List.cons_append,
          List.cons_lt_cons_iff, List.cons_lt_cons_iff]
        constructor
        · rintro ⟨hnot, hlt | ⟨rfl, hlt⟩⟩
          · exact absurd (Or.inl hlt) hnot
          · exact ⟨rfl, fun h => hnot (Or.inr ⟨rfl, h⟩), hlt⟩
        · rintro ⟨rfl, hle, hlt⟩
          simp [hle, hlt]
      rw [hcons, ih]
      simp [and_assoc]

theorem append_lt_append_left {p x y : Bytes} : p ++ x < p ++ y ↔ x < y := by
  induction p with
  | nil => simp
  | cons b p ih => simp [ih]

theorem append_lt_append_of_length_eq {a b r s : Bytes} (h : a.length = b.length) (hlt : a < b) :
    a ++ r < b ++ s := by
  induction a generalizing b with
  | nil =>
    cases b with
    | nil => exact absurd hlt (List.lt_irrefl _)
    | cons => cases h
  | cons c a ih =>
    cases b with
    | nil => cases h
    | cons =>
      rw [cons_lt_cons_iff] at hlt
      rw [cons_append, cons_append, cons_lt_cons_iff]
      exact hlt.imp_right fun htail => ⟨htail.1, ih (Nat.succ.inj h) htail.2⟩

/-! ### Slices -/

/-- How a computation ends when it returns no value: with an error value of its own, or with a
panic. -/
inductive Fault (ε : Type) where
  | err (e : ε)
  | panic
deriving Repr, DecidableEq

section
variable {ε : Type}

/-- `data[lo..hi]`: the bytes from `lo` up to `hi`, a panic when `lo..hi` is not a range inside
the buffer. -/
def slice (data : Bytes) (lo hi : Nat) : Except (Fault ε) Bytes :=
  if lo ≤ hi ∧ hi ≤ data.length then .ok ((data.drop lo).take (hi - lo)) else .error .panic

theorem slice_of_drop {data mid right : Bytes} {lo hi : Nat} (hlo : lo ≤ data.length)
    (hdrop : data.drop lo = mid ++ right) (hhi : hi = lo + mid.length) :
    slice (ε := ε) data lo hi = .ok mid := by
  have hlen : data.length = lo + (mid.length + right.length) := by
    have h := congrArg List.length hdrop
    simp only [length_drop, length_append] at h
    omega
  have hbound : lo ≤ hi ∧ hi ≤ data.length := by omega
  rw [slice, if_pos hbound, hdrop, hhi, Nat.add_sub_cancel_left, take_left]

end

/-- The buffer with `new` written over the bytes from `start` on. -/
def patch (data : Bytes) (start : Nat) (new : Bytes) : Bytes :=
  data.take start ++ new ++ data.drop (start + new.length)

theorem patch_append (left old new right : Bytes) (h : new.length = old.length) :
    patch (left ++ old ++ right) left.length new = left ++ new ++ right := by
  have hdrop : (left ++ old ++ right).drop (left.length + new.length) = right := by
    rw [h, ← length_append, drop_left]
  rw [patch, hdrop, append_assoc left old, take_left]

theorem length_patch (data : Bytes) (start : Nat) (new : Bytes)
    (h : start + new.length ≤ data.length) : (patch data start new).length = data.length := by
  simp only [patch, length_append, length_take, length_drop]
  omega

/-! ### Strings -/

def asBytes (s : String) : Bytes := s.toByteArray.data.toList

def fromUtf8 (bs : Bytes) : Option String := String.fromUTF8? ⟨bs.toArray⟩

theorem fromUtf8_asBytes (s : String) : fromUtf8 (asBytes s) = some s := by
  have hbytes : (⟨(asBytes s).toArray⟩ : ByteArray) = s.toByteArray := by simp [asBytes]
  rw [fromUtf8, hbytes, String.fromUTF8?, dif_pos s.isValidUTF8]
  rfl

theorem asBytes_of_fromUtf8 {bs s} (h : fromUtf8 bs = some s) : asBytes s = bs := by
  rw [fromUtf8, String.fromUTF8?] at h
  split at h
  · rw [Option.some.injEq] at h
    subst h
    simp [asBytes, String.fromUTF8]
  · cases h

theorem asBytes_inj {s t} (h : asBytes s = asBytes t) : s = t := by
  simpa [fromUtf8_asBytes] using congrArg fromUtf8 h

theorem asBytes_append (s t : String) : asBytes (s ++ t) = asBytes s ++ asBytes t := by
  simp [asBytes]

theorem length_asBytes_replicate (n : Nat) :
    (asBytes (String.ofList (List.replicate n 'x'))).length = n := by
  induction n with
  | zero => rfl
  | succ n ih =>
    rw [replicate_succ, String.ofList_cons, asBytes_append, length_append, ih]
    exact Nat.add_comm 1 n

end OpenData.Lib

import OpenData.Common.Range

/-!
# The range of a prefix

The keys that `BytesRange.ofPrefix` contains are those that start with the given bytes
(`contains_ofPrefix`). The proof follows the bytes from the front, where the successor of the tail
decides whether the first byte has to grow (`lexIncrement_cons`).
-/

namespace OpenData.Common

open Lib (Bytes)

theorem lexIncrementRev_append (l : Bytes) (a : UInt8) : lexIncrementRev (l ++ [a]) =
      match lexIncrementRev l with
      | some r => some (r ++ [a])
      | none => if a < 0xFF then some [a + 1] else none := by
  induction l with
  | nil => rfl
  | cons b l ih =>
    rw [List.cons_append, lexIncrementRev, lexIncrementRev]
    split
    · rfl
    · exact ih

theorem lexIncrement_cons (a : UInt8) (data : Bytes) : lexIncrement (a :: data) =
      match lexIncrement data with
      | some stop => some (a :: stop)
      | none => if a < 0xFF then some [a + 1] else none := by
  rw [lexIncrement, List.reverse_cons, lexIncrementRev_append, lexIncrement]
  cases lexIncrementRev data.reverse with
  | some => simp
  | none =>
    show Option.map List.reverse (if a < 0xFF then some [a + 1] else none) = _
    split <;> rfl

theorem isPrefix_iff_between (data key : Bytes) :
    data <+: key ↔ data ≤ key ∧ ∀ stop, lexIncrement data = some stop → key < stop := by
  induction data generalizing key with
  | nil => simp [lexIncrement, lexIncrementRev]
  | cons a data ih =>
    cases key with
    | nil => simp
    | cons c key =>
      rw [List.cons_prefix_cons, ih, List.cons_le_cons_iff, lexIncrement_cons]
      cases hstop : lexIncrement data with
      | some =>
        simp only [Option.some.injEq, forall_eq', List.cons_lt_cons_iff]
        constructor
        · rintro ⟨rfl, hle, hlt⟩
          exact ⟨.inr ⟨rfl, hle⟩, .inr ⟨rfl, hlt⟩⟩
        · rintro ⟨hac | ⟨rfl, hle⟩, hca | ⟨heq, hlt⟩⟩
          · exact absurd hca (UInt8.lt_asymm hac)
          · exact absurd heq (UInt8.ne_of_lt hac).symm
          · exact absurd hca (UInt8.lt_irrefl a)
          · exact ⟨rfl, hle, hlt⟩
      | none =>
        -- The tail has no successor, so that the first byte decides.
        have hbyte : (∀ stop, (if a < 0xFF then some [a + 1] else none) = some stop →
            c :: key < stop) ↔ c ≤ a := by
          by_cases ha : a < 0xFF
          · rw [if_pos ha]
            simp only [Option.some.injEq, forall_eq', List.cons_lt_cons_iff, List.not_lt_nil,
              and_false, or_false]
            rw [UInt8.lt_iff_toNat_lt] at ha
            rw [UInt8.lt_iff_toNat_lt, UInt8.le_iff_toNat_le, UInt8.toNat_add]
            simp only [UInt8.reduceToNat] at ha ⊢
            omega
          · rw [if_neg ha]
            rw [UInt8.lt_iff_toNat_lt] at ha
            simp only [reduceCtorEq, false_implies, implies_true, true_iff]
            rw [UInt8.le_iff_toNat_le]
            have hc := c.toNat_lt
            simp only [UInt8.reduceToNat] at ha
            omega
        rw [hbyte]
        simp only [reduceCtorEq, false_implies, implies_true, and_true]
        constructor
        · rintro ⟨rfl, hle⟩
          exact ⟨.inr ⟨rfl, hle⟩, UInt8.le_refl a⟩
        · rintro ⟨hac | ⟨rfl, hle⟩, hca⟩
          · exact absurd hac (UInt8.not_lt.mpr hca)
          · exact ⟨rfl, hle⟩

theorem BytesRange.contains_ofPrefix (data key : Bytes) :
    (BytesRange.ofPrefix data).contains key = true ↔ data <+: key := by
  rw [isPrefix_iff_between, BytesRange.ofPrefix]
  by_cases hnil : data = []
  · subst hnil
    simp [BytesRange.contains, lexIncrement, lexIncrementRev]
  · rw [if_neg hnil]
    cases lexIncrement data <;> simp [BytesRange.contains]

theorem Storage.mem_scanRange_ofPrefix {storage : Storage} {data record} :
    record ∈ storage.scanRange (BytesRange.ofPrefix data) ↔
      storage[record.key]? = some record.value ∧ data <+: record.key := by
  rw [Storage.scanRange, List.mem_map, ← Std.TreeMap.mem_toList_iff_getElem?_eq_some,
    ← BytesRange.contains_ofPrefix]
  constructor
  · rintro ⟨p, hp, rfl⟩
    exact List.mem_filter.mp hp
  · intro h
    exact ⟨(record.key, record.value), List.mem_filter.mpr h, rfl⟩

end OpenData.Common

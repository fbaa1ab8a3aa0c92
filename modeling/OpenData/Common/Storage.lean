import Mathlib.Data.List.Basic
import OpenData.Lib.Bytes

/-!
# The ordered key-value store

The systems of the repository persist through one interface: a store of byte values under byte
keys, ordered by key. A write puts a batch of records atomically; a record for a key that the
store or the batch already has replaces it.
-/

namespace OpenData.Common

open Lib (Bytes)

structure DeserializeError where
  message : String
deriving Repr, DecidableEq

structure Record where
  key : Bytes
  value : Bytes
deriving Repr, DecidableEq

abbrev Storage := Std.TreeMap Bytes Bytes

variable {k : Bytes} {records : List Record} {storage : Storage}

namespace Storage

def put (storage : Storage) (records : List Record) : Storage :=
  records.foldl (fun storage record => storage.insert record.key record.value) storage

/-- The records with keys from `start` up to `stop`, in key order. -/
def scan (storage : Storage) (start stop : Bytes) : List Record :=
  (storage.toList.filter fun p => decide (start ≤ p.1 ∧ p.1 < stop)).map fun p =>
    { key := p.1, value := p.2 }

@[simp] theorem put_nil (storage : Storage) : storage.put [] = storage := rfl

theorem put_cons (storage : Storage) (record : Record) (records : List Record) :
    storage.put (record :: records) =
      Storage.put (storage.insert record.key record.value) records :=
  rfl

theorem getElem?_put_singleton_self (storage : Storage) (record : Record) :
    (storage.put [record])[record.key]? = some record.value :=
  Std.TreeMap.getElem?_insert_self

theorem put_append (storage : Storage) (records records' : List Record) :
    storage.put (records ++ records') = (storage.put records).put records' :=
  List.foldl_append

theorem mem_put : k ∈ storage.put records ↔ (∃ record ∈ records, record.key = k) ∨ k ∈ storage := by
  induction records generalizing storage with
  | nil => simp
  | cons record records ih =>
    rw [put_cons, ih, Std.TreeMap.mem_insert, Std.compare_eq_iff_eq]
    simp only [List.mem_cons, exists_eq_or_imp]
    rw [or_assoc]
    exact or_left_comm

theorem getElem?_insert_of_ne (storage : Storage) {k'} (v : Bytes) (h : k ≠ k') :
    (storage.insert k v)[k']? = storage[k']? := by
  rw [Std.TreeMap.getElem?_insert, if_neg fun heq => h (Std.compare_eq_iff_eq.mp heq)]

theorem getElem?_put_of_ne (h : ∀ record ∈ records, record.key ≠ k) :
    (storage.put records)[k]? = storage[k]? := by
  induction records generalizing storage with
  | nil => rfl
  | cons record records ih =>
    rw [put_cons, ih fun r hr => h r (List.mem_cons_of_mem _ hr),
      getElem?_insert_of_ne storage record.value (h record List.mem_cons_self)]

theorem getElem?_put_cases {v} (h : (storage.put records)[k]? = some v) :
    (∃ record ∈ records, record.key = k ∧ record.value = v) ∨ storage[k]? = some v := by
  induction records generalizing storage with
  | nil => exact Or.inr h
  | cons record records ih =>
    rcases ih h with ⟨r, hr, hrk⟩ | hold
    · exact Or.inl ⟨r, List.mem_cons_of_mem _ hr, hrk⟩
    · rw [Std.TreeMap.getElem?_insert] at hold
      by_cases heq : compare record.key k = .eq
      · rw [if_pos heq, Option.some.injEq] at hold
        exact Or.inl ⟨record, List.mem_cons_self, Std.compare_eq_iff_eq.mp heq, hold⟩
      · rw [if_neg heq] at hold
        exact Or.inr hold

theorem getElem?_put_of_mem (storage : Storage) (h : ∃ r ∈ records, r.key = k) :
    ∃ r ∈ records, r.key = k ∧ (storage.put records)[k]? = some r.value := by
  induction records generalizing storage with
  | nil => simp at h
  | cons record records ih =>
    by_cases hlater : ∃ r ∈ records, r.key = k
    · obtain ⟨r, hr, hkey, hvalue⟩ := ih (storage.insert record.key record.value) hlater
      exact ⟨r, List.mem_cons_of_mem _ hr, hkey, hvalue⟩
    · -- No later record replaces this one.
      have hne : ∀ r ∈ records, r.key ≠ k := fun r hr hkey => hlater ⟨r, hr, hkey⟩
      obtain ⟨r, hr, hkey⟩ := h
      obtain rfl : r = record := by
        rcases List.mem_cons.mp hr with heq | hr
        · exact heq
        · exact absurd hkey (hne r hr)
      refine ⟨r, List.mem_cons_self, hkey, ?_⟩
      rw [put_cons, getElem?_put_of_ne hne, hkey]
      simp

theorem mem_of_getElem? {v} (h : storage[k]? = some v) : k ∈ storage :=
  Std.TreeMap.mem_iff_isSome_getElem?.mpr (by rw [h]; rfl)

theorem mem_iff_exists : k ∈ storage ↔ ∃ v, storage[k]? = some v :=
  Std.TreeMap.mem_iff_isSome_getElem?.trans Option.isSome_iff_exists

theorem mem_scan {start stop record} : record ∈ storage.scan start stop ↔
      storage[record.key]? = some record.value ∧ start ≤ record.key ∧ record.key < stop := by
  rw [scan, List.mem_map, ← Std.TreeMap.mem_toList_iff_getElem?_eq_some]
  constructor
  · rintro ⟨p, hp, rfl⟩
    rw [List.mem_filter, decide_eq_true_iff] at hp
    exact hp
  · intro h
    exact ⟨(record.key, record.value), List.mem_filter.mpr ⟨h.1, decide_eq_true h.2⟩, rfl⟩

theorem compare_eq_lt_iff {a b : Bytes} : compare a b = .lt ↔ a < b := by
  induction a generalizing b with
  | nil => cases b <;> simp
  | cons x a ih =>
    cases b with
    | nil => simp
    | cons y b =>
      rw [List.compare_cons_cons, Ordering.then_eq_lt, ih, List.cons_lt_cons_iff,
        Std.compare_eq_lt, Std.compare_eq_iff_eq]

theorem pairwise_scan (storage : Storage) (start stop : Bytes) :
    (storage.scan start stop).Pairwise fun r r' => r.key < r'.key := by
  rw [scan, List.pairwise_map]
  have hordered := Std.TreeMap.ordered_keys_toList (t := storage)
  exact (hordered.filter _).imp fun h => compare_eq_lt_iff.mp h

end Storage

/-! ### Merges -/

/-- `default_merge_batch`: the operands one after the other, a panic if there is no value at all. -/
def defaultMergeBatch (existing : Option Bytes) (operands : List Bytes)
    (merge : Option Bytes → Bytes → Bytes) : Option Bytes :=
  operands.foldl (fun result operand => some (merge result operand)) existing

theorem defaultMergeBatch_eq (existing : Option Bytes) (operands : List Bytes) :
    defaultMergeBatch existing operands (fun _ operand => operand) =
      operands.getLast?.or existing := by
  induction operands generalizing existing with
  | nil => rfl
  | cons operand operands ih =>
    rw [defaultMergeBatch, List.foldl_cons, ← defaultMergeBatch, ih, List.getLast?_cons]
    cases operands.getLast? <;> rfl

end OpenData.Common

import OpenData.Common.Sequence
import Mathlib.Data.List.Chain

/-!
# No sequence number is handed out twice

`allocate_spec` is the contract of one call: the range starts at the next number, the next number
moves to its end, and a returned record holds a block that reaches at least as far as the one
before. The rest is about a caller that may crash at any moment (`handed_out_once`).
-/

namespace OpenData.Sequence

open Lib List Option SequenceAllocator SeqBlock State
open Common (Record Storage)

/-! ### Blocks -/

theorem SeqBlock.deserialize_serialize (block : SeqBlock) :
    deserialize block.serialize = .ok block := by
  have htake : block.serialize.take 8 = toBe 8 block.baseSequence.toNat := by
    simp [serialize]
  have hdrop : (block.serialize.drop 8).take 8 = toBe 8 block.blockSize.toNat := by
    simp [serialize, take_of_length_le]
  have hlength : ¬ block.serialize.length < 16 := by simp [serialize]
  unfold deserialize
  rw [if_neg hlength, htake, hdrop, ofBe_toBe_uint64, ofBe_toBe_uint64]

def blockEnd : Option SeqBlock → Nat
  | none => 0
  | some block => block.baseSequence.toNat + block.blockSize.toNat

/-- The next sequence is in the block or at its end, which fits into 64 bits. -/
structure AllocatedSeqBlock.WF (b : AllocatedSeqBlock) : Prop where
  fits : blockEnd b.currentBlock < 2 ^ 64
  next : b.nextSequence.toNat ≤ blockEnd b.currentBlock

section
variable {b : AllocatedSeqBlock}

theorem SeqBlock.toNat_nextBase {block} (h : blockEnd (some block) < 2 ^ 64) :
    block.nextBase.toNat = blockEnd (some block) := by
  rw [nextBase, UInt64.toNat_add]
  exact Nat.mod_eq_of_lt h

theorem AllocatedSeqBlock.WF.toNat_nextBase (h : b.WF) :
    b.nextBase.toNat = blockEnd b.currentBlock := by
  have hfits := h.fits
  unfold AllocatedSeqBlock.nextBase
  cases hblock : b.currentBlock with
  | none => rfl
  | some => exact SeqBlock.toNat_nextBase (hblock ▸ hfits)

theorem AllocatedSeqBlock.WF.toNat_remaining (h : b.WF) :
    b.remaining.toNat = blockEnd b.currentBlock - b.nextSequence.toNat := by
  obtain ⟨hfits, hnext⟩ := h
  unfold AllocatedSeqBlock.remaining
  cases hblock : b.currentBlock with
  | none => simp [blockEnd]
  | some block =>
    rw [hblock] at hfits hnext
    have hend := SeqBlock.toNat_nextBase hfits
    have hle : b.nextSequence ≤ block.nextBase := UInt64.le_iff_toNat_le.mpr (hend ▸ hnext)
    show (if b.nextSequence ≤ block.nextBase then _ else _ : UInt64).toNat = _
    rw [if_pos hle, UInt64.toNat_sub_of_le _ _ hle, hend]

end

/-! ### One call -/

/-- How far a call moves the reservation: not at all, or to a block that ends no earlier and that
the record carries. -/
inductive Extends (key : Bytes) (old : Option SeqBlock) : Option Record → Option SeqBlock → Prop
  | same : Extends key old none old
  | fresh (block : SeqBlock) : blockEnd old ≤ blockEnd (some block) →
      blockEnd (some block) < 2 ^ 64 →
      Extends key old (some { key, value := block.serialize }) (some block)

variable {record : Option Record} {key : Bytes} {old new : Option SeqBlock}

theorem Extends.le (h : Extends key old record new) : blockEnd old ≤ blockEnd new := by
  cases h with
  | same => exact Nat.le_refl _
  | fresh _ hle => exact hle

theorem Extends.key_of_mem (h : Extends key old record new) {r}
    (hr : r ∈ record) : r.key = key := by
  cases h with
  | same => cases hr
  | fresh block =>
    obtain rfl : { key, value := block.serialize } = r := Option.some.inj hr
    rfl

/-- What an allocation does: it takes the next sequences, and a new block if it has to. -/
structure Allocates (a : SequenceAllocator) (count base : UInt64) (record : Option Record)
    (a' : SequenceAllocator) : Prop where
  base_eq : base = a.block.nextSequence
  next : a'.block.nextSequence.toNat = a.block.nextSequence.toNat + count.toNat
  reserved : Extends a.key a.block.currentBlock record a'.block.currentBlock
  wf : a'.block.WF
  key_eq : a'.key = a.key

theorem toNat_max (x y : UInt64) : (max x y).toNat = max x.toNat y.toNat := by
  show (if x ≤ y then y else x).toNat = _
  by_cases h : x ≤ y
  · rw [if_pos h, Nat.max_eq_right (UInt64.le_iff_toNat_le.mp h)]
  · rw [if_neg h, Nat.max_eq_left]
    exact Nat.le_of_lt (Nat.lt_of_not_le fun hle => h (UInt64.le_iff_toNat_le.mpr hle))

variable {a a' : SequenceAllocator}

theorem allocate_spec {count base} (hwf : a.block.WF) (hfits : a.Fits count)
    (h : a.allocate count = (base, record, a')) : Allocates a count base record a' := by
  have hremaining := hwf.toNat_remaining
  have hbase := hwf.toNat_nextBase
  have hend := hwf.fits
  have hnext := hwf.next
  unfold allocate at h
  by_cases hle : count ≤ a.block.remaining
  · -- The block in use has enough numbers left.
    simp only [hle, if_true, Prod.mk.injEq] at h
    obtain ⟨rfl, rfl, rfl⟩ := h
    have hcount := UInt64.le_iff_toNat_le.mp hle
    have hsum : (a.block.nextSequence + count).toNat
        = a.block.nextSequence.toNat + count.toNat := by
      rw [UInt64.toNat_add, Nat.mod_eq_of_lt]
      omega
    refine ⟨rfl, hsum, .same, ⟨hend, ?_⟩, rfl⟩
    show (a.block.nextSequence + count).toNat ≤ blockEnd a.block.currentBlock
    omega
  · -- A new block starts where the one in use ends.
    have hlt : a.block.remaining.toNat < count.toNat :=
      Nat.lt_of_not_le fun hc => hle (UInt64.le_iff_toNat_le.mpr hc)
    have hnew : (count - a.block.remaining).toNat = count.toNat - a.block.remaining.toNat :=
      UInt64.toNat_sub_of_le _ _ (UInt64.le_iff_toNat_le.mpr (Nat.le_of_lt hlt))
    have hroom := hfits (UInt64.lt_iff_toNat_lt.mpr hlt)
    simp only [hle, if_false, initNextBlock, Prod.mk.injEq] at h
    obtain ⟨rfl, rfl, rfl⟩ := h
    have hsize : count.toNat - a.block.remaining.toNat
        ≤ (max (count - a.block.remaining) defaultBlockSize).toNat := by
      rw [toNat_max, hnew]
      exact Nat.le_max_left _ _
    have hsum : (a.block.nextBase + (count - a.block.remaining)).toNat
        = a.block.nextSequence.toNat + count.toNat := by
      rw [UInt64.toNat_add, hnew, Nat.mod_eq_of_lt] <;> omega
    have hreserved : blockEnd a.block.currentBlock
        ≤ a.block.nextBase.toNat + (max (count - a.block.remaining) defaultBlockSize).toNat := by
      omega
    refine ⟨?_, hsum, .fresh _ hreserved hroom, ⟨hroom, ?_⟩, rfl⟩
    · -- With nothing left, the next number is the base of the new block.
      by_cases hpos : 0 < a.block.remaining
      · rw [if_pos hpos]
      · rw [if_neg hpos]
        have hzero : a.block.remaining.toNat = 0 :=
          Nat.eq_zero_of_not_pos fun hc => hpos (UInt64.lt_iff_toNat_lt.mpr hc)
        exact UInt64.toNat_inj.mp (by omega)
    · show (a.block.nextBase + (count - a.block.remaining)).toNat
        ≤ a.block.nextBase.toNat + (max (count - a.block.remaining) defaultBlockSize).toNat
      omega

theorem allocateOne_spec {n} (hwf : a.block.WF) (h : a.allocateOne = (n, record, a'))
    (hn : n.toNat + defaultBlockSize.toNat < 2 ^ 64) : Allocates a 1 n record a' := by
  refine allocate_spec hwf (fun hremaining => ?_) h
  have hle : ¬ (1 : UInt64) ≤ a.block.remaining := UInt64.not_le.mpr hremaining
  have hzero : a.block.remaining = 0 := by
    have hlt := UInt64.lt_iff_toNat_lt.mp hremaining
    exact UInt64.toNat_inj.mp (Nat.lt_one_iff.mp hlt)
  -- Nothing is left, so the number is the base of the new block.
  have hbase : n = a.block.nextBase := by
    simp only [allocateOne, allocate, if_neg hle, initNextBlock, Prod.mk.injEq] at h
    rw [← h.1, hzero, if_neg (UInt64.lt_irrefl 0)]
  rw [hbase] at hn
  rw [hzero]
  exact hn

variable {storage : Storage} {block : Option SeqBlock}

theorem load_spec (hstored : storage[key]? = block.map serialize)
    (hfits : blockEnd block < 2 ^ 64) :
    ∃ a, load storage key = .ok a ∧ a.key = key ∧ a.block.WF ∧
      a.block.currentBlock = block ∧ a.block.nextSequence.toNat = blockEnd block := by
  unfold load AllocatedSeqBlock.load
  cases block with
  | none =>
    rw [map_none] at hstored
    rw [hstored]
    exact ⟨_, rfl, rfl, ⟨hfits, Nat.le_refl _⟩, rfl, rfl⟩
  | some =>
    rw [map_some] at hstored
    have hend := toNat_nextBase hfits
    simp only [hstored, deserialize_serialize]
    exact ⟨_, rfl, rfl, ⟨hfits, Nat.le_of_eq hend⟩, rfl, hend⟩

/-! ### What a step of the caller does -/

section
variable {key : Bytes} {s s' : State} {l : Label}

/-- What a step of the allocator can do. -/
inductive Move (key : Bytes) (s : State) : Label → State → Prop
  | load {a : SequenceAllocator} : s.allocator = none →
      load s.storage key = .ok a →
      Move key s .load { s with allocator := some a, incarnation := s.incarnation + 1 }
  | allocate {count base record a a'} :
      s.allocator = some a → a.allocate count = (base, record, a') →
      Move key s (.allocate count) { s with
        allocator := some a'
        awaiting := s.awaiting ++
          [{ range := { start := base.toNat, stop := base.toNat + count.toNat }, record }] }
  | persist {c awaiting} : s.awaiting = c :: awaiting → Move key s .persist { s with
        storage := s.storage.put c.record.toList
        awaiting
        handed := s.handed ++ [(s.incarnation, c.range)] }
  | crash : Move key s .crash { s with allocator := none, awaiting := [] }

theorem move_of_step (h : s.step key l = some s') : Move key s l s' := by
  cases l with
  | load =>
    simp only [step] at h
    split at h
    next a hnone hload =>
      cases h
      exact .load hnone hload
    next => cases h
  | allocate =>
    simp only [step] at h
    cases hallocator : s.allocator with
    | none => simp [hallocator] at h
    | some =>
      simp only [hallocator, Option.some.injEq] at h
      exact h ▸ .allocate hallocator rfl
  | persist =>
    simp only [step] at h
    cases hawaiting : s.awaiting with
    | nil => simp [hawaiting] at h
    | cons =>
      simp only [hawaiting, Option.some.injEq] at h
      exact h ▸ .persist hawaiting
  | crash =>
    simp only [step, Option.some.injEq] at h
    exact h ▸ .crash

end

/-! ### Allocations on their way to the storage -/

/-- The next sequence and the block that was reserved for it. -/
structure Reserved where
  next : Nat
  block : Option SeqBlock

/-- The allocations lead from the first reservation to the last one: each takes a range at the next
number that its block covers. -/
inductive Queued (key : Bytes) : Reserved → List Allocation → Reserved → Prop
  | nil {r} : Queued key r [] r
  | cons {r r' c cs block} :
      c.range.start = r.next → r.next ≤ c.range.stop → Extends key r.block c.record block →
      c.range.stop ≤ blockEnd block → Queued key ⟨c.range.stop, block⟩ cs r' →
      Queued key r (c :: cs) r'

theorem Queued.snoc {r r' cs c} (h : Queued key r cs r') (hstart : c.range.start = r'.next)
    (hle : r'.next ≤ c.range.stop) (hext : Extends key r'.block c.record block)
    (hstop : c.range.stop ≤ blockEnd block) : Queued key r (cs ++ [c]) ⟨c.range.stop, block⟩ := by
  induction h with
  | nil => exact .cons hstart hle hext hstop .nil
  | cons hstart' hle' hext' hstop' _ ih =>
    exact .cons hstart' hle' hext' hstop' (ih hstart hle hext)

/-- What was handed out ends at or before `next`, and exactly there when the running process has
handed out the last range. -/
structure HandedUpTo (handed : List (Nat × Span)) (incarnation next : Nat) : Prop where
  le : ∀ p ∈ handed, p.2.stop ≤ next
  last : ∀ p ∈ handed.getLast?, p.1 = incarnation → p.2.stop = next

theorem HandedUpTo.snoc {handed incarnation next range}
    (h : HandedUpTo handed incarnation next) (hle : next ≤ range.stop) :
    HandedUpTo (handed ++ [(incarnation, range)]) incarnation range.stop where
  le := by
    intro p hp
    rcases mem_append.mp hp with hp | hp
    · exact Nat.le_trans (h.le p hp) hle
    · rw [mem_singleton.mp hp]
  last := by
    intro p hp _
    obtain rfl : (incarnation, range) = p := by simpa using hp
    rfl

/-- The ranges handed out are in order and below the end of the stored block. -/
structure SequenceInvariant (key : Bytes) (block : Option SeqBlock) (s : State) : Prop where
  stored : s.storage[key]? = block.map serialize
  fits : blockEnd block < 2 ^ 64
  incarnations : ∀ p ∈ s.handed, p.1 ≤ s.incarnation
  below : ∀ p ∈ s.handed, p.2.stop ≤ blockEnd block
  increasing : s.handed.Pairwise fun p q => p.1 ≤ q.1 ∧ p.2.stop ≤ q.2.start
  contiguous : s.handed.IsChain fun p q => p.1 = q.1 → q.2.start = p.2.stop
  crashed : s.allocator = none → s.awaiting = []
  running : ∀ a, s.allocator = some a → a.key = key ∧ a.block.WF ∧
    ∃ next, HandedUpTo s.handed s.incarnation next ∧ Queued key ⟨next, block⟩ s.awaiting
      ⟨a.block.nextSequence.toNat, a.block.currentBlock⟩

def noOverflow (s : State) : Label → Prop
  | .allocate count => ∀ a ∈ s.allocator, a.Fits count
  | _ => True

instance (s : State) : (l : Label) → Decidable (noOverflow s l)
  | .allocate count => inferInstanceAs (Decidable (∀ a ∈ s.allocator, a.Fits count))
  | .load | .persist | .crash => isTrue trivial

section
variable {key : Bytes} {s : State} {block : Option SeqBlock}

theorem sequenceInvariant_init (hkey : storage[key]? = none) :
    SequenceInvariant key none (init storage) where
  stored := hkey
  fits := by decide
  incarnations := by simp [init]
  below := by simp [init]
  increasing := List.Pairwise.nil
  contiguous := List.IsChain.nil
  crashed := fun _ => rfl
  running := by simp [init]

theorem SequenceInvariant.load (h : SequenceInvariant key block s) (hnone : s.allocator = none)
    (hload : load s.storage key = .ok a) :
    SequenceInvariant key block
      { s with allocator := some a, incarnation := s.incarnation + 1 } where
  __ := h
  incarnations := fun p hp => Nat.le_succ_of_le (h.incarnations p hp)
  crashed := by simp
  running := by
    intro a' ha'
    obtain ⟨b, hb, hbkey, hwf, hblock, hnext⟩ := load_spec h.stored h.fits
    have hab : a = b := Except.ok.inj (hload.symm.trans hb)
    subst hab
    obtain rfl : a = a' := Option.some.inj ha'
    refine ⟨hbkey, hwf, blockEnd block, ⟨h.below, ?_⟩, ?_⟩
    · -- The last range belongs to an earlier process.
      intro p hp heq
      have hold := h.incarnations p (mem_of_getLast? hp)
      have heq : p.1 = s.incarnation + 1 := heq
      omega
    · show Queued key _ s.awaiting _
      rw [h.crashed hnone, hnext, hblock]
      exact .nil

theorem SequenceInvariant.allocate (h : SequenceInvariant key block s) {count base}
    (ha : s.allocator = some a) (hfits : a.Fits count)
    (halloc : a.allocate count = (base, record, a')) :
    SequenceInvariant key block { s with
      allocator := some a'
      awaiting := s.awaiting ++
        [{ range := { start := base.toNat, stop := base.toNat + count.toNat }, record }] } where
  __ := h
  crashed := by simp
  running := by
    intro a'' ha''
    obtain rfl : a' = a'' := Option.some.inj ha''
    obtain ⟨hkey, hwf, next, hhanded, hqueued⟩ := h.running a ha
    have hspec := allocate_spec hwf hfits halloc
    have hbase := congrArg UInt64.toNat hspec.base_eq
    have hnext := hspec.next
    have hstop := hspec.wf.next
    refine ⟨hspec.key_eq.trans hkey, hspec.wf, next, hhanded, ?_⟩
    have hsnoc := hqueued.snoc
      (c := { range := { start := base.toNat, stop := base.toNat + count.toNat }, record })
      hbase (by show a.block.nextSequence.toNat ≤ base.toNat + count.toNat; omega)
      (hkey ▸ hspec.reserved)
      (by show base.toNat + count.toNat ≤ _; omega)
    have hsame : base.toNat + count.toNat = a'.block.nextSequence.toNat := by omega
    rw [← hsame]
    exact hsnoc

variable {block' : Option SeqBlock}

theorem stored_put (hstored : storage[key]? = block.map serialize)
    (hext : Extends key block record block') :
    (storage.put record.toList)[key]? = block'.map serialize := by
  cases hext with
  | same => exact hstored
  | fresh fresh =>
    exact Storage.getElem?_put_singleton_self storage { key, value := fresh.serialize }

theorem Extends.fits (hext : Extends key block record block')
    (h : blockEnd block < 2 ^ 64) : blockEnd block' < 2 ^ 64 := by
  cases hext with
  | same => exact h
  | fresh _ _ hfits => exact hfits

theorem SequenceInvariant.persist (h : SequenceInvariant key block s) {c awaiting}
    (hawaiting : s.awaiting = c :: awaiting) :
    ∃ block', SequenceInvariant key block' { s with
      storage := s.storage.put c.record.toList
      awaiting
      handed := s.handed ++ [(s.incarnation, c.range)] } := by
  -- Only a running process has allocations in the queue.
  cases hallocator : s.allocator with
  | none => simp [h.crashed hallocator] at hawaiting
  | some a =>
    obtain ⟨hkey, hwf, next, hhanded, hqueued⟩ := h.running a hallocator
    rw [hawaiting] at hqueued
    cases hqueued with
    | @cons _ _ _ _ block' hstart hle hext hstop hrest =>
      refine ⟨block', ?_⟩
      exact {
        stored := stored_put h.stored hext
        fits := hext.fits h.fits
        incarnations := by
          intro p hp
          rcases mem_append.mp hp with hp | hp
          · exact h.incarnations p hp
          · exact Nat.le_of_eq (congrArg Prod.fst (mem_singleton.mp hp))
        below := by
          intro p hp
          rcases mem_append.mp hp with hp | hp
          · exact Nat.le_trans (h.below p hp) hext.le
          · rw [mem_singleton.mp hp]
            exact hstop
        increasing := by
          refine pairwise_append.mpr ⟨h.increasing, pairwise_singleton _ _, ?_⟩
          intro p hp q hq
          obtain rfl := mem_singleton.mp hq
          exact ⟨h.incarnations p hp, hstart ▸ hhanded.le p hp⟩
        contiguous := by
          refine h.contiguous.append (List.IsChain.singleton _) ?_
          intro p hp q hq heq
          obtain rfl : (s.incarnation, c.range) = q := by simpa using hq
          exact hstart.trans (hhanded.last p hp heq).symm
        crashed := by simp
        running := by
          intro a' ha'
          obtain rfl : a = a' := Option.some.inj ha'
          exact ⟨hkey, hwf, c.range.stop, hhanded.snoc hle, hrest⟩ }

theorem SequenceInvariant.crash (h : SequenceInvariant key block s) :
    SequenceInvariant key block { s with allocator := none, awaiting := [] } :=
  { h with crashed := fun _ => rfl, running := by simp }

theorem sequenceInvariant_run {ls} (hkey : storage[key]? = none)
    (hrun : Run (step key) noOverflow (init storage) ls s) :
    ∃ block, SequenceInvariant key block s := by
  refine hrun.invariant (I := fun s => ∃ block, SequenceInvariant key block s)
    ⟨none, sequenceInvariant_init hkey⟩ ?_
  rintro s l s' ⟨block, h⟩ hok hstep
  cases move_of_step hstep with
  | load hnone hload => exact ⟨block, h.load hnone hload⟩
  | allocate ha halloc => exact ⟨block, h.allocate ha (hok _ ha) halloc⟩
  | persist hawaiting => exact h.persist hawaiting
  | crash => exact ⟨block, h.crash⟩

end

/-! ### The main result -/

/-- What the ranges handed out satisfy. -/
structure HandedOut (key : Bytes) (s : State) : Prop where
  /-- Every range ends at or before the start of each later one, in the same process or in a later
  one: the ranges are disjoint, and they only go up. -/
  increasing : s.handed.Pairwise fun p q => p.1 ≤ q.1 ∧ p.2.stop ≤ q.2.start
  contiguous : s.handed.IsChain fun p q => p.1 = q.1 → q.2.start = p.2.stop
  covered : ∀ p ∈ s.handed, ∀ x, p.2.contains x = true → ∃ value block,
    s.storage[key]? = some value ∧ deserialize value = .ok block ∧ x < block.nextBase.toNat
  loadable : ∃ a, load s.storage key = .ok a

/-- In every run of allocations of any size and any crashes, where the records are stored in the
order of the calls and each range goes into use after its record, and no sum wraps: the ranges that
were handed out are disjoint and increasing, without a gap inside one process, and below the end of
the stored block. -/
theorem handed_out_once {key : Bytes} {storage : Storage} {ls : List Label} {s : State}
    (hkey : storage[key]? = none)
    (hrun : Run (step key) noOverflow (init storage) ls s) : HandedOut key s := by
  obtain ⟨block, h⟩ := sequenceInvariant_run hkey hrun
  refine ⟨h.increasing, h.contiguous, ?_, ?_⟩
  · intro p hp x hx
    have hbelow := h.below p hp
    have hlt := (Span.contains_iff.mp hx).2
    cases hblock : block with
    | none =>
      rw [hblock] at hbelow
      have hbelow : p.2.stop ≤ 0 := hbelow
      omega
    | some b =>
      subst hblock
      refine ⟨b.serialize, b, h.stored, deserialize_serialize b, ?_⟩
      rw [toNat_nextBase h.fits]
      omega
  · obtain ⟨a, ha, -⟩ := load_spec h.stored h.fits
    exact ⟨a, ha⟩

/-- The second allocation takes the rest of the first block and continues in a second one. The
third one is lost in a crash before its range goes into use. -/
def crashInBlock : List Label :=
  [.load, .allocate 5, .persist, .allocate 5000, .persist, .allocate 2, .crash, .load, .allocate 3,
    .persist]

theorem handed_out_once_crashInBlock : ∃ s, Run (step [1, 2]) noOverflow (init ∅) crashInBlock s ∧
      s.handed = [(1, ⟨0, 5⟩), (1, ⟨5, 5005⟩), (2, ⟨8192, 8195⟩)] ∧ HandedOut [1, 2] s := by
  obtain ⟨s, hrun, hhanded⟩ : ∃ s, Run (step [1, 2]) noOverflow (init ∅) crashInBlock s ∧
      s.handed = [(1, ⟨0, 5⟩), (1, ⟨5, 5005⟩), (2, ⟨8192, 8195⟩)] :=
    Run.exists_of_check (by decide +kernel)
  exact ⟨s, hrun, hhanded, handed_out_once Std.TreeMap.getElem?_emptyc hrun⟩

end OpenData.Sequence

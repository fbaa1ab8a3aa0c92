import OpenData.Timeseries.Stream
import OpenData.Proofs.Timeseries.Operator

/-!
# What operators emit over polls

`Emits next p s a` says that the calls of an operator are pending `p` times, return `a`, and return
nothing after that. `Child.drain_of_sound` says what a loop over a child does when the child may be
pending anywhere: it takes the batches up to the next pending result, and the rest is left. A loop
that starts afresh in each call is left with the batches behind the last pending result
(`Child.kept`), and those before it are lost (`Child.lost`).
-/

namespace OpenData.Timeseries

open Lib

/-! ### Cells -/

theorem getElem?_cellOrder {m n k i} (hk : k < m) (hi : i < n) :
    (cellOrder m n)[k * n + i]? = some (k, i) := by
  induction m with
  | zero => omega
  | succ m ih =>
    have hlen : (cellOrder m n).length = m * n := by simp [cellOrder]
    have hsucc : cellOrder (m + 1) n = cellOrder m n ++ (List.range n).map fun i => (m, i) := by
      simp [cellOrder, List.range_succ]
    rw [hsucc]
    rcases Nat.lt_succ_iff_lt_or_eq.mp hk with hlt | rfl
    · rw [List.getElem?_append_left (hlen ▸ @cell_lt _ _ (k, i) hlt hi), ih hlt]
    · rw [List.getElem?_append_right (by omega), hlen, Nat.add_sub_cancel_left]
      simp [hi]

theorem ValueBatch.cell_eq {V : Type} {batch : ValueBatch V} {f : Nat × Nat → Option V}
    (h : batch.cells = (cellOrder batch.stepCount batch.seriesCount).map f) {k i}
    (hk : batch.stepRange.contains k) (hi : batch.seriesRange.contains i) :
    batch.cell k i = f (k - batch.stepRange.start, i - batch.seriesRange.start) := by
  rw [Span.contains_iff] at hk hi
  rw [cell, cellOf, h, List.getElem?_map, getElem?_cellOrder (by rw [stepCount]; omega)
    (by rw [seriesCount]; omega)]
  rfl

def oneStepBatch (seriesRange : Span) (cells : List (Option Nat)) : ValueBatch Nat :=
  ⟨[1000], ⟨0, 1⟩, seriesRange, cells⟩

/-! ### Calls -/

section

variable {σ α : Type} {next : σ → σ × Poll (Option α)} {s s' : σ} {a : α} {p : Nat}

def Silent (next : σ → σ × Poll (Option α)) (s : σ) : Prop :=
  ∀ n, (calls next s n).filterMap Poll.emitted = []

theorem Silent.of_invariant {I : σ → Prop} (h : ∀ s, I s → I (next s).1 ∧ (next s).2.emitted = none)
    (hs : I s) : Silent next s := by
  intro n
  induction n generalizing s with
  | zero => rfl
  | succ n ih => rw [calls, List.filterMap_cons, (h s hs).2, ih (h s hs).1]

/-- The operator is pending a number of times, emits the item, and then nothing more. -/
inductive Emits (next : σ → σ × Poll (Option α)) : Nat → σ → α → Prop
  | now {s t a} : next s = (t, .ready (some a)) → Silent next t → Emits next 0 s a
  | later {s t a p} : next s = (t, .pending) → Emits next p t a → Emits next (p + 1) s a

theorem Emits.calls (h : Emits next p s a) (n : Nat) :
    (calls next s n).filterMap Poll.emitted = if n ≤ p then [] else [a] := by
  induction h generalizing n with
  | now hnext hsilent =>
    cases n with
    | zero => rfl
    | succ n => simp [Timeseries.calls, hnext, Poll.emitted, hsilent n]
  | later hnext _ ih =>
    cases n with
    | zero => rfl
    | succ n =>
      rw [Timeseries.calls, hnext, List.filterMap_cons_none rfl, ih n]
      simp

theorem Emits.congr (h : next s = next s') (he : Emits next p s' a) : Emits next p s a := by
  cases he with
  | now hnext hsilent => exact .now (h.trans hnext) hsilent
  | later hnext he => exact .later (h.trans hnext) he

theorem Silent.congr (h : next s = next s') (hs : Silent next s') : Silent next s := by
  intro n
  cases n with
  | zero => rfl
  | succ n => simpa only [calls, h] using hs (n + 1)

theorem Silent.of_next (h : (next s).2.emitted = none) (hs : Silent next (next s).1) :
    Silent next s := by
  intro n
  cases n with
  | zero => rfl
  | succ n =>
    rw [calls, List.filterMap_cons_none h]
    exact hs n

theorem Silent.later (h : next s = (s', .pending)) (hs : Silent next s') : Silent next s := by
  refine .of_next ?_ ?_ <;> rw [h]
  · rfl
  · exact hs

end

/-! ### Children -/

namespace Child

variable {ε β σ : Type} {child : Child ε β} {absorb : σ → β → σ}

def batches (child : Child ε β) : List β := child.filterMap fun
  | .ready (.ok batch) => some batch
  | _ => none

def pendings (child : Child ε β) : Nat := child.countP fun poll => !poll.isReady

/-- The batches before the last pending result. -/
def lost : Child ε β → List β
  | [] => []
  | poll :: rest => if pendings rest = 0 then [] else batches [poll] ++ lost rest

/-- The batches behind the last pending result. -/
def kept : Child ε β → List β
  | [] => []
  | poll :: rest => if pendings (poll :: rest) = 0 then batches (poll :: rest) else kept rest

/-- The child does not fail. -/
def Sound (child : Child ε β) : Prop := ∀ poll ∈ child, ∀ e, poll ≠ .ready (.error e)

theorem kept_of_pendings_eq_zero (h : child.pendings = 0) : child.kept = child.batches := by
  cases child with
  | nil => rfl
  | cons => rw [kept, if_pos h]

theorem lost_append_kept (child : Child ε β) : child.lost ++ child.kept = child.batches := by
  induction child with
  | nil => rfl
  | cons poll rest ih =>
    have hbatches : batches (poll :: rest) = batches [poll] ++ batches rest := by
      rw [batches, batches, batches, ← List.filterMap_append]
      rfl
    rw [lost, kept]
    by_cases hrest : pendings rest = 0
    · rw [if_pos hrest, List.nil_append]
      split
      · rfl
      · -- The first result is the last pending one.
        rename_i hpoll
        obtain rfl : poll = .pending := by
          cases poll with
          | pending => rfl
          | ready => exact absurd (by simpa [pendings, Poll.isReady] using hrest) hpoll
        rw [kept_of_pendings_eq_zero hrest]
        rfl
    · have hpoll : pendings (poll :: rest) ≠ 0 := by
        rw [pendings, List.countP_cons]
        exact Nat.ne_of_gt (Nat.add_pos_left (Nat.pos_of_ne_zero hrest) _)
      rw [if_neg hrest, if_neg hpoll, List.append_assoc, ih, hbatches]

theorem drain_of_sound (h : child.Sound) (s : σ) : (child.pendings = 0 ∧
      child.drain absorb s = ([], child.batches.foldl absorb s, .ready (.ok ()))) ∨
    ∃ rest taken, child.drain absorb s = (rest, taken.foldl absorb s, .pending) ∧ rest.Sound ∧
      child.pendings = rest.pendings + 1 ∧ child.batches = taken ++ rest.batches ∧
      child.kept = rest.kept := by
  induction child generalizing s with
  | nil => exact .inl ⟨rfl, rfl⟩
  | cons poll rest ih =>
    obtain ⟨hpoll, hrest⟩ := List.forall_mem_cons.mp h
    match poll, hpoll with
    | .pending, _ =>
      have hcount : Child.pendings (.pending :: rest) = Child.pendings rest + 1 := by
        simp [pendings, Poll.isReady]
      exact .inr ⟨rest, [], rfl, hrest, hcount, rfl, by rw [kept, if_neg (by omega)]⟩
    | .ready (.error e), hpoll => exact absurd rfl (hpoll e)
    | .ready (.ok batch), _ =>
      have hpendings : Child.pendings (.ready (.ok batch) :: rest) = Child.pendings rest := by
        simp [pendings, Poll.isReady]
      rw [hpendings]
      rcases ih hrest (absorb s batch) with ⟨hnone, heq⟩ |
        ⟨rest', taken, heq, hsound, hcount, happend, hkept⟩
      · exact .inl ⟨hnone, heq⟩
      · refine .inr ⟨rest', batch :: taken, heq, hsound, hcount, congrArg (batch :: ·) happend, ?_⟩
        rw [kept, if_neg (by omega), hkept]

end Child

end OpenData.Timeseries

import OpenData.Buffer.Edits
import OpenData.Lib.Threshold
import OpenData.Proofs.Buffer.Manifest

/-!
# A manifest over any sequence of edits

`Tracks m q` extends `Represents` by what a dequeue needs beyond the bytes: the entries carry
increasing sequence numbers below the next one. Then cutting the two buffers at a sequence number
is a selection by sequence number. Every edit keeps it (`Tracks.edit`), so every sequence of
edits does (`Tracks.edits`), and `edits_refine` reads the result for the empty manifest.
-/

namespace OpenData.Buffer

open Lib List

/-- The entries are in the order of their sequences, and the next one is after them. -/
structure Queue.Numbered (q : Queue) : Prop where
  increasing : q.entries.Pairwise fun e e' => e.sequence < e'.sequence
  below : ∀ e ∈ q.entries, e.sequence < q.nextSequence

/-- The manifest stands for the queue. -/
structure Tracks (m : Manifest) (q : Queue) : Prop where
  represents : ∃ base added, Represents m q base added
  numbered : q.Numbered
  count : q.entries.length < 2 ^ 32

variable {m : Manifest} {q : Queue}

theorem Queue.Numbered.cut (h : q.Numbered) {es} (hsub : es.Sublist q.entries)
    (throughSequence : UInt64) : Cut (fun e => decide (e.sequence ≤ throughSequence)) es := by
  refine Cut.of_pairwise (h.increasing.sublist hsub) ?_
  intro e e' hlt hle
  simp only [decide_eq_true_eq] at hle ⊢
  exact UInt64.le_of_lt (UInt64.lt_of_lt_of_le hlt hle)

theorem tracks_empty : Tracks Manifest.empty Queue.empty where
  represents := ⟨[], [], represents_empty⟩
  numbered := ⟨List.Pairwise.nil, by simp [Queue.empty]⟩
  count := by simp [Queue.empty]

theorem Queue.Numbered.append (h : q.Numbered) (hnext : q.nextSequence.toNat + 1 < 2 ^ 64)
    (location : String) (metadata : List Metadata) : (q.append location metadata).Numbered := by
  have hlt : q.nextSequence < q.nextSequence + 1 := by
    rw [UInt64.lt_iff_toNat_lt, UInt64.toNat_add]
    simp only [UInt64.toNat_one]
    omega
  constructor
  · refine pairwise_append.mpr ⟨h.increasing, pairwise_singleton _ _, ?_⟩
    intro e he e' he'
    rw [mem_singleton] at he'
    subst he'
    exact h.below e he
  · intro e he
    rcases mem_append.mp he with he | he
    · exact UInt64.lt_trans (h.below e he) hlt
    · rw [mem_singleton] at he
      subst he
      exact hlt

theorem Queue.Numbered.filter (h : q.Numbered) (p : QueueEntry → Bool) :
    Queue.Numbered { q with entries := q.entries.filter p } where
  increasing := h.increasing.sublist filter_sublist
  below e he := h.below e (mem_of_mem_filter he)

namespace Tracks

theorem append (h : Tracks m q) {entry} (hw : Edit.Within q (.append entry)) :
    ∃ m', m.edit (.append entry) = .ok ([], m') ∧
      Tracks m' (q.append entry.location entry.metadata) := by
  obtain ⟨⟨hloc, hbody⟩, hcount, hnext⟩ := hw
  obtain ⟨base, added, hrep⟩ := h.represents
  obtain ⟨m', e, hm, hrep'⟩ := hrep.append entry ⟨hloc, hbody⟩
  refine ⟨m', ?_, ⟨base, added ++ [e], hrep'⟩, h.numbered.append hnext _ _, ?_⟩
  · rw [Manifest.edit, hm]
    rfl
  · rw [u32Max] at hcount
    simp only [Queue.append, length_append, length_singleton]
    omega

theorem dequeue (h : Tracks m q) (throughSequence : UInt64) :
    ∃ m', m.edit (.dequeue throughSequence) = .ok ((q.edit (.dequeue throughSequence)).1, m') ∧
      Tracks m' (q.edit (.dequeue throughSequence)).2 := by
  obtain ⟨base, added, hrep⟩ := h.represents
  have hlen : base.length + added.length < 2 ^ 32 := by
    have hcount := h.count
    rwa [hrep.entries, length_append] at hcount
  obtain ⟨m', hm, hrep'⟩ := hrep.dequeue_split hlen throughSequence
  have hbase : Cut (fun e => decide (e.sequence ≤ throughSequence)) base :=
    h.numbered.cut (by rw [hrep.entries]; exact sublist_append_left _ _) throughSequence
  have hadded : Cut (fun e => decide (e.sequence ≤ throughSequence)) added :=
    h.numbered.cut (by rw [hrep.entries]; exact sublist_append_right _ _) throughSequence
  rw [hbase.takeWhile_eq_filter, hadded.takeWhile_eq_filter, ← filter_append, ← hrep.entries] at hm
  rw [hbase.dropWhile_eq_filter, hadded.dropWhile_eq_filter, ← filter_append,
    ← hrep.entries] at hrep'
  refine ⟨m', hm, ⟨_, _, hrep'⟩, h.numbered.filter _, ?_⟩
  exact Nat.lt_of_le_of_lt (length_filter_le _ _) h.count

theorem reparse (h : Tracks m q) : ∃ m', m.edit .reparse = .ok ([], m') ∧ Tracks m' q := by
  obtain ⟨base, added, hrep⟩ := h.represents
  have hlen : base.length + added.length < 2 ^ 32 := by
    have hcount := h.count
    rwa [hrep.entries, length_append] at hcount
  obtain ⟨b, hb⟩ : ∃ b, m.toBytes = .ok b := by
    rw [Manifest.toBytes]
    split
    · exact ⟨_, rfl⟩
    · -- The checked sum of the two counts fits.
      simp only [hrep.existingEntriesCount_eq, hrep.appendedCount]
      rw [if_neg (by rw [u32Max]; omega)]
      exact ⟨_, rfl⟩
  obtain ⟨m', hm, hrep'⟩ := represents_fromBytes (hrep.stored_of_toBytes (by omega) hb)
  refine ⟨m', ?_, ⟨_, _, hrep'⟩, h.numbered, h.count⟩
  rw [Manifest.edit, hb]
  simp only [bind, Except.bind, hm]

theorem edit (h : Tracks m q) {e} (hw : e.Within q) :
    ∃ m', m.edit e = .ok ((q.edit e).1, m') ∧ Tracks m' (q.edit e).2 := by
  cases e with
  | append => exact h.append hw
  | dequeue throughSequence => exact h.dequeue throughSequence
  | setEpoch epoch =>
    obtain ⟨base, added, hrep⟩ := h.represents
    exact ⟨_, rfl, ⟨base, added, hrep.setEpoch epoch⟩, ⟨h.numbered.1, h.numbered.2⟩, h.count⟩
  | reparse => exact h.reparse

theorem edits (h : Tracks m q) {es} (hw : q.Within es) :
    ∃ m', m.edits es = .ok ((q.edits es).1, m') ∧ Tracks m' (q.edits es).2 := by
  induction es generalizing m q with
  | nil => exact ⟨m, rfl, h⟩
  | cons e es ih =>
    obtain ⟨m', hm, h'⟩ := h.edit hw.1
    obtain ⟨last, hlast, hres⟩ := ih h' hw.2
    refine ⟨last, ?_, hres⟩
    rw [Manifest.edits, hm]
    simp only [bind, Except.bind, hlast]
    rfl

end Tracks

/-- A manifest that starts empty stands, after any edits within its fields, for the queue after
the same edits: no edit fails, each dequeue returns the entries with sequence at most the given
one, and iterating gives exactly the entries that are left, without an error. -/
theorem edits_refine (es : List Edit) (h : Queue.empty.Within es) :
    ∃ m, Manifest.empty.edits es = .ok ((Queue.empty.edits es).1, m) ∧
      m.items = (Queue.empty.edits es).2.entries.map .ok ∧
      m.nextSequence = (Queue.empty.edits es).2.nextSequence ∧
      m.epoch = (Queue.empty.edits es).2.epoch := by
  obtain ⟨m, hm, ⟨base, added, hrep⟩, -, -⟩ := tracks_empty.edits h
  exact ⟨m, hm, hrep.items_eq, hrep.nextSequence, hrep.epoch⟩

/-- Two entries, written and read back, a third one appended, and the first two dequeued from
both buffers under a new epoch. -/
def sampleEdits : List Edit :=
  [.append ⟨0, "a", []⟩, .append ⟨0, "b", [⟨7, 1000, [1, 2]⟩]⟩, .reparse, .append ⟨0, "c", []⟩,
    .setEpoch 3, .dequeue 1]

theorem edits_refine_sampleEdits : Queue.empty.Within sampleEdits ∧
    ∃ m, Manifest.empty.edits sampleEdits = .ok ((Queue.empty.edits sampleEdits).1, m) ∧
      m.items = [.ok ⟨2, "c", []⟩] ∧ m.nextSequence = 3 ∧ m.epoch = 3 := by
  have hw : Queue.empty.Within sampleEdits := by decide +kernel
  obtain ⟨m, hm, hitems, hnext, hepoch⟩ := edits_refine sampleEdits hw
  refine ⟨hw, m, hm, ?_, ?_, ?_⟩
  · have hentries : (Queue.empty.edits sampleEdits).2.entries = [⟨2, "c", []⟩] := by
      decide +kernel
    rw [hitems, hentries]
    rfl
  · rw [hnext]
    decide +kernel
  · rw [hepoch]
    decide +kernel

end OpenData.Buffer

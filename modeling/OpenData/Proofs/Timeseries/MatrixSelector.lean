import OpenData.Lib.Monadic
import OpenData.Proofs.Timeseries.Operator
import OpenData.Timeseries.MatrixSelector

/-!
# Every window is that of a fresh scan

The samples of a chunk are requested for the windows of all steps at once (`windowOf_requested`).
A cursor keeps no more than it may: its two positions are not behind the end of the samples up to
the bounds of the last window (`Tracks`). This is kept when the window moves forward, when the
cursor starts again and when a window is empty, and it suffices for the next window to be the one
that a scan from the front finds (`advance_spec`). `packed_foldl` carries it through the loops of a
batch, and `windows_exact` through all calls of `windows`.
-/

namespace OpenData.Timeseries

open Lib List

/-! ### The cursors -/

variable {rangeMs : Int64} {column : List Sample}

namespace SeriesCursor

/-- The cursor is not past the window that it was at last. -/
structure Tracks (rangeMs : Int64) (column : List Sample) (cursor : SeriesCursor) : Prop where
  lo : cursor.lo ≤ reach (atMost (saturatingSub cursor.lastWindowHi rangeMs)) column
  hi : cursor.hi ≤ reach (atMost cursor.lastWindowHi) column

theorem tracks_new (rangeMs : Int64) (column : List Sample) : Tracks rangeMs column new :=
  ⟨Nat.zero_le _, Nat.zero_le _⟩

theorem saturatingSub_mono {a b} (h : a ≤ b) (rangeMs : Int64) :
    saturatingSub a rangeMs ≤ saturatingSub b rangeMs := by
  rw [Int64.le_iff_toInt_le] at h ⊢
  rw [toInt_saturatingSub, toInt_saturatingSub]
  omega

theorem saturatingSub_le (hrange : 0 < rangeMs) (a : Int64) : saturatingSub a rangeMs ≤ a := by
  rw [Int64.lt_iff_toInt_lt] at hrange
  have hzero : (0 : Int64).toInt = 0 := rfl
  have hmin := Int64.le_toInt a
  rw [Int64.le_iff_toInt_le, toInt_saturatingSub]
  omega

theorem advance_spec (hrange : 0 < rangeMs)
    {cursor} (h : Tracks rangeMs column cursor) (effective : Int64) :
    cursor.advance column (saturatingSub effective rangeMs) effective =
      { lo := reach (atMost (saturatingSub effective rangeMs)) column
        hi := reach (atMost effective) column
        lastWindowHi := effective } := by
  -- Where the two loops may start: at the front, or at what the last window has gone past.
  have hstart : ∃ c : SeriesCursor,
      (if effective < cursor.lastWindowHi then { cursor with lo := 0, hi := 0 } else cursor) = c ∧
      c.lo ≤ reach (atMost (saturatingSub effective rangeMs)) column ∧
      c.hi ≤ reach (atMost effective) column := by
    by_cases hback : effective < cursor.lastWindowHi
    · exact ⟨_, if_pos hback, Nat.zero_le _, Nat.zero_le _⟩
    · have hle : cursor.lastWindowHi ≤ effective := Int64.not_lt.mp hback
      refine ⟨_, if_neg hback, Nat.le_trans h.lo ?_, Nat.le_trans h.hi (reach_mono hle _)⟩
      exact reach_mono (saturatingSub_mono hle rangeMs) _
  obtain ⟨c, hc, hlo, hhi⟩ := hstart
  have hwindow := reach_mono (saturatingSub_le hrange effective) column
  unfold advance
  simp only [hc, advancePast_eq hlo]
  split
  · rw [advancePast_eq hwindow, if_neg (Nat.not_lt.mpr hwindow)]
  · rw [advancePast_eq hhi, if_neg (Nat.not_lt.mpr hwindow)]

end SeriesCursor

/-! ### A batch -/

/-- The samples of the window that ends at the effective time, in order and without stale markers.
The lower end is not in the window; it is at least the smallest `i64`. -/
def windowOf (column : List Sample) (effective rangeMs : Int64) : List Sample :=
  column.filter fun s => max (-2 ^ 63) (effective.toInt - rangeMs.toInt) < s.timestampMs.toInt ∧
    s.timestampMs.toInt ≤ effective.toInt ∧ isStaleNan s.value = false

theorem slice_eq_windowOf (h : Ordered column) (hrange : 0 < rangeMs) (effective : Int64) :
    ((column.take (reach (atMost effective) column)).drop
      (reach (atMost (saturatingSub effective rangeMs)) column)).filter
        (fun s => !isStaleNan s.value) = windowOf column effective rangeMs := by
  have hle : ∀ s, atMost (saturatingSub effective rangeMs) s = true → atMost effective s = true :=
    fun s hs => decide_eq_true
      (Int64.le_trans (of_decide_eq_true hs) (SeriesCursor.saturatingSub_le hrange effective))
  rw [Cut.slice (h.cut _) (h.cut _) hle, filter_filter, windowOf]
  refine filter_congr fun s _ => ?_
  have hpos := Int64.lt_iff_toInt_lt.mp hrange
  have hzero : (0 : Int64).toInt = 0 := rfl
  have hbound := Int64.toInt_lt effective
  simp only [atMost, Int64.le_iff_toInt_le, toInt_saturatingSub]
  cases isStaleNan s.value with
  | true => simp
  | false =>
    simp only [Bool.not_false, Bool.true_and, and_true]
    rw [Bool.eq_iff_iff, Bool.and_eq_true, Bool.not_eq_true', decide_eq_false_iff_not,
      decide_eq_true_iff, decide_eq_true_iff]
    omega

namespace MatrixSelectorOp

variable {op : MatrixSelectorOp}

/-- The cells that are done index the windows of their steps and series. -/
structure Packed (op : MatrixSelectorOp) (samples : List (List Sample)) (steps : Span)
    (done : List (Nat × Nat)) (buffers : WindowBuffers) : Prop where
  length_cells : buffers.cells.length = (steps.stop - steps.start) * samples.length
  cell : ∀ c ∈ done, ∃ offset len,
    buffers.cells[c.1 * samples.length + c.2]? =
      some { offset := UInt32.ofNat offset, len := UInt32.ofNat len } ∧
    offset + len ≤ buffers.samples.length ∧
    (buffers.samples.drop offset).take len =
      windowOf (samples.getD c.2 []) (op.effective (steps.start + c.1)) op.rangeMs
  length_cursors : buffers.cursors.length = samples.length
  cursor : ∀ i < samples.length,
    (buffers.cursors.getD i SeriesCursor.new).Tracks op.rangeMs (samples.getD i [])

variable {samples : List (List Sample)} {steps : Span}

theorem Packed.step {done buffers} (h : Packed op samples steps done buffers)
    (hordered : ∀ column ∈ samples, Ordered column) {cell}
    (hcell : cell.1 < steps.stop - steps.start ∧ cell.2 < samples.length)
    (hdone : ∀ c ∈ done, c.2 < samples.length) (hfresh : cell ∉ done) :
    Packed op samples steps (done ++ [cell]) (op.packCell samples steps.start buffers cell) := by
  obtain ⟨hstep, hseries⟩ := hcell
  have hcolumn : Ordered (samples.getD cell.2 []) := by
    rw [getD_eq_getElem _ _ hseries]
    exact hordered _ (getElem_mem hseries)
  have hcursor := SeriesCursor.advance_spec op.range_pos (h.cursor cell.2 hseries)
    (op.effective (steps.start + cell.1))
  have hplace : cell.1 * samples.length + cell.2 < buffers.cells.length :=
    h.length_cells ▸ cell_lt hstep hseries
  unfold packCell
  simp only [hcursor, slice_eq_windowOf hcolumn op.range_pos]
  refine ⟨?_, ?_, ?_, ?_⟩
  · simp only [length_set, h.length_cells]
  · intro c hc
    rcases mem_append.mp hc with hc | hc
    · -- An earlier cell has another place, and its samples stay where they are.
      obtain ⟨offset, len, hget, hle, htake⟩ := h.cell c hc
      have hne : cell.1 * samples.length + cell.2 ≠ c.1 * samples.length + c.2 := fun heq =>
        hfresh (cell_inj hseries (hdone c hc) heq ▸ hc)
      refine ⟨offset, len, ?_, ?_, ?_⟩
      · rw [getElem?_set_ne hne, hget]
      · rw [length_append]
        omega
      · rw [← htake, drop_append_of_le_length (by omega), take_append_of_le_length]
        rw [length_drop]
        omega
    · obtain rfl := mem_singleton.mp hc
      refine ⟨buffers.samples.length, (windowOf (samples.getD c.2 [])
        (op.effective (steps.start + c.1)) op.rangeMs).length, ?_, ?_, ?_⟩
      · rw [getElem?_set_self hplace]
      · rw [length_append]
      · rw [drop_left, take_length]
  · rw [length_set, h.length_cursors]
  · intro i hi
    show ((buffers.cursors.set cell.2 _).getD i SeriesCursor.new).Tracks _ _
    rw [getD_set (h.length_cursors ▸ hseries)]
    split
    next heq =>
      subst heq
      exact ⟨Nat.le_refl _, Nat.le_refl _⟩
    next => exact h.cursor i hi

variable {cursors : List SeriesCursor}

theorem packed_foldl
    (hordered : ∀ column ∈ samples, Ordered column) (hlength : cursors.length = samples.length)
    (htracks : ∀ i < samples.length,
      (cursors.getD i SeriesCursor.new).Tracks op.rangeMs (samples.getD i [])) :
    Packed op samples steps (cellOrder (steps.stop - steps.start) samples.length)
      ((cellOrder (steps.stop - steps.start) samples.length).foldl (op.packCell samples steps.start)
        { samples := []
          cells := List.replicate ((steps.stop - steps.start) * samples.length) .empty
          cursors }) := by
  refine foldl_history (I := Packed op samples steps)
    ⟨length_replicate, by simp, hlength, htracks⟩ ?_
  intro done cell rest buffers hall h
  have hmem : ∀ c ∈ done ++ cell :: rest,
      c.1 < steps.stop - steps.start ∧ c.2 < samples.length := fun c hc =>
    mem_cellOrder.mp (hall ▸ hc)
  have hnodup := nodup_cellOrder (steps.stop - steps.start) samples.length
  rw [hall, nodup_append] at hnodup
  refine h.step hordered (hmem cell (by simp)) (fun c hc => (hmem c (by simp [hc])).2) ?_
  exact fun hin => hnodup.2.2 cell hin cell mem_cons_self rfl

/-! ### The request -/

theorem bounds_effectiveTimes (times : List Int64) :
    let bounds := times.foldl (fun (bounds : Int64 × Int64) t =>
      (if t < bounds.1 then t else bounds.1, if bounds.2 < t then t else bounds.2))
      (Int64.maxValue, Int64.minValue)
    ∀ t ∈ times, bounds.1 ≤ t ∧ t ≤ bounds.2 := by
  refine foldl_history (I := fun done (bounds : Int64 × Int64) =>
    ∀ t ∈ done, bounds.1 ≤ t ∧ t ≤ bounds.2) (by simp) ?_
  intro done t rest bounds _ h t' ht'
  simp only [Int64.le_iff_toInt_le, Int64.lt_iff_toInt_lt] at h ⊢
  rcases mem_append.mp ht' with ht' | ht'
  · have := h t' ht'
    constructor <;> split <;> omega
  · obtain rfl := mem_singleton.mp ht'
    constructor <;> split <;> omega

theorem timeRangeWithRange_eq (hsome : ∃ t ∈ op.effectiveTimes, t ≠ Int64.maxValue) :
    ∃ lowest highest, (∀ t ∈ op.effectiveTimes, lowest ≤ t ∧ t ≤ highest) ∧
      op.timeRangeWithRange =
        ⟨saturatingAdd (saturatingSub lowest op.rangeMs) 1, saturatingAdd highest 1⟩ := by
  have hbounds := bounds_effectiveTimes op.effectiveTimes
  refine ⟨_, _, hbounds, if_neg fun heq => ?_⟩
  obtain ⟨t, ht, htop⟩ := hsome
  have hle := (hbounds t ht).1
  rw [heq] at hle
  exact htop (Int64.le_antisymm (Int64.le_maxValue t) hle)

/-- The request covers the windows of all steps, but not the largest `i64`: its end is not in it. -/
theorem windowOf_requested {k : Nat} (hk : k < op.effectiveTimes.length)
    (hsome : ∃ t ∈ op.effectiveTimes, t ≠ Int64.maxValue) (i : Nat) :
    windowOf (op.requested i) (op.effective k) op.rangeMs =
      windowOf ((op.columns i).filter (·.timestampMs < Int64.maxValue)) (op.effective k)
        op.rangeMs := by
  have hmem : op.effective k ∈ op.effectiveTimes := by
    rw [effective, getD_eq_getElem _ _ hk]
    exact getElem_mem hk
  obtain ⟨lowest, highest, hbounds, hrange⟩ := timeRangeWithRange_eq hsome
  obtain ⟨hlo, hhi⟩ := hbounds _ hmem
  rw [requested, hrange, windowOf, windowOf, filter_filter, filter_filter]
  refine filter_congr fun s _ => ?_
  rw [Bool.eq_iff_iff, Bool.and_eq_true, Bool.and_eq_true]
  refine and_congr_right fun hwindow => ?_
  obtain ⟨habove, hbelow, -⟩ := of_decide_eq_true hwindow
  have hmax : Int64.maxValue.toInt = 2 ^ 63 - 1 := rfl
  have hone : (1 : Int64).toInt = 1 := rfl
  have htop := Int64.toInt_lt s.timestampMs
  simp only [decide_eq_true_iff, Int64.le_iff_toInt_le, Int64.lt_iff_toInt_lt, saturatingAdd] at *
  rw [Int64.toInt_ofInt_of_le (by omega) (by omega), Int64.toInt_ofInt_of_le (by omega) (by omega),
    toInt_saturatingSub]
  omega

/-- In a batch of fewer than 2^32 samples, every cell indexes the samples of its window. The samples
at the largest `i64` are in none. -/
def Exact (op : MatrixSelectorOp) (batch : MatrixWindowBatch) : Prop :=
  batch.samples.length < 2 ^ 32 → ∀ k i, batch.stepRange.contains k → batch.seriesRange.contains i →
    ∃ c, batch.cellIndex k i = some c ∧ c.offset.toNat + c.len.toNat ≤ batch.samples.length ∧
      (batch.samples.drop c.offset.toNat).take c.len.toNat =
        windowOf ((op.columns i).filter (·.timestampMs < Int64.maxValue)) (op.effective k)
          op.rangeMs

theorem length_loadChunk (chunk : Span) :
    (op.loadChunk chunk).length = chunk.stop - chunk.start := by
  rw [loadChunk, length_map, length_range]

theorem getD_loadChunk {chunk i} (hi : i < chunk.stop - chunk.start) :
    (op.loadChunk chunk).getD i [] = op.requested (chunk.start + i) := by
  rw [getD_eq_getElem _ _ (by rw [length_loadChunk]; exact hi)]
  simp [loadChunk]

def Following (op : MatrixSelectorOp) (chunk : Span) (cursors : List SeriesCursor) : Prop :=
  cursors.length = chunk.stop - chunk.start ∧ ∀ i < chunk.stop - chunk.start,
    (cursors.getD i SeriesCursor.new).Tracks op.rangeMs (op.requested (chunk.start + i))

theorem following_new (chunk : Span) :
    op.Following chunk (List.replicate (chunk.stop - chunk.start) SeriesCursor.new) := by
  refine ⟨length_replicate, fun i hi => ?_⟩
  rw [getD_replicate _ hi]
  exact SeriesCursor.tracks_new _ _

theorem exact_build {chunk} (hstop : steps.stop ≤ op.effectiveTimes.length)
    (hsome : ∃ t ∈ op.effectiveTimes, t ≠ Int64.maxValue)
    (hordered : ∀ i, chunk.start ≤ i → i < chunk.stop → Ordered (op.columns i))
    (hfollow : op.Following chunk cursors) :
    op.Exact (op.buildWindowBatch chunk (op.loadChunk chunk) cursors steps).1 ∧
      op.Following chunk (op.buildWindowBatch chunk (op.loadChunk chunk) cursors steps).2 := by
  obtain ⟨hlength, htracks⟩ := hfollow
  have hsorted : ∀ column ∈ op.loadChunk chunk, Ordered column := by
    intro column hcolumn
    obtain ⟨i, hi, rfl⟩ := mem_map.mp hcolumn
    have hlt := mem_range.mp hi
    exact (hordered _ (by omega) (by omega)).filter _
  have hcursors : ∀ i < (op.loadChunk chunk).length,
      (cursors.getD i SeriesCursor.new).Tracks op.rangeMs ((op.loadChunk chunk).getD i []) := by
    intro i hi
    rw [length_loadChunk] at hi
    rw [getD_loadChunk hi]
    exact htracks i hi
  have hpacked := @packed_foldl op (op.loadChunk chunk) steps cursors hsorted
    (by rw [length_loadChunk, hlength]) hcursors
  refine ⟨fun hsmall k i hk hi => ?_, ?_, fun i hi => ?_⟩
  · obtain ⟨hk1, hk2⟩ : steps.start ≤ k ∧ k < steps.stop := Span.contains_iff.mp hk
    obtain ⟨hi1, hi2⟩ : chunk.start ≤ i ∧ i < chunk.stop := Span.contains_iff.mp hi
    have hmem : (k - steps.start, i - chunk.start) ∈
        cellOrder (steps.stop - steps.start) (op.loadChunk chunk).length := by
      rw [mem_cellOrder, length_loadChunk]
      exact ⟨by omega, by omega⟩
    obtain ⟨offset, len, hget, hle, htake⟩ := hpacked.cell _ hmem
    have hoffset : (UInt32.ofNat offset).toNat = offset :=
      UInt32.toNat_ofNat_of_lt'
        (Nat.lt_of_le_of_lt (Nat.le_trans (Nat.le_add_right _ _) hle) hsmall)
    have hlen : (UInt32.ofNat len).toNat = len :=
      UInt32.toNat_ofNat_of_lt' (Nat.lt_of_le_of_lt (Nat.le_trans (Nat.le_add_left _ _) hle) hsmall)
    have hplace : (k - steps.start) * (chunk.stop - chunk.start) + (i - chunk.start) =
        (k - steps.start) * (op.loadChunk chunk).length + (i - chunk.start) := by
      rw [length_loadChunk]
    refine ⟨_, Eq.trans (congrArg (fun n => (op.buildWindowBatch chunk (op.loadChunk chunk) cursors
      steps).1.cells[n]?) hplace) hget, ?_, ?_⟩
    · rw [hoffset, hlen]
      exact hle
    · rw [hoffset, hlen]
      refine htake.trans ?_
      rw [getD_loadChunk (show i - chunk.start < chunk.stop - chunk.start by omega),
        Nat.add_sub_cancel' hi1, Nat.add_sub_cancel' hk1, windowOf_requested (by omega) hsome]
  · exact hpacked.length_cursors.trans (length_loadChunk chunk)
  · have htrack := hpacked.cursor i (by rw [length_loadChunk]; exact hi)
    rwa [getD_loadChunk hi] at htrack

theorem exact_batches (hsome : ∃ t ∈ op.effectiveTimes, t ≠ Int64.maxValue)
    (hordered : ∀ i < op.totalSeries, Ordered (op.columns i)) :
    ∀ batch ∈ op.tiled.batches, op.Exact batch := by
  intro batch hbatch
  have hall := op.tiled.forall_batches (I := op.Following) (P := fun _ _ batch => op.Exact batch)
    following_new fun chunk cursors steps _ hchunk hstop hfollow =>
      exact_build hstop hsome (fun i _ hi => hordered i (Nat.lt_of_lt_of_le hi hchunk)) hfollow
  obtain ⟨_, _, h⟩ := hall batch hbatch
  exact h

/-- The batch has the cell. -/
def covers (k i : Nat) (batch : MatrixWindowBatch) : Bool :=
  batch.seriesRange.contains i && batch.stepRange.contains k

/-- Whatever the calls of `windows` meet, the cells of the batches that they return index the
windows of their steps and series, and no cell comes twice. Without an error all cells have come
when the end is returned, and it is returned when enough calls find the load ready. -/
theorem windows_exact {ε : Type} (op : MatrixSelectorOp)
    (hsome : ∃ t ∈ op.effectiveTimes, t ≠ Int64.maxValue)
    (hordered : ∀ i < op.totalSeries, Ordered (op.columns i)) (calls : List (Answers ε)) :
    let results := (op.tiled.drive .init calls).2
    let batches := results.filterMap Poll.item
    (∀ batch ∈ batches, op.Exact batch) ∧
    (∀ i < op.totalSeries, ∀ k < op.effectiveTimes.length, batches.countP (covers k i) ≤ 1) ∧
    (results.any Poll.isError = false → results.any Poll.isEnd = true →
      ∀ i < op.totalSeries, ∀ k < op.effectiveTimes.length, batches.countP (covers k i) = 1) ∧
    (0 < op.effectiveTimes.length → (∀ a ∈ calls, a.grow = .ok ()) →
      (∀ a ∈ calls, a.load = .pending ∨ a.load = .ready (.ok ())) →
      op.tiled.batches.length < calls.countP (fun a => a.load.isReady) →
      results.any Poll.isError = false ∧ results.any Poll.isEnd = true) := by
  intro results batches
  have hdriven := op.tiled.drive_spec .init calls
  have hcount {i k : Nat} (hi : i < op.totalSeries) (hk : k < op.effectiveTimes.length) :
      op.tiled.batches.countP (covers k i) = 1 :=
    @TiledOp.countP_batches _ _ _ op.tiled (fun b => (b.seriesRange, b.stepRange))
      (fun _ _ _ _ => rfl) i k hi hk
  refine ⟨fun batch hbatch => ?_, fun i hi k hk => ?_, fun herror hend i hi k hk => ?_,
    fun hsteps hgrow hload henough => ⟨?_, ?_⟩⟩
  · exact exact_batches hsome hordered batch (hdriven.first.subset hbatch)
  · exact hdriven.first.sublist.countP_le.trans (hcount hi hk).le
  · rw [show batches = op.tiled.batches from hdriven.all herror hend]
    exact hcount hi hk
  · exact op.tiled.drive_not_isError hgrow hload .init
  · exact op.tiled.drive_ends hsteps .init hgrow hload henough

/-! ### Examples -/

def served : Answers Unit := { load := .ready (.ok ()), grow := .ok () }

namespace Backwards

theorem range_pos : (0 : Int64) < 60 := by decide

def selector : MatrixSelectorOp where
  totalSeries := 2
  columns i := if i = 0 then [⟨10, 1⟩, ⟨40, staleNan⟩, ⟨60, 3⟩, ⟨100, 4⟩] else [⟨50, 5⟩, ⟨50, 6⟩]
  stepTimestamps := [0, 10, 20]
  effectiveTimes := [100, 50, 110]
  hasEffectiveShift := true
  rangeMs := 60
  shape := ⟨2, 1, Nat.two_pos, Nat.one_pos⟩
  range_pos := range_pos

/-- The first call has to wait for the source. -/
def calls : List (Answers Unit) :=
  { load := .pending, grow := .ok () } :: List.replicate 5 served

theorem ordered : ∀ i < selector.totalSeries, Ordered (selector.columns i) := by
  unfold Ordered
  decide

end Backwards

theorem windows_exact_backwards :
    (∀ i < Backwards.selector.totalSeries, Ordered (Backwards.selector.columns i)) ∧
    windowOf (Backwards.selector.columns 0) 50 60 = [⟨10, 1⟩] ∧
    ∀ i < 2, ∀ k < 3, ((Backwards.selector.tiled.drive .init Backwards.calls).2.filterMap
      Poll.item).countP (covers k i) = 1 := by
  obtain ⟨-, -, hall, hends⟩ := windows_exact Backwards.selector
    ⟨100, by decide⟩ Backwards.ordered Backwards.calls
  have hlast := hends (by decide) (by decide) (by decide) (by decide)
  exact ⟨Backwards.ordered, by decide, hall hlast.1 hlast.2⟩

/-- One series with one sample, and windows of one minute. -/
def single (effectiveTimes : List Int64) (timestampMs : Int64) : MatrixSelectorOp where
  totalSeries := 1
  columns _ := [⟨timestampMs, 1⟩]
  stepTimestamps := effectiveTimes
  effectiveTimes := effectiveTimes
  hasEffectiveShift := false
  rangeMs := 60
  shape := ⟨1, 1, Nat.one_pos, Nat.one_pos⟩
  range_pos := Backwards.range_pos

/-- The sample is in the window of the first step, and the first cell is empty. -/
def LeftOut (op : MatrixSelectorOp) : Prop :=
  (op.columns 0).filter (fun s => (op.effective 0).toInt - op.rangeMs.toInt < s.timestampMs.toInt ∧
    s.timestampMs.toInt ≤ (op.effective 0).toInt ∧ isStaleNan s.value = false) = op.columns 0 ∧
  ((op.tiled.drive .init [served]).2.filterMap Poll.item).map (fun batch => batch.cellIndex 0 0) =
    [some ⟨0, 0⟩]

/-- The lower end of a window saturates at the smallest `i64`, and the sample there is not above it.
The end of the request saturates at the largest, and the sample there is not below it. With all
effective times there the request is empty. -/
theorem extreme_samples_left_out : LeftOut (single [Int64.minValue] Int64.minValue) ∧
    LeftOut (single [Int64.maxValue, 0] Int64.maxValue) ∧
    LeftOut (single [Int64.maxValue] (Int64.maxValue - 10)) := by
  simp only [LeftOut]
  decide

end MatrixSelectorOp

end OpenData.Timeseries

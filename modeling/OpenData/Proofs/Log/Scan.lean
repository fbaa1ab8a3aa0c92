import OpenData.Proofs.Log.Db

/-!
# A log returns what was appended

`Returns view appends` says what a view owes its callers: a scan of any key over any range yields
the appended entries of the key in the range, in the order of their sequences, and a listing over
any range of segments returns the keys that have an entry in one of them (`reads_return_appends`).
-/

namespace OpenData.Log

open Lib Common
open OpenData.Sequence (SeqBlock)

/-! ### Ranges -/

section
variable {α : Type} [LE α] [LT α]

def Bound.Starts : Bound α → α → Prop
  | .included s, x => s ≤ x
  | .excluded s, x => s < x
  | .unbounded, _ => True

def Bound.Stops : Bound α → α → Prop
  | .included e, x => x ≤ e
  | .excluded e, x => x < e
  | .unbounded, _ => True

/-- The value is in the range. -/
structure InBounds (lower upper : Bound α) (x : α) : Prop where
  lower : lower.Starts x
  upper : upper.Stops x

theorem normalize_iff {zero max x} {succ : α → α} (hzero : zero ≤ x) (hmax : x < max)
    (hlower : ∀ s, succ s ≤ x ↔ s < x) (hupper : ∀ e, x < succ e ↔ x ≤ e) (lower upper : Bound α) :
    (normalize zero max succ lower upper).1 ≤ x ∧ x < (normalize zero max succ lower upper).2 ↔
      InBounds lower upper x := by
  have hstarts : (normalize zero max succ lower upper).1 ≤ x ↔ lower.Starts x := by
    cases lower with
    | included => exact Iff.rfl
    | excluded s => exact hlower s
    | unbounded => exact iff_of_true hzero trivial
  have hstops : x < (normalize zero max succ lower upper).2 ↔ upper.Stops x := by
    cases upper with
    | included e => exact hupper e
    | excluded => exact Iff.rfl
    | unbounded => exact iff_of_true hmax trivial
  rw [hstarts, hstops]
  exact ⟨fun h => ⟨h.1, h.2⟩, fun h => ⟨h.lower, h.upper⟩⟩

end

theorem normalizeSequence_iff {x} (hx : x < 0xFFFFFFFFFFFFFFFF) (lower upper : Bound UInt64) :
    (normalizeSequence lower upper).1 ≤ x ∧ x < (normalizeSequence lower upper).2 ↔
      InBounds lower upper x := by
  have hmax : (0xFFFFFFFFFFFFFFFF : UInt64).toNat = 2 ^ 64 - 1 := rfl
  have hone : (1 : UInt64).toNat = 1 := rfl
  have hlt := UInt64.lt_iff_toNat_lt.mp hx
  have hsucc : ∀ y : UInt64, (saturatingSucc64 y).toNat = min (y.toNat + 1) (2 ^ 64 - 1) := by
    intro y
    have hy := y.toNat_lt
    unfold saturatingSucc64
    split
    next heq => rw [heq, hmax]; omega
    next hne =>
      have hne : y.toNat ≠ 2 ^ 64 - 1 := fun heq => hne (UInt64.toNat_inj.mp heq)
      rw [UInt64.toNat_add, hone]
      omega
  refine normalize_iff UInt64.zero_le hx ?_ ?_ lower upper
  · intro s
    rw [UInt64.le_iff_toNat_le, UInt64.lt_iff_toNat_lt, hsucc]
    omega
  · intro e
    have he := e.toNat_lt
    rw [UInt64.le_iff_toNat_le, UInt64.lt_iff_toNat_lt, hsucc]
    omega

theorem normalizeSegmentId_iff {x} (hx : x < 0xFFFFFFFF) (lower upper : Bound UInt32) :
    (normalizeSegmentId lower upper).1 ≤ x ∧ x < (normalizeSegmentId lower upper).2 ↔
      InBounds lower upper x := by
  have hmax : (0xFFFFFFFF : UInt32).toNat = 2 ^ 32 - 1 := rfl
  have hone : (1 : UInt32).toNat = 1 := rfl
  have hlt := UInt32.lt_iff_toNat_lt.mp hx
  have hsucc : ∀ y : UInt32, (saturatingSucc32 y).toNat = min (y.toNat + 1) (2 ^ 32 - 1) := by
    intro y
    have hy := y.toNat_lt
    unfold saturatingSucc32
    split
    next heq => rw [heq, hmax]; omega
    next hne =>
      have hne : y.toNat ≠ 2 ^ 32 - 1 := fun heq => hne (UInt32.toNat_inj.mp heq)
      rw [UInt32.toNat_add, hone]
      omega
  refine normalize_iff UInt32.zero_le hx ?_ ?_ lower upper
  · intro s
    rw [UInt32.le_iff_toNat_le, UInt32.lt_iff_toNat_lt, hsucc]
    omega
  · intro e
    have he := e.toNat_lt
    rw [UInt32.le_iff_toNat_le, UInt32.lt_iff_toNat_lt, hsucc]
    omega

/-! ### What a view returns -/

/-- The segment is the last one that starts at or before the sequence. -/
structure Covers (storage : Storage) (segment : LogSegment) (seq : UInt64) : Prop where
  stored : HasSegment storage segment
  started : segment.segmentMeta.startSeq ≤ seq
  last : ∀ a, HasSegment storage a → a.segmentMeta.startSeq ≤ seq →
    a.segmentMeta.startSeq ≤ segment.segmentMeta.startSeq

/-- The view returns the entries of the appends. -/
structure Returns (view : LogReadView) (appends : List Append) : Prop where
  scan : ∀ key lower upper, ∃ es, (view.scan key lower upper).Yields es ∧
    (∀ e, e ∈ es ↔ e.key = key ∧ InBounds lower upper e.sequence ∧ Appended appends e) ∧
    es.Pairwise fun e e' => e.sequence < e'.sequence
  listKeys : ∀ lower upper, ∃ keys, view.listKeys lower upper = .ok keys ∧
    ∀ key, key ∈ keys ↔ ∃ segment e, InBounds lower upper segment.id ∧
      Covers view.storage segment e.sequence ∧ Appended appends e ∧ e.key = key

section
variable {storage : Storage} {block : Option SeqBlock} {appends : List Append} {e : LogEntry}
  {a : LogSegment}

theorem StoredIn.covers (hsep : Separated storage)
    (ha : HasSegment storage a) (hin : StoredIn storage a e) : Covers storage a e.sequence where
  stored := ha
  started := hin.started
  last := by
    intro b hb hstart
    apply UInt64.not_lt.mp
    intro hlt
    exact absurd (hsep a b e ha hb hin hlt) (UInt64.not_lt.mpr hstart)

theorem Covers.unique (hlayout : Layout storage block) {b seq}
    (ha : Covers storage a seq) (hb : Covers storage b seq) : a = b := by
  apply hlayout.eq_of_start ha.stored hb.stored
  exact UInt64.le_antisymm (hb.last a ha.stored ha.started) (ha.last b hb.stored hb.started)

theorem Contents.storedIn_iff (h : Contents storage appends) (hlayout : Layout storage block) :
    HasSegment storage a ∧ StoredIn storage a e ↔
      Covers storage a e.sequence ∧ Appended appends e := by
  constructor
  · intro ⟨ha, hin⟩
    exact ⟨hin.covers h.separated ha, (h.entries e).mp ⟨a, ha, hin⟩⟩
  · intro ⟨hcovers, happended⟩
    obtain ⟨b, hb, hin⟩ := (h.entries e).mpr happended
    obtain rfl := hcovers.unique hlayout (hin.covers h.separated hb)
    exact ⟨hb, hin⟩

theorem Stored.sequence_lt (hlayout : Layout storage block) (h : Stored storage e) :
    e.sequence < 0xFFFFFFFFFFFFFFFF := by
  obtain ⟨a, ha, hin⟩ := h
  have hmem : entryKey a.id e.key (e.sequence - a.segmentMeta.startSeq) ∈ storage :=
    Storage.mem_of_getElem? hin.stored
  obtain ⟨b, hid, hb, hlt⟩ := (hlayout.entries _ _ _ hmem).segment
  obtain rfl := hb.eq_of_id ha hid
  have hfits := hlayout.fits
  have hle := UInt64.le_iff_toNat_le.mp hin.started
  rw [UInt64.toNat_sub_of_le _ _ hin.started] at hlt
  have hmax : (0xFFFFFFFFFFFFFFFF : UInt64).toNat = 2 ^ 64 - 1 := rfl
  rw [UInt64.lt_iff_toNat_lt]
  omega

theorem Contents.returns {view} (h : Contents view.storage appends)
    (hlayout : Layout view.storage block) (hknows : view.segments.Knows view.storage) :
    Returns view appends where
  scan := by
    intro key lower upper
    obtain ⟨es, hyields, hmem, hsorted⟩ := LogIterator.openRange_spec hlayout h.separated hknows key
      (normalizeSequence lower upper).1 (normalizeSequence lower upper).2
    refine ⟨es, hyields, ?_, hsorted⟩
    intro e
    rw [hmem, ← h.entries e]
    -- The range of the caller and the half-open range agree on stored sequences.
    constructor
    · intro ⟨⟨hkey, hstart, hstop⟩, hstored⟩
      exact ⟨hkey, (normalizeSequence_iff (hstored.sequence_lt hlayout) lower upper).mp
        ⟨hstart, hstop⟩, hstored⟩
    · intro ⟨hkey, hbounds, hstored⟩
      obtain ⟨hstart, hstop⟩ :=
        (normalizeSequence_iff (hstored.sequence_lt hlayout) lower upper).mpr hbounds
      exact ⟨⟨hkey, hstart, hstop⟩, hstored⟩
  listKeys := by
    intro lower upper
    obtain ⟨keys, hkeys, hmem⟩ := listKeys_spec hlayout.typed (normalizeSegmentId lower upper).1
      (normalizeSegmentId lower upper).2
    refine ⟨keys, hkeys, ?_⟩
    intro key
    rw [hmem]
    constructor
    · -- A listing was written together with an entry.
      intro ⟨id, hstart, hstop, hlisted⟩
      obtain ⟨a, e, rfl, ha, hin, hkey⟩ := h.listings id key hlisted
      obtain ⟨hcovers, happended⟩ := (h.storedIn_iff hlayout).mp ⟨ha, hin⟩
      exact ⟨a, e, (normalizeSegmentId_iff (hlayout.ids a ha) lower upper).mp ⟨hstart, hstop⟩,
        hcovers, happended, hkey⟩
    · -- The key of a stored entry is listed.
      intro ⟨a, e, hbounds, hcovers, happended, hkey⟩
      obtain ⟨ha, hin⟩ := (h.storedIn_iff hlayout).mpr ⟨hcovers, happended⟩
      obtain ⟨hstart, hstop⟩ := (normalizeSegmentId_iff (hlayout.ids a ha) lower upper).mpr hbounds
      have hmem : entryKey a.id e.key (e.sequence - a.segmentMeta.startSeq) ∈ view.storage :=
        Storage.mem_of_getElem? hin.stored
      exact ⟨a.id, hstart, hstop, hkey ▸ (hlayout.entries _ _ _ hmem).listed⟩

theorem Contents.openStorage (h : Contents storage appends) (hlayout : Layout storage block) :
    ∃ view, LogReadView.openStorage storage = .ok view ∧ Returns view appends := by
  obtain ⟨cache, hopen, hknows⟩ := hlayout.openStorage { sealInterval := none }
  refine ⟨{ storage, segments := cache }, ?_, Contents.returns h hlayout hknows⟩
  simp only [LogReadView.openStorage, hopen]
  rfl

end

/-! ### Runs without failures -/

namespace Db

/-- The call of the storage behind the label succeeds. -/
def failureFree : Label → Prop
  | .append _ (.putErr _) | .append _ (.snapshotErr _) => False
  | .flush error | .refresh error => error = none
  | _ => True

/-- No value of an append wraps. -/
def noWrap (s : State) : Label → Prop
  | .append write outcome => Log.noWrap s.log (.append write outcome)
  | _ => True

instance : (l : Label) → Decidable (failureFree l)
  | .append _ (.putErr _) | .append _ (.snapshotErr _) => isFalse id
  | .flush error | .refresh error => inferInstanceAs (Decidable (error = none))
  | .append _ (.ok _) | .openDb .. | .durable _ | .writtenChanged | .durableChanged | .mark
  | .close => isTrue trivial

instance (s : State) : (l : Label) → Decidable (noWrap s l)
  | .append write outcome => inferInstanceAs (Decidable (Log.noWrap s.log (.append write outcome)))
  | .openDb .. | .flush _ | .durable _ | .writtenChanged | .durableChanged | .refresh _ | .mark
  | .close => isTrue trivial

/-- Without failures every append is stored and acknowledged, and the caches of the writer are not
ahead of the storage. -/
structure AllStored (log : Log.State) : Prop where
  ahead : log.ahead = false
  appends : ∀ a ∈ log.appends, a.stored = true ∧ a.acknowledged = true

theorem allStored_run {ok : State → Label → Prop} (hfree : ∀ s l, ok s l → failureFree l)
    {ls s} (hrun : Run State.step ok State.init ls s) : AllStored s.log := by
  refine hrun.invariant (I := fun s => AllStored s.log) ⟨rfl, by simp [State.init, Log.State.init]⟩
    ?_
  intro s l s' h hok hstep
  have hok := hfree s l hok
  cases move_of_step hstep with
  | openDb hstart =>
    cases Log.move_of_step hstart with
    | start => exact ⟨rfl, h.appends⟩
  | append happend =>
    obtain ⟨w, -, hmove⟩ := appendMove_of_step happend
    cases hmove with
    | nothing => exact ⟨h.ahead, h.appends⟩
    | lost | hidden => exact hok.elim
    | shown _ => exact ⟨h.ahead, forall_mem_snoc h.appends ⟨rfl, rfl⟩⟩
  | flushed hflush | flushFailed hflush =>
    cases Log.move_of_step hflush with
    | flush => exact ⟨h.ahead, h.appends⟩
  | close => exact ⟨h.ahead, h.appends⟩
  | durable | written | durableChanged | refresh | mark => exact h

theorem showsSegments_of_failureFree {ls s}
    (hrun : Run State.step (fun s l => failureFree l ∧ noWrap s l) State.init ls s) :
    Run State.step showsSegments State.init ls s := by
  refine hrun.mono_reachable ?_
  intro ls s l hrun ⟨hfree, hwrap⟩
  have hstored := allStored_run (fun _ _ hok => hok.1) hrun
  cases l with
  | append write outcome =>
    cases outcome with
    | putErr | snapshotErr => exact hfree.elim
    | ok _ => exact ⟨⟨hwrap, fun _ => hstored.ahead⟩, trivial⟩
  | refresh => exact hfree
  | openDb | flush | durable | writtenChanged | durableChanged | mark | close => exact trivial

theorem Follows.returns {views db current} (h : Follows views db current) {log w flushed}
    (hviews : Views log w views flushed) (hunlocked : db.unlocked = true) :
    ∃ v n, views[current]? = some (v, n) ∧ Returns db.readView (log.appends.take n) := by
  have hposition := h.position
  rw [LogDb.pc_of_unlocked hunlocked] at hposition
  obtain ⟨v, n, hv, hknows, -⟩ := hposition
  obtain ⟨v', n', hv', hstorage⟩ := h.storage
  obtain ⟨rfl, rfl⟩ := Prod.mk.inj (Option.mem_unique hv' hv)
  have hholds := hviews.holds _ (List.mem_of_getElem? hv)
  obtain ⟨block, hlayout⟩ := hholds.layout
  refine ⟨v', n', hv, Contents.returns ?_ (hstorage ▸ hlayout) (hstorage ▸ hknows)⟩
  rw [hstorage]
  exact hholds.contents

end Db

/-- In every run of appends, flushes, segment rolls and reopenings without failures, in which no
value wraps: a reader that is opened on the storage, and a log in memory mode whose read view has
caught up with the writer, return exactly the appended entries. -/
theorem reads_return_appends {ls : List Db.Label} {s : Db.State}
    (hrun : Run Db.State.step (fun s l => Db.failureFree l ∧ Db.noWrap s l) Db.State.init ls s) :
    (∀ a ∈ s.log.appends, a.stored = true ∧ a.acknowledged = true) ∧
      (∃ view, LogReadView.openStorage s.log.storage = .ok view ∧ Returns view s.log.appends) ∧
      ∀ db w, s.db = some db → s.log.writer = some w → db.readVisibility = .memory →
        db.unlocked = true → db.Synced (db.syncTarget w) → Returns db.readView s.log.appends := by
  have hstored := Db.allStored_run (fun _ _ hok => hok.1) hrun
  have hshows := Db.showsSegments_of_failureFree hrun
  obtain ⟨ks, hlog⟩ := Db.log_run hshows
  obtain ⟨block, hinv⟩ := logInvariant_run hlog
  obtain ⟨hcontents, -⟩ := contents_run hlog
  refine ⟨hstored.appends, hcontents.openStorage hinv.layout, ?_⟩
  intro db w hdb hw hmemory hunlocked hsynced
  obtain ⟨w', hw', hviews, current, hfollows⟩ := Db.dbInvariant_run hshows db hdb
  obtain rfl := Option.mem_unique hw hw'
  obtain ⟨v, n, hv, hreturns⟩ := hfollows.returns hviews hunlocked
  -- The read view shows the last view of the writer.
  have hcurrent : current = w.epoch := by
    have htarget : db.syncTarget w = w.epoch := by
      rw [LogDb.syncTarget, hmemory]
      exact hviews.watermark
    have hle : db.syncTarget w ≤ current := Nat.le_trans hsynced hfollows.watermark
    have hlt := (List.getElem?_eq_some_iff.mp hv).1
    rw [hviews.length_eq] at hlt
    omega
  obtain ⟨n', hn', hacked⟩ := hviews.written
  rw [← hcurrent] at hn'
  obtain ⟨-, rfl⟩ := Prod.mk.inj (Option.mem_unique hv hn')
  -- The last view holds every acknowledged append, and that is every append.
  have hall : s.log.appends.length ≤ n := by
    apply Nat.le_of_not_lt
    intro hlt
    have hlast : s.log.appends[n]? = some s.log.appends[n] := List.getElem?_eq_getElem hlt
    have hmem := hstored.appends _ (List.getElem_mem hlt)
    exact Nat.lt_irrefl _ (hacked n hlt _ hlast hmem.2)
  rwa [List.take_of_length_le hall] at hreturns

/-- Two batches in two segments, the log is opened again, and a third batch. The read view follows
the writer after the second open. -/
def rolledAndReopened : List Db.Label :=
  [.openDb { sealInterval := some 10 } .memory,
    .append { records := [⟨[107], [1]⟩, ⟨[108], [2]⟩], timestampMs := 0 } (.ok 1),
    .append { records := [⟨[107], [3]⟩], timestampMs := 20 } (.ok 2),
    .close, .openDb { sealInterval := some 10 } .memory,
    .append { records := [⟨[107], [4]⟩], timestampMs := 21 } (.ok 3),
    .append { records := [⟨[107], [5]⟩], timestampMs := 40 } (.ok 4),
    .writtenChanged, .refresh none, .mark]

theorem reads_return_appends_rolledAndReopened :
    ∃ s db, Run Db.State.step (fun s l => Db.failureFree l ∧ Db.noWrap s l) Db.State.init
        rolledAndReopened s ∧
      s.db = some db ∧ s.log.appends.map (fun a => (a.range.start, a.range.stop)) =
        [(0, 2), (2, 3), (4096, 4097), (4097, 4098)] ∧
      (∃ view, LogReadView.openStorage s.log.storage = .ok view ∧ Returns view s.log.appends) ∧
      Returns db.readView s.log.appends := by
  obtain ⟨s, hrun, heval⟩ : ∃ s, Run Db.State.step (fun s l => Db.failureFree l ∧ Db.noWrap s l)
      Db.State.init rolledAndReopened s ∧ s.db.any fun db => s.log.writer.any fun w =>
        s.log.appends.map (fun a => (a.range.start, a.range.stop)) =
          [(0, 2), (2, 3), (4096, 4097), (4097, 4098)] ∧ db.readVisibility = .memory ∧
          db.unlocked = true ∧ db.Synced (db.syncTarget w) :=
    Run.exists_of_check (by decide +kernel)
  simp only [Option.any_eq_true, decide_eq_true_eq] at heval
  obtain ⟨db, hdb, w, hw, happends, hmemory, hunlocked, hsynced⟩ := heval
  obtain ⟨-, hreader, hdbView⟩ := reads_return_appends hrun
  exact ⟨s, db, hrun, hdb, happends, hreader, hdbView db w hdb hw hmemory hunlocked hsynced⟩

end OpenData.Log

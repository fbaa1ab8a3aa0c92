import OpenData.Proofs.Log.Views

/-!
# The read view follows the writer

`Follows views db current` is what the subscriber keeps: the read view shows the snapshot of the
view of epoch `current`, every view that waits in the tracker is a later one, the watermark is not
ahead of `current`, and outside of a refresh the segments of the read view are those of `current`.
-/

namespace OpenData.Log.Db

open Lib Common List
open OpenData.Coordinator (EpochWatermarks)
open OpenData.Sequence (SeqBlock)

/-! ### What a step does -/

/-- What a step of the database can do. -/
inductive Move (s : State) : Label → State → Prop
  | openDb {config visibility log w} : s.log.step (.start config) = some log → log.writer = some w →
      Move s (.openDb config visibility) { s with
        log
        db := some (LogDb.new log.storage w visibility s.durableSeq)
        views := [(w.written, log.appends.length)]
        flushed := log.appends.length }
  | append {write outcome log} : s.log.step (.append write outcome) = some log →
      Move s (.append write outcome) { s with log, views := s.recordView log }
  | flushed {log} : s.log.step (.flush none) = some log →
      Move s (.flush none) { s with log, flushed := log.appends.length }
  | flushFailed {log error} : s.log.step (.flush (some error)) = some log →
      Move s (.flush (some error)) { s with log }
  | durable {seq} : Move s (.durable seq) { s with
      durableSeq := seq
      db := s.db.map fun db =>
        { db with subscriber := { db.subscriber with durableUnseen := true } } }
  | written {db w} : s.db = some db → s.log.writer = some w →
      db.unlocked = true →
        Move s .writtenChanged { s with db := some (db.receiveWritten w.written) }
  | durableChanged {db} : s.db = some db → db.unlocked = true →
      Move s .durableChanged { s with db := some (db.receiveDurable s.durableSeq) }
  | refresh {db entry error} : s.db = some db → db.subscriber.pc = .refreshing entry →
      Move s (.refresh error) { s with db := some (db.refresh entry error) }
  | mark {db entry} : s.db = some db → db.subscriber.pc = .marking entry →
      Move s .mark { s with db := some (db.mark entry) }
  | close : Move s .close { s with log := { s.log with writer := none }, db := none }

theorem move_of_step {s s' l} (h : s.step l = some s') : Move s l s' := by
  cases l with
  | openDb config =>
    simp only [State.step] at h
    cases hlog : s.log.step (.start config) with
    | none => simp [hlog] at h
    | some log =>
      cases hw : log.writer with
      | none => simp [hlog, hw] at h
      | some =>
        simp only [hlog, hw, Option.some.injEq] at h
        exact h ▸ .openDb hlog hw
  | append write outcome =>
    simp only [State.step] at h
    cases hlog : s.log.step (.append write outcome) with
    | none => simp [hlog] at h
    | some =>
      simp only [hlog, Option.some.injEq] at h
      exact h ▸ .append hlog
  | flush error =>
    simp only [State.step] at h
    cases hlog : s.log.step (.flush error) with
    | none => simp [hlog] at h
    | some =>
      simp only [hlog, Option.some.injEq] at h
      cases error with
      | none => exact h ▸ .flushed hlog
      | some => exact h ▸ .flushFailed hlog
  | durable =>
    simp only [State.step, Option.some.injEq] at h
    exact h ▸ .durable
  | writtenChanged =>
    simp only [State.step] at h
    split at h
    next db w hdb hw =>
      split at h
      next hready =>
        cases h
        exact .written hdb hw hready.1
      next => cases h
    next => cases h
  | durableChanged =>
    simp only [State.step] at h
    split at h
    next db hdb =>
      split at h
      next hready =>
        cases h
        exact .durableChanged hdb hready.1
      next => cases h
    next => cases h
  | refresh =>
    simp only [State.step] at h
    split at h
    next db hdb =>
      split at h
      next entry hpc =>
        cases h
        exact .refresh hdb hpc
      all_goals cases h
    next => cases h
  | mark =>
    simp only [State.step] at h
    split at h
    next db hdb =>
      split at h
      next entry hpc =>
        cases h
        exact .mark hdb hpc
      all_goals cases h
    next => cases h
  | close =>
    simp only [State.step, Option.some.injEq] at h
    exact h ▸ .close

/-! ### The subscriber -/

def entryView (entry : ViewEntry) : WrittenView where
  epoch := entry.epoch
  snapshot := entry.snapshot
  seqnum := entry.seqnum
  lastSegmentId := entry.lastSegmentId

def FromViews (views : List (WrittenView × Nat)) (entry : ViewEntry) : Prop :=
  ∃ n, views[entry.epoch]? = some (entryView entry, n)

def SegmentsOf (views : List (WrittenView × Nat)) (cache : SegmentCache) (known : Option UInt32)
    (e : Nat) : Prop :=
  ∃ v n, views[e]? = some (v, n) ∧ cache.Knows v.snapshot ∧ known = v.lastSegmentId

def Position (views : List (WrittenView × Nat)) (cache : SegmentCache) (known : Option UInt32)
    (current : Nat) : SubscriberPc → Prop
  | .waiting => SegmentsOf views cache known current
  | .refreshing entry => entry.epoch = current ∧ FromViews views entry ∧
      ∃ e ≤ current, SegmentsOf views cache known e
  | .marking entry => entry.epoch = current ∧ SegmentsOf views cache known current

/-- The read view is one of the written views, and the subscriber knows the later ones. -/
structure Follows (views : List (WrittenView × Nat)) (db : LogDb) (current : Nat) : Prop where
  seen : current ≤ db.subscriber.seen ∧ db.subscriber.seen < views.length
  pending : ∀ entry ∈ db.subscriber.tracker.pending, FromViews views entry ∧
    current ≤ entry.epoch ∧ entry.epoch ≤ db.subscriber.seen
  ordered : db.subscriber.tracker.pending.Pairwise fun a b => a.epoch ≤ b.epoch
  storage : ∃ v n, views[current]? = some (v, n) ∧ db.readView.storage = v.snapshot
  watermark : db.syncWatermark ≤ current
  position : Position views db.readView.segments db.subscriber.knownSegmentId current
    db.subscriber.pc

variable {entry : ViewEntry} {log : Log.State}

section
variable {views views' : List (WrittenView × Nat)} {db : LogDb} {current : Nat}
  {cache : SegmentCache} {known : Option UInt32}

theorem FromViews.mono (h : FromViews views entry) (hext : views <+: views') :
    FromViews views' entry := by
  obtain ⟨n, hn⟩ := h
  exact ⟨n, getElem?_of_isPrefix hext hn⟩

theorem SegmentsOf.mono {e} (h : SegmentsOf views cache known e)
    (hext : views <+: views') : SegmentsOf views' cache known e := by
  obtain ⟨v, n, hv, hrest⟩ := h
  exact ⟨v, n, getElem?_of_isPrefix hext hv, hrest⟩

theorem Position.mono {pc} (h : Position views cache known current pc)
    (hext : views <+: views') : Position views' cache known current pc := by
  cases pc with
  | waiting => exact SegmentsOf.mono h hext
  | refreshing =>
    obtain ⟨hepoch, hentry, e, hle, hsegments⟩ := h
    exact ⟨hepoch, hentry.mono hext, e, hle, hsegments.mono hext⟩
  | marking => exact ⟨h.1, h.2.mono hext⟩

theorem Follows.mono (h : Follows views db current) (hext : views <+: views') :
    Follows views' db current where
  seen := ⟨h.seen.1, Nat.lt_of_lt_of_le h.seen.2 hext.length_le⟩
  pending := by
    intro entry hentry
    obtain ⟨hfrom, hrest⟩ := h.pending entry hentry
    exact ⟨hfrom.mono hext, hrest⟩
  __ := h
  storage := by
    obtain ⟨v, n, hv, heq⟩ := h.storage
    exact ⟨v, n, getElem?_of_isPrefix hext hv, heq⟩
  position := h.position.mono hext

theorem follows_new {storage w} (hsnapshot : w.written.snapshot = storage)
    (hlast : w.written.lastSegmentId = w.segmentCache.latest.map fun s => s.id)
    (hknows : w.segmentCache.Knows storage) (visibility : ReadVisibility) (durableSeq : UInt64)
    (n : Nat) : Follows [(w.written, n)] (LogDb.new storage w visibility durableSeq) 0 where
  seen := ⟨Nat.le_refl 0, Nat.zero_lt_one⟩
  pending := by simp [LogDb.new, ViewTracker.new]
  ordered := .nil
  storage := ⟨_, _, rfl, hsnapshot.symm⟩
  watermark := by cases visibility <;> exact Nat.le_refl 0
  position := ⟨_, _, rfl, hsnapshot ▸ hknows, hlast.symm⟩

theorem ViewTracker.advance_spec {tracker tracker' : ViewTracker} {seq}
    {entry} (h : tracker.advance seq = (entry, tracker'))
    (hordered : tracker.pending.Pairwise fun a b => a.epoch ≤ b.epoch) :
    (∀ e ∈ tracker'.pending, e ∈ tracker.pending) ∧
      (tracker'.pending.Pairwise fun a b => a.epoch ≤ b.epoch) ∧
      ∀ e ∈ entry, e ∈ tracker.pending ∧ ∀ e' ∈ tracker'.pending, e.epoch ≤ e'.epoch := by
  obtain ⟨rfl, rfl⟩ := Prod.mk.inj h
  have hsplit := takeWhile_append_dropWhile (p := fun e : ViewEntry => e.seqnum ≤ seq)
    (l := tracker.pending)
  rw [← hsplit, pairwise_append] at hordered
  obtain ⟨-, hrest, hbefore⟩ := hordered
  refine ⟨fun e he => dropWhile_subset _ he, hrest, ?_⟩
  intro e he
  have hmem := mem_of_getLast? he
  exact ⟨takeWhile_subset _ hmem, hbefore e hmem⟩

theorem Follows.tryAdvance (h : Follows views db current) (hpc : db.subscriber.pc = .waiting)
    (seq : UInt64) : ∃ current', Follows views (db.tryAdvance seq) current' := by
  obtain ⟨entry, tracker, hadvance⟩ :
      ∃ entry tracker, db.subscriber.tracker.advance seq = (entry, tracker) := ⟨_, _, rfl⟩
  obtain ⟨hsub, hordered, hentry⟩ := ViewTracker.advance_spec hadvance h.ordered
  have hposition := h.position
  rw [hpc] at hposition
  unfold LogDb.tryAdvance
  cases entry with
  | none =>
    refine ⟨current, ?_⟩
    simp only [hadvance]
    exact { h with
      pending := fun e he => h.pending e (hsub e he)
      ordered := hordered
      position := h.position }
  | some entry =>
    -- The read view moves to the entry, the segments stay behind until the refresh.
    obtain ⟨hmem, hbefore⟩ := hentry entry rfl
    obtain ⟨hfrom, hle, hseen⟩ := h.pending entry hmem
    refine ⟨entry.epoch, ?_⟩
    simp only [hadvance]
    exact {
      seen := ⟨hseen, h.seen.2⟩
      pending := by
        intro e he
        obtain ⟨hfrom', -, hseen'⟩ := h.pending e (hsub e he)
        exact ⟨hfrom', hbefore e he, hseen'⟩
      ordered := hordered
      storage := by
        obtain ⟨n, hn⟩ := hfrom
        exact ⟨_, n, hn, rfl⟩
      watermark := Nat.le_trans h.watermark hle
      position := ⟨rfl, hfrom, current, hle, hposition⟩ }

theorem LogDb.pc_of_unlocked (h : db.unlocked = true) : db.subscriber.pc = .waiting := by
  unfold LogDb.unlocked at h
  cases hpc : db.subscriber.pc with
  | waiting => rfl
  | refreshing | marking => simp [hpc, SubscriberPc.isWaiting] at h

/-- A new view is put behind the ones that wait. Other watermarks than the one that `sync_reads`
waits on may change. -/
theorem Follows.push (h : Follows views db current) {entry} (hentry : FromViews views entry)
    (hseen : db.subscriber.seen ≤ entry.epoch) (watermarks : EpochWatermarks)
    (hsync : LogDb.syncWatermark { db with subscriber := { db.subscriber with watermarks } }
      = db.syncWatermark) :
    Follows views { db with subscriber := { db.subscriber with
      seen := entry.epoch, tracker := db.subscriber.tracker.push entry, watermarks } } current where
  seen := by
    obtain ⟨n, hn⟩ := hentry
    exact ⟨Nat.le_trans h.seen.1 hseen, (List.getElem?_eq_some_iff.mp hn).1⟩
  pending := by
    refine forall_mem_snoc ?_ ⟨hentry, Nat.le_trans h.seen.1 hseen, Nat.le_refl _⟩
    intro e he
    obtain ⟨hfrom, hle, hseen'⟩ := h.pending e he
    exact ⟨hfrom, hle, Nat.le_trans hseen' hseen⟩
  ordered := by
    refine pairwise_append.mpr ⟨h.ordered, pairwise_singleton _ _, ?_⟩
    intro e he e' he'
    obtain rfl := mem_singleton.mp he'
    exact Nat.le_trans (h.pending e he).2.2 hseen
  __ := h
  watermark := Nat.le_trans (Nat.le_of_eq hsync) h.watermark

theorem Follows.receiveWritten (h : Follows views db current) (hpc : db.subscriber.pc = .waiting)
    {view n} (hview : views[view.epoch]? = some (view, n))
    (hseen : db.subscriber.seen ≤ view.epoch) :
    ∃ current', Follows views (db.receiveWritten view) current' := by
  have hentry : FromViews views ⟨view.seqnum, view.epoch, view.snapshot, view.lastSegmentId⟩ :=
    ⟨n, hview⟩
  obtain ⟨visibility, readView, subscriber⟩ := db
  cases visibility with
  | memory => exact (h.push hentry hseen subscriber.watermarks rfl).tryAdvance hpc view.seqnum
  | remote =>
    -- The written watermark is not the one that `sync_reads` waits on.
    exact (h.push hentry hseen { subscriber.watermarks with written := view.epoch }
      rfl).tryAdvance hpc subscriber.lastDurableSeq

section

variable (h : Follows views db current)
include h

theorem Follows.congr (durableUnseen : Bool)
    (lastDurableSeq : UInt64) : Follows views { db with subscriber := { db.subscriber with
      durableUnseen, lastDurableSeq } } current where
  __ := h

theorem Follows.receiveDurable (hpc : db.subscriber.pc = .waiting)
    (durableSeq : UInt64) : ∃ current', Follows views (db.receiveDurable durableSeq) current' :=
  (h.congr false durableSeq).tryAdvance hpc durableSeq

theorem Follows.refresh {w flushed}
    (hviews : Views log w views flushed) (hpc : db.subscriber.pc = .refreshing entry) :
    Follows views (db.refresh entry none) current := by
  have hposition := h.position
  rw [hpc] at hposition
  obtain ⟨rfl, ⟨n, hn⟩, e, hle, v, m, hv, hknows, hknown⟩ := hposition
  obtain ⟨v', n', hv', hstorage⟩ := h.storage
  obtain ⟨rfl, rfl⟩ := Prod.mk.inj (Option.mem_unique hv' hn)
  have hholds := hviews.holds _ (mem_of_getElem? hv)
  have hholds' := hviews.holds _ (mem_of_getElem? hn)
  obtain ⟨block, hlayout⟩ := hholds'.layout
  unfold LogDb.refresh
  by_cases hsame : entry.lastSegmentId = db.subscriber.knownSegmentId
  · -- No new segment: the two views have the same ones.
    simp only [hsame, if_true]
    refine ⟨h.seen, h.pending, h.ordered, h.storage, h.watermark, rfl, _, n', hn, ?_, hsame.symm⟩
    have hsegments : SegmentsUpTo log.storage (entryView entry).snapshot v.lastSegmentId := by
      rw [← hknown, ← hsame]
      exact hholds'.segments
    intro start a
    rw [hknows start a, hholds.segments.hasSegment_iff hsegments]
  · obtain ⟨cache, hrefresh, hknows'⟩ := hknows.refresh hlayout hholds.segments hholds'.segments
      (hviews.mono hv hn hle).2 hholds.id_lt
    have hload : db.readView.refreshSegments db.subscriber.knownSegmentId
        = .ok { storage := (entryView entry).snapshot, segments := cache } := by
      simp only [LogReadView.refreshSegments, hknown, hstorage, hrefresh]
      rfl
    simp only [hsame, if_false, hload]
    exact ⟨h.seen, h.pending, h.ordered, ⟨_, n', hn, rfl⟩, h.watermark, rfl, _, n', hn, hknows',
      rfl⟩

theorem Follows.mark (hpc : db.subscriber.pc = .marking entry) :
    Follows views (db.mark entry) current := by
  have hposition := h.position
  rw [hpc] at hposition
  obtain ⟨rfl, hsegments⟩ := hposition
  refine ⟨h.seen, h.pending, h.ordered, h.storage, ?_, hsegments⟩
  cases hvisibility : db.readVisibility <;>
    simp [LogDb.mark, LogDb.syncWatermark, hvisibility]

end

end

/-! ### Runs -/

/-- The writer reports every segment that it stores, and the subscriber loads it: the log keeps up,
no snapshot fails after an append that starts a segment, and no refresh fails. -/
def showsSegments (s : State) : Label → Prop
  | .append write outcome => keepsUp s.log (.append write outcome) ∧
      match outcome with
      | .snapshotErr _ => ∀ w ∈ s.log.writer, (w.prepare write).assignment.isNew = false
      | .putErr _ | .ok _ => True
  | .refresh error => error = none
  | _ => True

instance (s : State) : (l : Label) → Decidable (showsSegments s l)
  | .append write (.snapshotErr _) => inferInstanceAs (Decidable (keepsUp _ _ ∧ ∀ w ∈ s.log.writer,
      (w.prepare write).assignment.isNew = false))
  | .append _ (.putErr _) | .append _ (.ok _) =>
    inferInstanceAs (Decidable (keepsUp _ _ ∧ True))
  | .refresh error => inferInstanceAs (Decidable (error = none))
  | .openDb .. | .flush _ | .durable _ | .writtenChanged | .durableChanged | .mark | .close =>
    isTrue trivial

theorem log_run {s ls} (hrun : Run State.step showsSegments State.init ls s) :
    ∃ ks, Run Log.State.step keepsUp Log.State.init ks s.log := by
  refine hrun.project (fun s => s.log) ?_
  intro s l s' hok hstep
  cases move_of_step hstep with
  | openDb hlog => exact Or.inr ⟨.start _, ⟨trivial, trivial⟩, hlog⟩
  | append hlog => exact Or.inr ⟨_, hok.1, hlog⟩
  | flushed hlog | flushFailed hlog => exact Or.inr ⟨.flush _, ⟨trivial, trivial⟩, hlog⟩
  | close => exact Or.inr ⟨.stop, ⟨trivial, trivial⟩, rfl⟩
  | durable | written | durableChanged | refresh | mark => exact Or.inl rfl

def DbInvariant (s : State) : Prop :=
  ∀ db, s.db = some db → ∃ w, s.log.writer = some w ∧ Views s.log w s.views s.flushed ∧
    ∃ current, Follows s.views db current

section
variable {s : State} {w : LogWriter} {views : List (WrittenView × Nat)} {flushed : Nat}

theorem recordView_old (h : Views s.log w s.views flushed) (w' : LogWriter)
    (hw : log.writer = some w') (hview : w'.written = w.written) : s.recordView log = s.views := by
  obtain ⟨n, hn, -⟩ := h.written
  have hepoch := h.epochs _ _ _ hn
  have hlength := h.length_eq
  rw [State.recordView, hw]
  exact if_pos (by rw [hview]; omega)

theorem recordView_new (h : Views s.log w s.views flushed) {w'}
    (hw : log.writer = some w') (hview : w'.written.epoch = w.epoch + 1) :
    s.recordView log = s.views ++ [(w'.written, log.appends.length)] := by
  have hlength := h.length_eq
  rw [State.recordView, hw]
  exact if_neg (by rw [hview]; omega)

theorem views_append {block} (hinv : LogInvariant block s.log)
    (hviews : Views s.log w s.views flushed) (hw : s.log.writer = some w) {write outcome}
    (hok : showsSegments s (.append write outcome))
    (hmove : AppendMove s.log w write outcome log) (hcontents : Contents log.storage log.appends)
    (hlayout : ∃ block, Layout log.storage block) :
    ∃ w', log.writer = some w' ∧ s.views <+: s.recordView log ∧
      Views log w' (s.recordView log) flushed := by
  obtain ⟨⟨hnowrap, hrestarted⟩, hshown⟩ := hok
  cases hmove with
  | nothing =>
    rw [recordView_old hviews w rfl rfl]
    refine ⟨w, rfl, prefix_refl _, ?_⟩
    exact hviews.grow ⟨rfl, rfl, rfl, rfl⟩ (append_nil _).symm (by simp) (Grows.refl _) hviews.last
  | lost =>
    rw [recordView_old hviews (w.prepare write).writer rfl rfl]
    refine ⟨_, rfl, prefix_refl _, ?_⟩
    exact hviews.grow ⟨rfl, rfl, rfl, rfl⟩ rfl (by simp [appendOf]) (Grows.refl _) hviews.last
  | hidden hne =>
    have hstep := (hinv.running (hrestarted hne) w hw).inStep
    obtain ⟨block', metadata, hspec⟩ := prepare_spec hinv.layout hstep hne (hnowrap hne w hw)
    have hlast := hspec.lastSegment hstep hviews.last
    rw [hshown w hw] at hlast
    rw [recordView_old hviews (w.prepare write).writer rfl rfl]
    refine ⟨_, rfl, prefix_refl _, ?_⟩
    exact hviews.grow ⟨rfl, rfl, rfl, rfl⟩ rfl (by simp [appendOf]) (hspec.grows hstep) hlast
  | shown hne =>
    have hstep := (hinv.running (hrestarted hne) w hw).inStep
    obtain ⟨block', metadata, hspec⟩ := prepare_spec hinv.layout hstep hne (hnowrap hne w hw)
    rw [recordView_new hviews rfl rfl]
    refine ⟨_, rfl, prefix_append _ _, ?_⟩
    exact hviews.append rfl (hspec.grows hstep) rfl rfl rfl rfl rfl rfl
      (hspec.lastSegment hstep hviews.last) hcontents hlayout

theorem views_flush (hviews : Views s.log w s.views s.flushed) (hw : s.log.writer = some w)
    {error} (hstep : s.log.step (.flush error) = some log) :
    ∃ w', log.writer = some w' ∧ Views log w' s.views
      (match error with | none => log.appends.length | some _ => s.flushed) := by
  simp only [Log.State.step, hw, Option.some.injEq] at hstep
  subst hstep
  cases error with
  | none => exact ⟨_, rfl, hviews.flush rfl rfl⟩
  | some =>
    refine ⟨_, rfl, ?_⟩
    exact hviews.grow ⟨rfl, rfl, rfl, rfl⟩ (append_nil _).symm (by simp) (Grows.refl _) hviews.last

end

theorem dbInvariant_run {s ls}
    (hrun : Run State.step showsSegments State.init ls s) : DbInvariant s := by
  refine hrun.invariant_reachable (I := DbInvariant) (by simp [DbInvariant, State.init]) ?_
  intro ls s l s' hrun h hok hstep
  -- What is known of the log before and after the step.
  obtain ⟨ks, hlog⟩ := log_run hrun
  obtain ⟨ks', hlog'⟩ := log_run (hrun.snoc hok hstep)
  obtain ⟨block, hinv⟩ := logInvariant_run hlog
  obtain ⟨block', hinv'⟩ := logInvariant_run hlog'
  obtain ⟨hcontents', -⟩ := contents_run hlog'
  cases move_of_step hstep with
  | openDb hstart hw =>
    intro db hdb
    cases hdb
    cases Log.move_of_step hstart with
    | start _ _ hopen =>
      cases hw
      obtain ⟨cache, hopen', hknows⟩ := hinv.layout.openStorage _
      obtain rfl := Except.ok.inj (hopen.symm.trans hopen')
      exact ⟨_, rfl, views_new hinv'.layout hcontents' hknows _, 0,
        follows_new rfl rfl hknows _ _ _⟩
  | append happend =>
    intro db hdb
    obtain ⟨w, hw, hviews, current, hfollows⟩ := h db hdb
    obtain ⟨w1, hw1, hmove⟩ := appendMove_of_step happend
    obtain rfl := Option.mem_unique hw hw1
    obtain ⟨w', hw', hext, hviews'⟩ :=
      views_append hinv hviews hw hok hmove hcontents' ⟨block', hinv'.layout⟩
    exact ⟨w', hw', hviews', current, hfollows.mono hext⟩
  | flushed hflush | flushFailed hflush =>
    intro db hdb
    obtain ⟨w, hw, hviews, hfollows⟩ := h db hdb
    obtain ⟨w', hw', hviews'⟩ := views_flush hviews hw hflush
    exact ⟨w', hw', hviews', hfollows⟩
  | durable =>
    intro db' hdb'
    obtain ⟨db, hdb, rfl⟩ := Option.map_eq_some_iff.mp hdb'
    obtain ⟨w, hw, hviews, current, hfollows⟩ := h db hdb
    exact ⟨w, hw, hviews, current, hfollows.congr true db.subscriber.lastDurableSeq⟩
  | written hdb hw hunlocked =>
    intro db' hdb'
    cases hdb'
    obtain ⟨w1, hw1, hviews, current, hfollows⟩ := h _ hdb
    obtain rfl := Option.mem_unique hw hw1
    -- The view that is taken is the last one.
    obtain ⟨n, hn, -⟩ := hviews.written
    have hepoch := hviews.epochs _ _ _ hn
    rw [← hepoch] at hn
    have hseen := hfollows.seen.2
    rw [hviews.length_eq, ← hepoch] at hseen
    exact ⟨_, hw, hviews, hfollows.receiveWritten (LogDb.pc_of_unlocked hunlocked) hn
      (Nat.le_of_lt_succ hseen)⟩
  | durableChanged hdb hunlocked =>
    intro db' hdb'
    cases hdb'
    obtain ⟨w, hw, hviews, current, hfollows⟩ := h _ hdb
    exact ⟨w, hw, hviews, hfollows.receiveDurable (LogDb.pc_of_unlocked hunlocked) _⟩
  | refresh hdb hpc =>
    intro db' hdb'
    cases hdb'
    obtain ⟨w, hw, hviews, current, hfollows⟩ := h _ hdb
    obtain rfl : _ = none := hok
    exact ⟨w, hw, hviews, current, hfollows.refresh hviews hpc⟩
  | mark hdb hpc =>
    intro db' hdb'
    cases hdb'
    obtain ⟨w, hw, hviews, current, hfollows⟩ := h _ hdb
    exact ⟨w, hw, hviews, current, hfollows.mark hpc⟩
  | close =>
    intro db hdb
    cases hdb

end OpenData.Log.Db

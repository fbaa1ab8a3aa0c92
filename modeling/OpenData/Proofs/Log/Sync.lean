import OpenData.Proofs.Log.Scan

/-!
# What a scan sees after `sync_reads`

`sync_reads` reads an epoch of the writer and waits until the watermark of the subscriber gets
there. Three states matter: the one in which it is called, the one in which the wait ends, and the
one in which the scan takes the lock of the read view.

* `synced_scan_returns_appends`: what the scan returns if every refresh of the segments succeeds.
* `remote_hides_unflushed`: with remote visibility the wait is for the last flush only.
* `failed_refresh_hides_segment`: the wait also ends when the refresh of the segments failed.
-/

namespace OpenData.Log

open Lib Common List

namespace Db

/-! ### The watermark never falls back -/

section
variable {db : LogDb} (seq : UInt64)

@[simp] theorem tryAdvance_readVisibility :
    (db.tryAdvance seq).readVisibility = db.readVisibility := by
  unfold LogDb.tryAdvance
  split <;> rfl

@[simp] theorem tryAdvance_syncWatermark :
    (db.tryAdvance seq).syncWatermark = db.syncWatermark := by
  unfold LogDb.tryAdvance
  split <;> rfl

@[simp] theorem receiveWritten_readVisibility (view : WrittenView) :
    (db.receiveWritten view).readVisibility = db.readVisibility := by
  unfold LogDb.receiveWritten
  cases db.readVisibility <;> simp

@[simp] theorem receiveWritten_syncWatermark (view : WrittenView) :
    (db.receiveWritten view).syncWatermark = db.syncWatermark := by
  obtain ⟨visibility, readView, subscriber⟩ := db
  cases visibility with
  | memory | remote => exact tryAdvance_syncWatermark _

@[simp] theorem receiveDurable_readVisibility :
    (db.receiveDurable seq).readVisibility = db.readVisibility :=
  tryAdvance_readVisibility seq

@[simp] theorem receiveDurable_syncWatermark :
    (db.receiveDurable seq).syncWatermark = db.syncWatermark :=
  tryAdvance_syncWatermark seq

@[simp] theorem refresh_readVisibility (entry : ViewEntry) (error : Option String) :
    (db.refresh entry error).readVisibility = db.readVisibility := by
  unfold LogDb.refresh
  simp only
  split
  · rfl
  · split <;> rfl

@[simp] theorem refresh_syncWatermark (entry : ViewEntry) (error : Option String) :
    (db.refresh entry error).syncWatermark = db.syncWatermark := by
  unfold LogDb.refresh
  simp only
  split
  · rfl
  · split <;> rfl

end

/-- What has become of the log `s0` in the state `s`, while it was not closed: its views and appends
are still there, and the watermark of its subscriber is at least `target`. -/
structure Since (s0 : State) (visibility : ReadVisibility) (target : Nat) (s : State) : Prop where
  opened : ∃ db, s.db = some db ∧ db.readVisibility = visibility ∧ target ≤ db.syncWatermark
  views : s0.views <+: s.views
  appends : s0.log.appends <+: s.log.appends

variable {s0 s s' : State} {visibility : ReadVisibility} {target : Nat}

theorem isPrefix_recordView (s : State) (log : Log.State) : s.views <+: s.recordView log := by
  unfold State.recordView
  split
  · exact prefix_refl _
  · split
    · exact prefix_refl _
    · exact prefix_append _ _

theorem isPrefix_appends {log log' : Log.State} {l} (h : log.step l = some log') :
    log.appends <+: log'.appends := by
  cases Log.move_of_step h with
  | start | nothing | flush | stop => exact prefix_refl _
  | lost | stored => exact prefix_append _ _

theorem Since.step (h : Since s0 visibility target s) (hinv : DbInvariant s) {l : Label}
    (hopen : l ≠ .close) (hstep : s.step l = some s') : Since s0 visibility target s' := by
  obtain ⟨⟨db, hdb, hvisibility, htarget⟩, hviews, happends⟩ := h
  obtain ⟨w, hw, -, current, hfollows⟩ := hinv db hdb
  cases move_of_step hstep with
  | openDb hstart =>
    -- A log that is open is not opened again.
    cases Log.move_of_step hstart with
    | start hnone =>
      rw [hnone] at hw
      cases hw
  | append happend =>
    exact ⟨⟨db, hdb, hvisibility, htarget⟩, hviews.trans (isPrefix_recordView s _),
      happends.trans (isPrefix_appends happend)⟩
  | flushed hflush | flushFailed hflush =>
    exact ⟨⟨db, hdb, hvisibility, htarget⟩, hviews, happends.trans (isPrefix_appends hflush)⟩
  | durable =>
    have hmap := congrArg (Option.map fun db : LogDb =>
      { db with subscriber := { db.subscriber with durableUnseen := true } }) hdb
    exact ⟨⟨_, hmap, hvisibility, htarget⟩, hviews, happends⟩
  | written hdb' | durableChanged hdb' | refresh hdb' =>
    obtain rfl := Option.mem_unique hdb hdb'
    exact ⟨⟨_, rfl, by simpa using hvisibility, by simpa using htarget⟩, hviews, happends⟩
  | mark hdb' hpc =>
    obtain rfl := Option.mem_unique hdb hdb'
    refine ⟨⟨_, rfl, hvisibility, ?_⟩, hviews, happends⟩
    -- The new watermark is the epoch that the read view shows, and the old one was not ahead.
    have hposition := hfollows.position
    rw [hpc] at hposition
    obtain ⟨rfl, -⟩ := hposition
    have hle := Nat.le_trans htarget hfollows.watermark
    cases hmode : db.readVisibility <;>
      simpa [LogDb.mark, LogDb.syncWatermark, hmode] using hle
  | close => exact absurd rfl hopen

theorem Since.run {ls0 ls s1 s2} (hrun1 : Run State.step showsSegments State.init ls0 s1)
    (hrun2 : Run State.step showsSegments s1 ls s2) (hopen : .close ∉ ls)
    (h : Since s0 visibility target s1) : Since s0 visibility target s2 := by
  induction hrun2 with
  | nil => exact h
  | snoc hrun hok hstep ih =>
    have hbefore := ih fun hmem => hopen (mem_append_left _ hmem)
    refine hbefore.step (dbInvariant_run (hrun1.trans hrun)) ?_ hstep
    rintro rfl
    exact hopen (mem_append_right _ (mem_singleton_self _))

def owed (s : State) (visibility : ReadVisibility) : List Append :=
  match visibility with
  | .memory => s.log.appends
  | .remote => s.log.appends.take s.flushed

theorem syncTarget_holds (db : LogDb) {w} (h : Views s.log w s.views s.flushed) :
    ∃ v n, s.views[db.syncTarget w]? = some (v, n) ∧
      ∀ a ∈ owed s db.readVisibility, a.acknowledged = true →
        ∃ i < n, s.log.appends[i]? = some a := by
  cases hmode : db.readVisibility with
  | memory =>
    obtain ⟨n, hn, hacked⟩ := h.written
    refine ⟨w.written, n, ?_, ?_⟩
    · rw [LogDb.syncTarget, hmode]
      exact h.watermark ▸ hn
    · intro a ha hack
      obtain ⟨i, hi⟩ := List.mem_iff_getElem?.mp ha
      exact ⟨i, hacked i (List.getElem?_eq_some_iff.mp hi).1 a hi hack, hi⟩
  | remote =>
    obtain ⟨v, n, hn, hacked⟩ := h.durable
    refine ⟨v, n, ?_, ?_⟩
    · rw [LogDb.syncTarget, hmode]
      exact hn
    · intro a ha hack
      obtain ⟨i, hi⟩ := List.mem_iff_getElem?.mp ha
      simp only [owed, List.getElem?_take] at hi
      split at hi
      next hlt => exact ⟨i, hacked i hlt a hi hack, hi⟩
      next => cases hi

end Db

/-- A call of `sync_reads` in the state `s0` returns `Ok` in `s1`, and a scan takes the read view in
`s2`. In every run in which the segments are shown and loaded, and for every interleaving, the scan
returns every acknowledged entry from before the call: all of them in memory mode, and those before
the last flush with remote visibility. -/
theorem synced_scan_returns_appends {ls0 ls1 ls2 : List Db.Label} {s0 s1 s2 : Db.State}
    (hrun0 : Run Db.State.step Db.showsSegments Db.State.init ls0 s0)
    (hrun1 : Run Db.State.step Db.showsSegments s0 ls1 s1)
    (hrun2 : Run Db.State.step Db.showsSegments s1 ls2 s2)
    (hopen : .close ∉ ls1 ++ ls2) {db0 db1 db2 : LogDb} {w0 : LogWriter}
    (hdb0 : s0.db = some db0) (hw0 : s0.log.writer = some w0) (hdb1 : s1.db = some db1)
    (hsynced : db1.Synced (db0.syncTarget w0)) (hdb2 : s2.db = some db2)
    (hunlocked : db2.unlocked = true) (key : Bytes) (lower upper : Bound UInt64) :
    ∃ es, (db2.readView.scan key lower upper).Yields es ∧
      (es.Pairwise fun e e' => e.sequence < e'.sequence) ∧
      ∀ a ∈ Db.owed s0 db0.readVisibility, a.acknowledged = true → ∀ i e, a.Has i e →
        e.key = key → InBounds lower upper e.sequence → e ∈ es := by
  rw [mem_append, not_or] at hopen
  -- From the call to the end of the wait, and from there to the scan.
  have hsince0 : Db.Since s0 db0.readVisibility 0 s0 :=
    ⟨⟨db0, hdb0, rfl, Nat.zero_le _⟩, prefix_refl _, prefix_refl _⟩
  obtain ⟨⟨db, hdb, hmode, -⟩, hviews1, happends1⟩ := hsince0.run hrun0 hrun1 hopen.1
  obtain rfl := Option.mem_unique hdb1 hdb
  have hsince1 : Db.Since s0 db0.readVisibility (db0.syncTarget w0) s1 :=
    ⟨⟨db1, hdb1, hmode, hsynced⟩, hviews1, happends1⟩
  obtain ⟨⟨db, hdb, -, htarget⟩, hext, happends⟩ := hsince1.run (hrun0.trans hrun1) hrun2 hopen.2
  obtain rfl := Option.mem_unique hdb2 hdb
  -- The view that the scan reads, and the one that was waited for.
  have hrun := (hrun0.trans hrun1).trans hrun2
  obtain ⟨w2, -, hviews2, current, hfollows⟩ := Db.dbInvariant_run hrun db2 hdb2
  obtain ⟨v, n, hv, hreturns⟩ := hfollows.returns hviews2 hunlocked
  obtain ⟨w, hw, hviews0, -⟩ := Db.dbInvariant_run hrun0 db0 hdb0
  obtain rfl := Option.mem_unique hw0 hw
  obtain ⟨v0, n0, hv0, howed⟩ := Db.syncTarget_holds db0 hviews0
  have hle : n0 ≤ n := (hviews2.mono (getElem?_of_isPrefix hext hv0) hv
    (Nat.le_trans htarget hfollows.watermark)).1
  obtain ⟨es, hyields, hmem, hsorted⟩ := hreturns.scan key lower upper
  refine ⟨es, hyields, hsorted, ?_⟩
  intro a ha hacked i e hhas hkey hbounds
  obtain ⟨j, hj, hja⟩ := howed a ha hacked
  refine (hmem e).mpr ⟨hkey, hbounds, a, ?_, ?_, i, hhas⟩
  · -- The append is one of the first `n`.
    apply mem_of_getElem? (i := j)
    rw [getElem?_take, if_pos (Nat.lt_of_lt_of_le hj hle)]
    exact getElem?_of_isPrefix happends hja
  · obtain ⟨ks, hlog⟩ := Db.log_run hrun0
    obtain ⟨block, hinv⟩ := logInvariant_run hlog
    exact hinv.acknowledged a (mem_of_getElem? hja) hacked

def flushedThenCalled : List Db.Label :=
  [.openDb { sealInterval := some 10 } .remote,
    .append { records := [⟨[107], [1]⟩], timestampMs := 0 } (.ok 1),
    .append { records := [⟨[107], [2]⟩], timestampMs := 20 } (.ok 2), .flush none,
    .append { records := [⟨[107], [3]⟩], timestampMs := 21 } (.ok 3)]

def waited : List Db.Label :=
  [.writtenChanged, .durable 2, .durableChanged, .durable 3, .durableChanged, .refresh none, .mark]

theorem synced_scan_returns_appends_flushed : ∃ s0 s1 s2 db2,
      Run Db.State.step Db.showsSegments Db.State.init flushedThenCalled s0 ∧
      Run Db.State.step Db.showsSegments s0 waited s1 ∧
      Run Db.State.step Db.showsSegments s1 [.flush none] s2 ∧ s2.db = some db2 ∧
      ∃ es, (db2.readView.scan [107] .unbounded .unbounded).Yields es ∧
        ⟨[107], 0, [1]⟩ ∈ es ∧ ⟨[107], 1, [2]⟩ ∈ es := by
  have heval : (flushedThenCalled.foldlM (fun s l =>
      if decide (Db.showsSegments s l) then s.step l else none) Db.State.init).any fun s0 =>
      (waited.foldlM (fun s l =>
        if decide (Db.showsSegments s l) then s.step l else none) s0).any fun s1 =>
      ([Db.Label.flush none].foldlM (fun s l =>
        if decide (Db.showsSegments s l) then s.step l else none) s1).any fun s2 =>
      s0.db.any fun db0 => s0.log.writer.any fun w0 => s1.db.any fun db1 => s2.db.any fun db2 =>
        decide (db1.Synced (db0.syncTarget w0) ∧ db2.unlocked = true ∧
          Db.owed s0 db0.readVisibility =
            [{ range := ⟨0, 1⟩, records := [⟨[107], [1]⟩], stored := true, acknowledged := true },
            { range := ⟨1, 2⟩, records := [⟨[107], [2]⟩], stored := true, acknowledged := true }])
      := by
    decide +kernel
  simp only [Option.any_eq_true, decide_eq_true_eq] at heval
  obtain ⟨s0, hs0, s1, hs1, s2, hs2, db0, hdb0, w0, hw0, db1, hdb1, db2, hdb2, hsynced,
    hunlocked, howed⟩ := heval
  have hrun0 : Run Db.State.step Db.showsSegments Db.State.init flushedThenCalled s0 :=
    Run.of_check (fun s l h => of_decide_eq_true h) (by simpa using hs0)
  have hrun1 : Run Db.State.step Db.showsSegments s0 waited s1 :=
    Run.of_check (fun s l h => of_decide_eq_true h) (by simpa using hs1)
  have hrun2 : Run Db.State.step Db.showsSegments s1 [.flush none] s2 :=
    Run.of_check (fun s l h => of_decide_eq_true h) (by simpa using hs2)
  obtain ⟨es, hyields, -, hmem⟩ := synced_scan_returns_appends hrun0 hrun1 hrun2 (by decide) hdb0
    hw0 hdb1 hsynced hdb2 hunlocked [107] .unbounded .unbounded
  rw [howed] at hmem
  refine ⟨s0, s1, s2, db2, hrun0, hrun1, hrun2, hdb2, es, hyields, ?_, ?_⟩
  · exact hmem _ (List.mem_cons_self) rfl 0 _ ⟨rfl, rfl⟩ rfl ⟨trivial, trivial⟩
  · exact hmem _ (List.mem_cons_of_mem _ List.mem_cons_self) rfl 0 _ ⟨rfl, rfl⟩ rfl
      ⟨trivial, trivial⟩

/-! ### What a scan can miss -/

def LogIterator.startsEmpty (it : LogIterator) : Bool :=
  match it.next with
  | .ok (none, _) => true
  | _ => false

theorem LogIterator.yields_nil {it : LogIterator} (h : it.startsEmpty = true) : it.Yields [] := by
  unfold LogIterator.startsEmpty at h
  split at h
  next it' hnext => exact .done hnext
  next => cases h

/-- An append that was acknowledged before a call of `sync_reads`, and a scan that does not return
its entry although the call returned `Ok`. -/
structure Missed (s : Db.State) (db : LogDb) : Prop where
  opened : s.db = some db
  synced : ∃ w, s.log.writer = some w ∧ db.Synced (db.syncTarget w)
  unlocked : db.unlocked = true
  acknowledged : s.log.appends =
    [{ range := ⟨0, 1⟩, records := [⟨[107], [1]⟩], stored := true, acknowledged := true }]
  scan : (db.readView.scan [107] .unbounded .unbounded).Yields []

theorem missed_of_eval {ls : List Db.Label} (h : (ls.foldlM Db.State.step Db.State.init).any
    fun s => s.db.any fun db => s.log.writer.any fun w =>
      decide (db.Synced (db.syncTarget w) ∧ db.unlocked = true ∧ s.log.appends =
        [{ range := ⟨0, 1⟩, records := [⟨[107], [1]⟩], stored := true, acknowledged := true }] ∧
        (db.readView.scan [107] .unbounded .unbounded).startsEmpty = true)) :
    ∃ s db, Run Db.State.step anyStep Db.State.init ls s ∧ Missed s db := by
  simp only [Option.any_eq_true, decide_eq_true_eq] at h
  obtain ⟨s, hs, db, hdb, w, hw, hsynced, hunlocked, happends, hscan⟩ := h
  exact ⟨s, db, Run.of_foldlM hs, hdb, ⟨w, hw, hsynced⟩, hunlocked, happends,
    LogIterator.yields_nil hscan⟩

/-- With remote visibility a call of `sync_reads` waits for the last flush only. What was appended
since then is not returned. -/
theorem remote_hides_unflushed : ∃ s db, Run Db.State.step anyStep Db.State.init
      [.openDb { sealInterval := none } .remote,
        .append { records := [⟨[107], [1]⟩], timestampMs := 0 } (.ok 1), .writtenChanged] s ∧
      Missed s db :=
  missed_of_eval (by decide +kernel)

/-- The watermark of the subscriber also advances when the refresh of the segments fails, and the
scan then misses the whole segment that the append started. -/
theorem failed_refresh_hides_segment : ∃ s db, Run Db.State.step anyStep Db.State.init
      [.openDb { sealInterval := none } .memory,
        .append { records := [⟨[107], [1]⟩], timestampMs := 0 } (.ok 1), .writtenChanged,
        .refresh (some "unavailable"), .mark] s ∧
      Missed s db :=
  missed_of_eval (by decide +kernel)

end OpenData.Log

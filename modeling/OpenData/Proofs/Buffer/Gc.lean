import OpenData.Buffer.Gc
import OpenData.Proofs.Buffer.History

/-!
# The collector deletes no file that is needed

A collector takes the time before it reads the manifest, so a candidate whose grace period was over
at that time can no longer be enqueued when the manifest is read. If the manifest does not list it
then, it never will. `Settled` says this of a file: the manifest does not reference it, and its
grace period is over. `Advances` is what every step of the world does to the references and the
clock, and a settled file stays settled under it (`gc_safe`, `referenced_files_exist`).
-/

namespace OpenData.Buffer

open Lib List World

/-- The assumptions, with entries that fit. -/
def gcFits (cfg : GcConfig) (w : World) (e : WorldEvent) : Prop :=
  gcAssumptions cfg w e ∧ ∀ l, e = .queue l → enqueueFits w.queue l

def Queue.locations (q : Queue) : List String := q.entries.map QueueEntry.location

def World.locations (w : World) : List String := (Queue.after w.queue.committed).locations

variable {cfg : GcConfig} {w w' : World} {e : WorldEvent} {es : List WorldEvent} {path : String}
  {now : Nat} {manifest : ManifestSnapshot} {object : Cell Bytes} {q : Queue}

/-! ### What one step does -/

/-- What a step of the world can do. -/
inductive Occurs (cfg : GcConfig) (w : World) : WorldEvent → World → Prop
  | queue {l queue'} (hstep : w.queue.step l = some queue') :
      Occurs cfg w (.queue l) { w with queue := queue' }
  | tick {now : Nat} (hnow : w.clock ≤ now) : Occurs cfg w (.tick now) { w with clock := now }
  | put {path : String} : Occurs cfg w (.put path)
      { w with files := path :: w.files, written := path :: w.written }
  | takeNow {g} : Occurs cfg w (.takeNow g) (w.setCollector g (some (.started w.clock)))
  | readManifest {g now manifest} (hg : w.collectors g = some (.started now))
      (hm : cfg.readManifestSnapshot w.queue.object = .ok manifest) :
      Occurs cfg w (.readManifest g) (w.setCollector g (some (.listing now manifest [])))
  | candidate {g now manifest toDelete path}
      (hg : w.collectors g = some (.listing now manifest toDelete)) (hfile : path ∈ w.files)
      (hcand : cfg.isCandidate now manifest path = true) :
      Occurs cfg w (.list g path)
        (w.setCollector g (some (.listing now manifest (toDelete ++ [path]))))
  | skipped {g path} : Occurs cfg w (.list g path) w
  | endList {g now manifest toDelete}
      (hg : w.collectors g = some (.listing now manifest toDelete)) :
      Occurs cfg w (.endList g) (w.setCollector g (some (.deleting toDelete)))
  | delete {g toDelete path}
      (hg : w.collectors g = some (.deleting toDelete)) (hmem : path ∈ toDelete) :
      Occurs cfg w (.delete g path)
        { w with files := w.files.erase path, deleted := path :: w.deleted }
  | stopped {e g} : Occurs cfg w e (w.setCollector g none)

theorem occurs_of_step (h : w.step cfg e = some w') : Occurs cfg w e w' := by
  cases e with
  | queue =>
    simp only [step] at h
    split at h
    · rename_i queue' hstep
      cases h
      exact Occurs.queue hstep
    · cases h
  | tick =>
    simp only [step] at h
    split at h
    · rename_i hnow
      cases h
      exact Occurs.tick hnow
    · cases h
  | put =>
    cases h
    exact Occurs.put
  | takeNow =>
    simp only [step] at h
    split at h
    · cases h
      exact Occurs.takeNow
    · cases h
  | readManifest =>
    simp only [step] at h
    split at h
    · rename_i now hg
      split at h <;> cases h
      · rename_i manifest hm
        exact Occurs.readManifest hg hm
      · exact Occurs.stopped
    · cases h
  | list =>
    simp only [step] at h
    split at h
    · rename_i now manifest toDelete hg
      split at h
      · rename_i hfile
        split at h <;> cases h
        · rename_i hcand
          exact Occurs.candidate hg hfile hcand
        · exact Occurs.skipped
      · cases h
    · cases h
  | endList =>
    simp only [step] at h
    split at h
    · rename_i now manifest toDelete hg
      cases h
      exact Occurs.endList hg
    · cases h
  | delete =>
    simp only [step] at h
    split at h
    · rename_i toDelete hg
      split at h
      · rename_i hmem
        cases h
        exact Occurs.delete hg hmem
      · cases h
    · cases h
  | finish =>
    simp only [step] at h
    split at h
    · cases h
      exact Occurs.stopped
    · cases h

theorem queue_run_of_world (hrun : Run (step cfg) (gcFits cfg) init es w) :
    ∃ ls, Run State.step enqueueFits State.init ls w.queue := by
  refine hrun.project queue ?_
  intro w e w' hok hstep
  cases occurs_of_step hstep with
  | @queue l queue' hqueue => exact Or.inr ⟨l, hok.2 l rfl, hqueue⟩
  | tick | put | takeNow | readManifest | candidate | skipped | endList | delete | stopped =>
    exact Or.inl rfl

/-! ### References -/

theorem mem_locations_of_references (hq : Linearized w.queue) (h : w.References path) :
    path ∈ w.locations := by
  obtain ⟨m, version, entry, hread, hitem, rfl⟩ := h
  obtain ⟨m', version', hread', hrep⟩ := Holds.read hq
  obtain ⟨rfl, -⟩ := Prod.mk.inj (Except.ok.inj (hread.symm.trans hread'))
  rw [hrep.items_eq] at hitem
  obtain ⟨entry', hmem, heq⟩ := mem_map.mp hitem
  cases heq
  exact mem_map_of_mem hmem

theorem locations_of_snapshot (hq : Holds object q)
    (hm : cfg.readManifestSnapshot object = .ok manifest) : manifest.locations = q.locations := by
  obtain ⟨m, version, hread, hrep⟩ := hq.read
  simp only [GcConfig.readManifestSnapshot, hread, bind, Except.bind, hrep.entries_eq,
    Except.ok.injEq] at hm
  subst hm
  rfl

theorem mem_locations_apply {call} (h : path ∈ (q.apply call).locations) :
    path ∈ q.locations ∨ ∃ metadata, call = .enqueue path metadata := by
  cases call with
  | enqueue location metadata =>
    rw [Queue.locations, Queue.apply, Queue.append, map_append, mem_append] at h
    rcases h with h | h
    · exact Or.inl h
    · obtain rfl := mem_singleton.mp h
      exact Or.inr ⟨metadata, rfl⟩
  | initializeConsumer | peek | read => exact Or.inl h
  | dequeue c throughSequence =>
    obtain ⟨entry, hmem, rfl⟩ := mem_map.mp h
    exact Or.inl (mem_map_of_mem ((dropWhile_sublist _).mem hmem))

theorem mem_locations_step {s s' l} (htraced : AllTraced s)
    (hstep : s.step l = some s') (h : path ∈ (Queue.after s'.committed).locations) :
    path ∈ (Queue.after s.committed).locations ∨
      ∃ op, l = .put op ∧ path ∈ (s.ops op).bind Op.location? := by
  rcases step_object htraced hstep with ⟨-, hcommitted⟩ | ⟨op, call, m0, m, reply, rfl, hc⟩
  · rw [hcommitted] at h
    exact Or.inl h
  · rw [hc.committed, Queue.after_append] at h
    rcases mem_locations_apply h with hold | ⟨metadata, rfl⟩
    · exact Or.inl hold
    · obtain ⟨version, hop⟩ := hc.waiting
      refine Or.inr ⟨op, rfl, ?_⟩
      rw [hop]
      rfl

/-! ### Files that are settled -/

def GcConfig.Expired (cfg : GcConfig) (clock : Nat) (path : String) : Prop :=
  ∃ ts ∈ cfg.extractUlidTimestamp path, ts + cfg.gcGracePeriod ≤ clock

theorem GcConfig.Expired.mono {clock clock'} (h : cfg.Expired clock path)
    (hle : clock ≤ clock') : cfg.Expired clock' path := by
  obtain ⟨ts, hts, hover⟩ := h
  exact ⟨ts, hts, Nat.le_trans hover hle⟩

/-- An expired path does not get into the manifest any more. -/
structure Advances (cfg : GcConfig) (w w' : World) : Prop where
  clock : w.clock ≤ w'.clock
  locations : ∀ path, cfg.Expired w.clock path → path ∈ w'.locations → path ∈ w.locations

/-- The path may be deleted: it is expired and not in the manifest. -/
structure Settled (cfg : GcConfig) (w : World) (path : String) : Prop where
  unreferenced : path ∉ w.locations
  expired : cfg.Expired w.clock path

theorem Settled.mono (h : Settled cfg w path) (hadv : Advances cfg w w') : Settled cfg w' path where
  unreferenced := fun hmem => h.unreferenced (hadv.locations path h.expired hmem)
  expired := h.expired.mono hadv.clock

theorem advances_of_same (hclock : w'.clock = w.clock) (hqueue : w'.queue = w.queue) :
    Advances cfg w w' where
  clock := Nat.le_of_eq hclock.symm
  locations := by
    intro path _ hmem
    rwa [locations, hqueue] at hmem

theorem Occurs.advances (h : Occurs cfg w e w') (hok : gcAssumptions cfg w e)
    (htraced : AllTraced w.queue) : Advances cfg w w' := by
  cases h with
  | @queue l queue' hstep =>
    refine ⟨Nat.le_refl _, ?_⟩
    intro path hexpired hmem
    rcases mem_locations_step htraced hstep hmem with hold | ⟨op, rfl, hpath⟩
    · exact hold
    · -- An enqueue of the file would commit after its grace period.
      obtain ⟨ts, hts, hlt⟩ := hok path hpath
      obtain ⟨ts', hts', hle⟩ := hexpired
      obtain rfl : ts = ts' := Option.mem_unique hts hts'
      omega
  | tick hnow => exact ⟨hnow, fun _ _ hmem => hmem⟩
  | put | takeNow | readManifest | candidate | skipped | endList | delete | stopped =>
    exact advances_of_same rfl rfl

/-! ### What a collector relies on -/

/-- What a collector relies on: what its snapshot does not list and was expired when it started is
not referenced now, and what it collected is settled. -/
def Careful (cfg : GcConfig) (w : World) : Collector → Prop
  | .started now => now ≤ w.clock
  | .listing now manifest toDelete => now ≤ w.clock ∧
      (∀ path, cfg.Expired now path → path ∉ manifest.locations → path ∉ w.locations) ∧
      ∀ path ∈ toDelete, Settled cfg w path
  | .deleting toDelete => ∀ path ∈ toDelete, Settled cfg w path

theorem Careful.mono {c} (h : Careful cfg w c) (hadv : Advances cfg w w') :
    Careful cfg w' c := by
  cases c with
  | started => exact Nat.le_trans h hadv.clock
  | listing =>
    obtain ⟨hnow, hlisted, hsettled⟩ := h
    refine ⟨Nat.le_trans hnow hadv.clock, ?_, ?_⟩
    · intro path hexpired hmanifest hmem
      exact hlisted path hexpired hmanifest (hadv.locations path (hexpired.mono hnow) hmem)
    · intro path hmem
      exact (hsettled path hmem).mono hadv
  | deleting =>
    intro path hmem
    exact (h path hmem).mono hadv

/-- The names of files carry past times, only files are enqueued and only within a grace period,
the collectors may rely on what they read, and what was deleted is settled. -/
structure GcInvariant (cfg : GcConfig) (w : World) : Prop where
  named : ∀ path ∈ w.written, ∃ ts ∈ cfg.extractUlidTimestamp path, ts ≤ w.clock
  files : ∀ path ∈ w.files, path ∈ w.written
  enqueued : ∀ op, ∀ path ∈ (w.queue.ops op).bind Op.location?, path ∈ w.written
  grace : ∀ path ∈ w.locations, 0 < cfg.gcGracePeriod
  collectors : ∀ g c, w.collectors g = some c → Careful cfg w c
  deleted : ∀ path ∈ w.deleted, Settled cfg w path

theorem isCandidate_eq_true (h : cfg.isCandidate now manifest path = true) :
    path ∉ manifest.locations ∧
      ∃ ts ∈ cfg.extractUlidTimestamp path, cfg.gcGracePeriod ≤ now - ts := by
  cases hts : cfg.extractUlidTimestamp path with
  | none => simp [GcConfig.isCandidate, hts] at h
  | some ts =>
    simp only [GcConfig.isCandidate, hts] at h
    split_ifs at h with holdest hage hmem
    exact ⟨hmem, ts, rfl, Nat.le_of_not_lt hage⟩

theorem GcInvariant.settled_of_candidate {toDelete} (h : GcInvariant cfg w)
    (hc : Careful cfg w (.listing now manifest toDelete)) (hfile : path ∈ w.files)
    (hcand : cfg.isCandidate now manifest path = true) : Settled cfg w path := by
  obtain ⟨hmanifest, ts, hts, hage⟩ := isCandidate_eq_true hcand
  obtain ⟨hnow, hlisted, -⟩ := hc
  by_cases hpast : ts ≤ now
  · have hexpired : cfg.Expired now path := ⟨ts, hts, by omega⟩
    exact ⟨hlisted path hexpired hmanifest, hexpired.mono hnow⟩
  · -- The age of a file from after the start counts as zero: it passes only without a grace
    -- period, and then nothing is ever enqueued.
    have hzero : cfg.gcGracePeriod = 0 := by omega
    refine ⟨?_, ?_⟩
    · intro hmem
      have hpos := h.grace path hmem
      omega
    · obtain ⟨ts', hts', hle⟩ := h.named path (h.files path hfile)
      exact ⟨ts', hts', by omega⟩

theorem gcInvariant_init : GcInvariant cfg init where
  named := nofun
  files := nofun
  enqueued := nofun
  grace := nofun
  collectors := nofun
  deleted := nofun

theorem GcInvariant.carry (h : GcInvariant cfg w) (hadv : Advances cfg w w') :
    (∀ g c, w.collectors g = some c → Careful cfg w' c) ∧
      ∀ path ∈ w.deleted, Settled cfg w' path := by
  constructor
  · intro g c hg
    exact (h.collectors g c hg).mono hadv
  · intro path hmem
    exact (h.deleted path hmem).mono hadv

theorem GcInvariant.setCollector {g c} (h : GcInvariant cfg w)
    (hc : ∀ c', c = some c' → Careful cfg w c') : GcInvariant cfg (w.setCollector g c) := by
  have hadv : Advances cfg w (w.setCollector g c) := advances_of_same rfl rfl
  obtain ⟨hcollectors, hdeleted⟩ := h.carry hadv
  refine ⟨h.named, h.files, h.enqueued, h.grace, ?_, hdeleted⟩
  intro g' c' hg'
  have hupdate : Function.update w.collectors g c g' = some c' := hg'
  by_cases hne : g' = g
  · subst hne
    rw [Function.update_self] at hupdate
    exact (hc c' hupdate).mono hadv
  · rw [Function.update_of_ne hne] at hupdate
    exact hcollectors g' c' hupdate

/-- A step of the queue: a started enqueue is one of a file, and a commit is within the grace
period of its file. -/
theorem GcInvariant.queue {l queue'} (h : GcInvariant cfg w)
    (hstep : w.queue.step l = some queue') (hok : gcAssumptions cfg w (.queue l))
    (htraced : AllTraced w.queue) : GcInvariant cfg { w with queue := queue' } := by
  have hoccurs : Occurs cfg w (.queue l) { w with queue := queue' } := Occurs.queue hstep
  obtain ⟨hcollectors, hdeleted⟩ := h.carry (hoccurs.advances hok htraced)
  refine ⟨h.named, h.files, ?_, ?_, hcollectors, hdeleted⟩
  · intro op path hpath
    obtain ⟨⟨call, pc⟩, hop, hcall⟩ := Option.bind_eq_some_iff.mp hpath
    have horigin : queue'.ops op = some ⟨call, pc⟩ := hop
    rcases (move_of_step hstep).call_origin horigin with ⟨pc0, hop0⟩ | rfl
    · refine h.enqueued op path ?_
      rw [hop0]
      exact hcall
    · cases call with
      | enqueue location =>
        obtain rfl : location = path := Option.some.inj hcall
        exact hok
      | initializeConsumer | peek | read | dequeue => cases hcall
  · intro path hmem
    rcases mem_locations_step htraced hstep hmem with hold | ⟨op, rfl, hpath⟩
    · exact h.grace path hold
    · obtain ⟨ts, hts, hlt⟩ := hok path hpath
      obtain ⟨ts', hts', hle⟩ := h.named path (h.enqueued op path hpath)
      obtain rfl : ts = ts' := Option.mem_unique hts hts'
      omega

theorem GcInvariant.step (h : GcInvariant cfg w) (hok : gcAssumptions cfg w e)
    (hlin : Linearized w.queue) (htraced : AllTraced w.queue) (hoccurs : Occurs cfg w e w') :
    GcInvariant cfg w' := by
  obtain ⟨hcollectors, hdeleted⟩ := h.carry (hoccurs.advances hok htraced)
  cases hoccurs with
  | queue hstep => exact h.queue hstep hok htraced
  | tick hnow =>
    refine ⟨?_, h.files, h.enqueued, h.grace, hcollectors, hdeleted⟩
    intro path hmem
    obtain ⟨ts, hts, hle⟩ := h.named path hmem
    exact ⟨ts, hts, Nat.le_trans hle hnow⟩
  | put =>
    refine ⟨?_, ?_, ?_, h.grace, hcollectors, hdeleted⟩
    · intro path' hmem
      rcases mem_cons.mp hmem with rfl | hmem
      · exact hok.2
      · exact h.named path' hmem
    · intro path' hmem
      rcases mem_cons.mp hmem with rfl | hmem
      · exact mem_cons_self
      · exact mem_cons_of_mem _ (h.files path' hmem)
    · intro op path' hpath
      exact mem_cons_of_mem _ (h.enqueued op path' hpath)
  | takeNow =>
    refine h.setCollector ?_
    rintro _ ⟨⟩
    exact Nat.le_refl w.clock
  | readManifest hg hm =>
    refine h.setCollector ?_
    rintro _ ⟨⟩
    refine ⟨h.collectors _ _ hg, ?_, nofun⟩
    -- The snapshot lists what the manifest references at this moment.
    intro path _ hmanifest
    rwa [locations_of_snapshot hlin hm] at hmanifest
  | @candidate g now manifest toDelete path hg hfile hcand =>
    refine h.setCollector ?_
    rintro _ ⟨⟩
    have hc := h.collectors g _ hg
    refine ⟨hc.1, hc.2.1, ?_⟩
    intro path' hmem
    rcases mem_append.mp hmem with hmem | hmem
    · exact hc.2.2 path' hmem
    · obtain rfl := mem_singleton.mp hmem
      exact h.settled_of_candidate hc hfile hcand
  | skipped => exact h
  | endList hg =>
    refine h.setCollector ?_
    rintro _ ⟨⟩
    exact (h.collectors _ _ hg).2.2
  | delete hg hmem =>
    refine ⟨h.named, ?_, h.enqueued, h.grace, hcollectors, ?_⟩
    · intro path' hfile
      exact h.files path' (mem_of_mem_erase hfile)
    · intro path' hmem'
      rcases mem_cons.mp hmem' with rfl | hmem'
      · exact hcollectors _ _ hg path' hmem
      · exact hdeleted path' hmem'
  | stopped => exact h.setCollector nofun

theorem gcInvariant_run (hrun : Run (step cfg) (gcFits cfg) init es w) :
    GcInvariant cfg w := by
  refine hrun.invariant_reachable gcInvariant_init ?_
  intro es w e w' hrun hinv hok hstep
  obtain ⟨ls, hqueue⟩ := queue_run_of_world hrun
  exact hinv.step hok.1 (linearized_run hqueue) (allTraced_run hqueue) (occurs_of_step hstep)

/-- In every run in which the entries fit, and the producers and clocks are as assumed: a file
that a collector has deleted is not referenced by the manifest. This holds in the state after the
deletion and in every later one, since `deleted` only grows. -/
theorem gc_safe (hrun : Run (step cfg) (gcFits cfg) init es w) :
    ∀ path ∈ w.deleted, ¬ w.References path := by
  intro path hdeleted hreferences
  obtain ⟨ls, hqueue⟩ := queue_run_of_world hrun
  have hsettled := (gcInvariant_run hrun).deleted path hdeleted
  exact hsettled.unreferenced (mem_locations_of_references (linearized_run hqueue) hreferences)

/-! ### Files that are needed -/

/-- What was written is a file or was deleted, and the manifest lists only what was written. -/
structure Kept (w : World) : Prop where
  written : ∀ path ∈ w.written, path ∈ w.files ∨ path ∈ w.deleted
  located : ∀ path ∈ w.locations, path ∈ w.written

theorem Kept.step (h : Kept w) (hinv : GcInvariant cfg w) (htraced : AllTraced w.queue)
    (hoccurs : Occurs cfg w e w') : Kept w' := by
  cases hoccurs with
  | queue hstep =>
    refine ⟨h.written, fun path hmem => ?_⟩
    rcases mem_locations_step htraced hstep hmem with hold | ⟨op, -, hpath⟩
    · exact h.located path hold
    · exact hinv.enqueued op path hpath
  | put =>
    refine ⟨fun path' hmem => ?_, fun path' hmem => mem_cons_of_mem _ (h.located path' hmem)⟩
    rcases mem_cons.mp hmem with rfl | hmem
    · exact .inl mem_cons_self
    · exact (h.written path' hmem).imp_left (mem_cons_of_mem _)
  | @delete _ _ path =>
    refine ⟨fun path' hmem => ?_, h.located⟩
    by_cases heq : path' = path
    · exact .inr (heq ▸ mem_cons_self)
    · exact (h.written path' hmem).imp (mem_erase_of_ne heq).mpr (mem_cons_of_mem _)
  | tick | takeNow | readManifest | candidate | skipped | endList | stopped =>
    exact ⟨h.written, h.located⟩

/-- In the same runs no reference dangles: the file of every entry of the manifest is there. -/
theorem referenced_files_exist (hrun : Run (step cfg) (gcFits cfg) init es w) :
    ∀ path, w.References path → path ∈ w.files := by
  have hkept : Kept w := by
    refine hrun.invariant_reachable ⟨nofun, nofun⟩ ?_
    intro es w e w' hrun hkept _ hstep
    obtain ⟨ls, hqueue⟩ := queue_run_of_world hrun
    exact hkept.step (gcInvariant_run hrun) (allTraced_run hqueue) (occurs_of_step hstep)
  intro path hreferences
  obtain ⟨ls, hqueue⟩ := queue_run_of_world hrun
  have hlocated := mem_locations_of_references (linearized_run hqueue) hreferences
  refine (hkept.written path (hkept.located path hlocated)).resolve_right fun hdeleted => ?_
  exact ((gcInvariant_run hrun).deleted path hdeleted).unreferenced hlocated

/-! ### Runs -/

def sampleGc : GcConfig where
  parseUlid := fun stem =>
    if stem = "A" then some 0 else if stem = "B" then some 1
    else if stem = "C" ∨ stem = "D" then some 10 else none
  gcGracePeriod := 5

def orphanCollected : List WorldEvent :=
  [.put "d/A.batch", .tick 1, .put "d/B.batch", .queue (.start 0 (.enqueue "d/B.batch" [])),
    .queue (.read 0), .queue (.put 0), .tick 6, .takeNow 0, .readManifest 0, .list 0 "d/A.batch",
    .list 0 "d/B.batch", .endList 0, .delete 0 "d/A.batch"]

theorem gc_safe_orphanCollected :
    ∃ w, Run (step sampleGc) (gcFits sampleGc) init orphanCollected w ∧
      w.deleted = ["d/A.batch"] ∧ w.files = ["d/B.batch"] ∧ ¬ w.References "d/A.batch" := by
  obtain ⟨w, hrun, hdeleted, hfiles⟩ : ∃ w, Run (step sampleGc) (gcAssumptions sampleGc)
      init orphanCollected w ∧ w.deleted = ["d/A.batch"] ∧ w.files = ["d/B.batch"] :=
    Run.exists_of_check (by decide +kernel)
  have hfits : entryBodyLen "d/B.batch" [] ≤ u32Max := by decide +kernel
  have hrun : Run (step sampleGc) (gcFits sampleGc) init orphanCollected w := by
    refine hrun.and_labels ?_
    simp [orphanCollected, enqueueFits, Call.BodyFits, hfits]
  exact ⟨w, hrun, hdeleted, hfiles, gc_safe hrun "d/A.batch" (by simp [hdeleted])⟩

theorem referenced_files_exist_orphanCollected :
    ∃ w, Run (step sampleGc) (gcFits sampleGc) init orphanCollected w ∧
      w.locations = ["d/B.batch"] ∧ ∀ path, w.References path → path ∈ w.files := by
  obtain ⟨w, hrun, hlocations⟩ : ∃ w, Run (step sampleGc) (gcAssumptions sampleGc) init
      orphanCollected w ∧ w.locations = ["d/B.batch"] := Run.exists_of_check (by decide +kernel)
  have hfits : entryBodyLen "d/B.batch" [] ≤ u32Max := by decide +kernel
  have hrun : Run (step sampleGc) (gcFits sampleGc) init orphanCollected w := by
    refine hrun.and_labels ?_
    simp [orphanCollected, enqueueFits, Call.BodyFits, hfits]
  exact ⟨w, hrun, hlocations, referenced_files_exist hrun⟩

/-! ### An entry that does not fit -/

def wrapping (location : String) (inner : QueueEntry) (payload : Bytes) : QueueEntry where
  sequence := 0
  location := location
  metadata := [⟨0, 0, entryBytes inner⟩, ⟨0, 0, payload⟩]

def payloadStart (location : String) : Nat :=
  sequenceSize + locationLenSize + (asBytes location).length + metadataCountSize
    + (startIndexSize + ingestionTimeMsSize + metadataLenSize)

section
variable {location : String} {inner : QueueEntry} {payload : Bytes}

theorem entryBytes_wrapping (location : String) (inner : QueueEntry) (payload : Bytes) :
    ∃ left right, entryBytes (wrapping location inner payload)
        = left ++ (entryBytes inner ++ right) ∧
      left.length = entryLenSize + payloadStart location := by
  let e := wrapping location inner payload
  refine ⟨toLe entryLenSize (entryBodyLen e.location e.metadata)
      ++ (toLe sequenceSize e.sequence.toNat
      ++ (toLe locationLenSize (asBytes location).length ++ (asBytes location
      ++ (toLe metadataCountSize e.metadata.length
      ++ (toLe startIndexSize (0 : UInt32).toNat
      ++ (toLe ingestionTimeMsSize (0 : Int64).toUInt64.toNat
      ++ toLe metadataLenSize (entryBytes inner).length)))))),
    metadataBytes [⟨0, 0, payload⟩], ?_, ?_⟩
  · simp only [entryBytes, entryBody, wrapping, metadataBytes, metadataItemBytes, append_assoc, e]
  · simp only [length_append, length_toLe, payloadStart]
    omega

/-- When the length field of the outer entry ends where its first payload begins, the decoder goes
on there, and the next entry it gives is `inner`. -/
theorem items_wrapping {m : Manifest} {rest n epoch}
    (hdata : m.data = entryBytes (wrapping location inner payload) ++ rest ++ footer 2 n epoch)
    (hloc : (asBytes location).length ≤ u16Max) (hinner : Fits inner.location inner.metadata)
    (hpayload : ∀ p ∈ (wrapping location inner payload).metadata, p.payload.length ≤ u32Max)
    (hlen : entryBodyLen location (wrapping location inner payload).metadata % 2 ^ 32
      = payloadStart location) : .ok inner ∈ m.items := by
  have hend := entriesEnd_eq hdata
  have htwo := existingEntriesCount_eq hdata (by decide)
  obtain ⟨left, right, hbytes, hleft⟩ := entryBytes_wrapping location inner payload
  have hlow : sequenceSize + locationLenSize + (asBytes location).length + metadataCountSize
      ≤ entryBodyLen location (wrapping location inner payload).metadata % 2 ^ 32 := by
    rw [hlen, payloadStart]
    omega
  rw [append_assoc] at hdata
  have houter := decodeEntry_wrapped (wrapping location inner payload) hloc
    (show 2 ≤ u32Max by decide) hpayload
    hlow (Nat.zero_le m.data.length) (show m.data.drop 0 = _ from hdata)
    (show 0 + _ ≤ m.entriesEnd by rw [hend, length_append]; omega)
  rw [show (wrapping location inner payload).location = location from rfl, hlen,
    Nat.zero_add] at houter
  -- The second entry is decoded from inside the first one.
  rw [hbytes, append_assoc, append_assoc] at hdata
  have hoff : left.length ≤ m.data.length := by
    rw [hdata, length_append]
    omega
  have hsecond := parses_decodeEntry inner hinner left.length (right ++ (rest ++ footer 2 n epoch))
    hoff (show m.data.drop left.length = _ by rw [hdata, drop_left])
    (show _ ≤ m.entriesEnd by rw [hend, hbytes]; simp only [length_append]; omega)
  rw [hleft] at hsecond
  have hiter : m.items = m.iter.take (m.appendedCount + 1 + 1 + 1) := by
    show m.iter.take (m.existingEntriesCount + m.appendedCount + 1) = _
    rw [htwo]
    congr 1
    omega
  have hnext : ManifestIter.take (m.appendedCount + 1 + 1) { m.iter with
      remaining := 1, offset := entryLenSize + payloadStart location } = .ok inner :: _ :=
    ManifestIter.take_succ_of_decode rfl hsecond
  rw [hiter, ManifestIter.take_succ_of_decode (show m.iter.remaining = 1 + 1 from htwo) houter,
    hnext]
  exact mem_cons_of_mem _ mem_cons_self

theorem run_world_enqueue {op body count n epoch metadata entry} (hop : w.queue.ops op = none)
    (hobject : Laid w.queue.object body count n epoch) (hcount : count < u32Max)
    (hnew : QueueEntry.new location metadata = .ok entry)
    (hpayload : ∀ m ∈ metadata, m.payload.length ≤ u32Max) (hwritten : location ∈ w.written)
    (htime : ∃ ts ∈ cfg.extractUlidTimestamp location, w.clock < ts + cfg.gcGracePeriod) :
    ∃ queue', Run (step cfg) (gcAssumptions cfg) w
        [.queue (.start op (.enqueue location metadata)), .queue (.read op), .queue (.put op)]
        { w with queue := queue' } ∧
      (∀ op' ≠ op, queue'.ops op' = w.queue.ops op') ∧
      Laid queue'.object (body ++ entryBytes { sequence := n, location, metadata }) (count + 1)
        (n + 1) epoch := by
  obtain ⟨s1, s2, s3, hstart, hread, ⟨pc, hop2⟩, hput, hops, -, hlaid⟩ :=
    enqueue_steps hop hobject hcount hnew hpayload
  have hstart' : w.step cfg (.queue (.start op (.enqueue location metadata)))
      = some { w with queue := s1 } := by simp only [step, hstart]
  have hread' : step cfg { w with queue := s1 } (.queue (.read op))
      = some { w with queue := s2 } := by simp only [step, hread]
  have hput' : step cfg { w with queue := s2 } (.queue (.put op))
      = some { w with queue := s3 } := by simp only [step, hput]
  have hfirst : Run (step cfg) (gcAssumptions cfg) w
      [.queue (.start op (.enqueue location metadata))] { w with queue := s1 } :=
    Run.single hwritten hstart'
  have hsecond : Run (step cfg) (gcAssumptions cfg) w
      [.queue (.start op (.enqueue location metadata)), .queue (.read op)]
      { w with queue := s2 } := hfirst.snoc trivial hread'
  refine ⟨s3, hsecond.snoc ?_ hput', ?_, hlaid⟩
  · intro path hpath
    have hbind : (s2.ops op).bind Op.location? = some location := by
      rw [hop2]
      rfl
    obtain rfl : path = location := Option.mem_unique hpath hbind
    exact htime
  · intro op' hne
    rw [hops, Function.update_of_ne hne]

end

def orphanDeleted : List WorldEvent :=
  [.put "d/A.batch", .tick 5, .takeNow 0, .readManifest 0, .list 0 "d/A.batch", .endList 0,
    .delete 0 "d/A.batch", .tick 10, .put "d/C.batch", .put "d/D.batch"]

def orphanEntry : QueueEntry := { sequence := 0, location := "d/A.batch", metadata := [] }

def wrappedEnqueues (payload : Bytes) : List WorldEvent :=
  [.queue (.start 0 (.enqueue "d/C.batch" (wrapping "d/C.batch" orphanEntry payload).metadata)),
    .queue (.read 0), .queue (.put 0)]
  ++ [.queue (.start 1 (.enqueue "d/D.batch" [])), .queue (.read 1), .queue (.put 1)]

/-- The body of the first entry is `2 ^ 32 + 39` bytes long, and 39 bytes lead to its first
payload. -/
theorem entryBodyLen_wrapping {payload} (hlen : payload.length = 2 ^ 32 - 43) :
    entryBodyLen "d/C.batch" (wrapping "d/C.batch" orphanEntry payload).metadata % 2 ^ 32
      = payloadStart "d/C.batch" := by
  have hinner : (entryBytes orphanEntry).length = 27 := by decide +kernel
  have hloc : (asBytes "d/C.batch").length = 9 := by decide +kernel
  simp only [entryBodyLen, metadataSize, metadataItemSize, wrapping, map_cons, map_nil,
    sum_cons, sum_nil, hlen, hinner, hloc, payloadStart, sequenceSize, locationLenSize,
    metadataCountSize, startIndexSize, ingestionTimeMsSize, metadataLenSize]
  rfl

theorem run_wrapped {payload : Bytes} (hlen : payload.length = 2 ^ 32 - 43) :
    ∃ w, Run (step sampleGc) (gcAssumptions sampleGc) init
        (orphanDeleted ++ wrappedEnqueues payload) w ∧
      w.deleted = ["d/A.batch"] ∧ w.References "d/A.batch" := by
  obtain ⟨w, hrun, hdeleted, hwritten, hclock, hop0, hop1, hversion⟩ : ∃ w,
      Run (step sampleGc) (gcAssumptions sampleGc) init orphanDeleted w ∧
      w.deleted = ["d/A.batch"] ∧ w.written = ["d/D.batch", "d/C.batch", "d/A.batch"] ∧
      w.clock = 10 ∧ (w.queue.ops 0).isNone = true ∧ (w.queue.ops 1).isNone = true ∧
      w.queue.object.version = none := Run.exists_of_check (by decide +kernel)
  rw [Option.isNone_iff_eq_none] at hop0 hop1
  have hlaid : Laid w.queue.object [] 0 0 0 := by
    cases hobject : w.queue.object with
    | absent => exact ⟨rfl, rfl, rfl, rfl⟩
    | present => rw [hobject] at hversion; cases hversion
  have hpayload : ∀ p ∈ (wrapping "d/C.batch" orphanEntry payload).metadata,
      p.payload.length ≤ u32Max := by
    have hinner : (entryBytes orphanEntry).length ≤ u32Max := by decide +kernel
    have houter : payload.length ≤ u32Max := by rw [hlen]; decide
    simp [wrapping, hinner, houter]
  have hts : ∀ path ∈ ["d/C.batch", "d/D.batch"],
      sampleGc.extractUlidTimestamp path = some 10 := by decide +kernel
  have htime : ∀ path ∈ ["d/C.batch", "d/D.batch"],
      ∃ ts ∈ sampleGc.extractUlidTimestamp path, w.clock < ts + sampleGc.gcGracePeriod := by
    intro path hpath
    exact ⟨10, hts path hpath, by rw [hclock]; decide⟩
  -- The oversized entry, then one that fits.
  obtain ⟨queue1, hrun1, hops1, hlaid1⟩ := run_world_enqueue hop0 hlaid (by decide)
    (show QueueEntry.new "d/C.batch" (wrapping "d/C.batch" orphanEntry payload).metadata = .ok _
      from rfl) hpayload (by simp [hwritten]) (htime "d/C.batch" (by simp))
  obtain ⟨queue2, hrun2, -, hlaid2⟩ := run_world_enqueue (w := { w with queue := queue1 })
    ((hops1 1 (by decide)).trans hop1) hlaid1 (by decide)
    (show QueueEntry.new "d/D.batch" [] = .ok _ from rfl) nofun (by simp [hwritten])
    (htime "d/D.batch" (by simp))
  refine ⟨_, hrun.trans (hrun1.trans hrun2), hdeleted, ?_⟩
  obtain ⟨m, hread, hdata, -⟩ := hlaid2.read
  have hfits : Fits orphanEntry.location orphanEntry.metadata :=
    ⟨by decide +kernel, by decide +kernel⟩
  refine ⟨m, _, orphanEntry, hread, ?_, rfl⟩
  exact items_wrapping hdata (by decide +kernel) hfits hpayload (entryBodyLen_wrapping hlen)

/-- An entry body of `2 ^ 32 + 39` bytes has the length field 39, and its decoder goes on inside
the entry. With a payload that is itself the encoding of an entry, the manifest references a file
that was deleted and that nobody enqueued. -/
theorem wrapped_reference : ∃ w, Run (step sampleGc) (gcAssumptions sampleGc) init
        (orphanDeleted ++ wrappedEnqueues (List.replicate (2 ^ 32 - 43) 0)) w ∧
      w.deleted = ["d/A.batch"] ∧ w.References "d/A.batch" ∧
      ¬ ∀ path ∈ w.deleted, ¬ w.References path := by
  have hlen : (List.replicate (2 ^ 32 - 43) (0 : UInt8)).length = 2 ^ 32 - 43 := length_replicate
  generalize List.replicate (2 ^ 32 - 43) (0 : UInt8) = payload at hlen ⊢
  obtain ⟨w, hrun, hdeleted, hreferences⟩ := run_wrapped hlen
  refine ⟨w, hrun, hdeleted, hreferences, ?_⟩
  intro hsafe
  exact hsafe "d/A.batch" (by simp [hdeleted]) hreferences

end OpenData.Buffer

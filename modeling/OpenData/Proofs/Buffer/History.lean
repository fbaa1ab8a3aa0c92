import OpenData.Proofs.Buffer.Spec
import OpenData.Proofs.Buffer.Steps

/-!
# The queue under concurrent calls

When every entry fits in its length field, the manifest object holds the queue after the committed
calls, in the order of their commits (`linearized_run`). The argument has two parts: `step_object`
makes every commit one call on the present object, and `Edits.stored` carries the byte edit of that
call to the call on the queue. What producers and consumers see then follows from the facts about
`Queue.after` (`queue_history`).
-/

namespace OpenData.Buffer

open Lib List Option State

/-! ### The object holds the queue after the committed calls -/

/-- The object holds the queue `q`. -/
def Holds (object : Cell Bytes) (q : Queue) : Prop :=
  match object with
  | .absent => q = Queue.empty
  | .present bytes _ => Stored bytes q

def Call.BodyFits : Call → Prop
  | .enqueue location metadata => entryBodyLen location metadata ≤ u32Max
  | _ => True

/-- The condition on the steps: what is enqueued fits. -/
def enqueueFits (_ : State) : Label → Prop
  | .start _ call => call.BodyFits
  | _ => True

variable {s s' : State} {l : Label} {ls : List Label} {op : OpId} {call : Call} {q : Queue}
  {object : Cell Bytes} {m0 m : Manifest} {reply : Reply}

theorem Holds.read (h : Holds object q) :
    ∃ m version, ManifestStore.read object = .ok (m, version) ∧ Represents m q q.entries [] := by
  cases object with
  | absent =>
    obtain rfl : q = Queue.empty := h
    exact ⟨Manifest.empty, none, rfl, represents_empty⟩
  | present bytes version =>
    obtain ⟨m, hm, hrep⟩ := represents_fromBytes h
    refine ⟨m, some version, ?_, hrep⟩
    rw [ManifestStore.read, hm]
    rfl

theorem Holds.entries (h : Holds s.object q) : s.entries = .ok q.entries := by
  obtain ⟨m, version, hread, hrep⟩ := h.read
  rw [State.entries, hread]
  exact hrep.entries_eq

theorem Holds.nextSequence (h : Holds s.object q) : s.nextSequence = .ok q.nextSequence := by
  obtain ⟨m, version, hread, hrep⟩ := h.read
  rw [State.nextSequence, hread]
  exact congrArg Except.ok hrep.nextSequence

variable {metadata : List Metadata} {location : String}

theorem fits_of_accepted (hacc : (Call.enqueue location metadata).Accepted)
    (hbody : (Call.enqueue location metadata).BodyFits) : Fits location metadata := by
  obtain ⟨entry, hnew⟩ := hacc
  rw [QueueEntry.new] at hnew
  split at hnew
  · simp [fail] at hnew
  · rename_i hloc
    exact ⟨Nat.le_of_not_lt hloc, hbody⟩

theorem Edits.stored {data} (hedit : Edits call m0 m reply)
    (hrep : Represents m0 q q.entries []) (hacc : call.Accepted) (hbody : call.BodyFits)
    (hb : m.toBytes = .ok data) : Stored data (q.apply call) := by
  cases hedit with
  | @enqueue location metadata _ _ happ =>
    obtain ⟨m', e, happ', hrep'⟩ :=
      hrep.append { sequence := 0, location, metadata } (fits_of_accepted hacc hbody)
    obtain rfl : m' = m := Except.ok.inj (happ'.symm.trans happ)
    exact hrep'.stored_of_toBytes (by simp) hb
  | takeover =>
    have hrep' := hrep.setEpoch (nextEpoch m0.epoch)
    rw [hrep.epoch] at hrep' hb
    exact hrep'.stored_of_toBytes (by simp) hb
  | @dequeue c throughSequence _ _ removed hdeq =>
    obtain ⟨m', hdeq', hrep'⟩ := hrep.dequeue throughSequence
    obtain ⟨-, rfl⟩ := Prod.mk.inj (Except.ok.inj (hdeq'.symm.trans hdeq))
    exact hrep'.stored_of_toBytes (by simp) hb

def AllBodyFit (s : State) : Prop := ∀ op call pc, s.ops op = some ⟨call, pc⟩ → call.BodyFits

theorem AllBodyFit.move (h : AllBodyFit s) (hok : enqueueFits s l) (hstep : s.step l = some s') :
    AllBodyFit s' := by
  cases move_of_step hstep with
  | start => exact forall_ops_setOp h hok
  | read hop | failed hop | check hop | conflict hop | commit hop | store hop =>
    exact forall_ops_setOp h (h _ _ _ hop)

theorem allBodyFit_run (hrun : Run step enqueueFits init ls s) : AllBodyFit s :=
  hrun.invariant nofun (fun _ _ _ h hok hstep => h.move hok hstep)

def Linearized (s : State) : Prop := Holds s.object (Queue.after s.committed)

theorem Commits.holds (h : Commits s s' op call m0 m reply) (hq : Holds s.object q)
    (hbody : call.BodyFits) : Holds s'.object (q.apply call) := by
  obtain ⟨m', version, hread, hrep⟩ := hq.read
  obtain ⟨version', hread'⟩ := h.read
  obtain ⟨rfl, -⟩ := Prod.mk.inj (Except.ok.inj (hread.symm.trans hread'))
  obtain ⟨data, v, hb, hobject⟩ := h.stored
  rw [hobject]
  exact h.edit.stored hrep h.accepted hbody hb

theorem Linearized.step (h : Linearized s) (htraced : AllTraced s) (hfit : AllBodyFit s)
    (hstep : s.step l = some s') : Linearized s' := by
  rcases step_object htraced hstep with ⟨hobject, hcommitted⟩ | ⟨op, call, m0, m, reply, -, hc⟩
  · rw [Linearized, hobject, hcommitted]
    exact h
  · obtain ⟨version, hop⟩ := hc.waiting
    rw [Linearized, hc.committed, Queue.after_append]
    exact hc.holds h (hfit _ _ _ hop)

theorem linearized_run (hrun : Run step enqueueFits init ls s) : Linearized s := by
  refine hrun.invariant_reachable rfl ?_
  intro ls s l s' hrun hlin _ hstep
  exact hlin.step (allTraced_run hrun) (allBodyFit_run hrun) hstep

/-! ### Every operation commits once -/

def commitCount : Option Op → Nat
  | some ⟨.peek _, _⟩ => 0
  | some ⟨.read _ _, _⟩ => 0
  | some ⟨_, .storing _⟩ => 1
  | some ⟨_, .returned (.ok _)⟩ => 1
  | _ => 0

/-- The history has a call as often as the state of the call says. -/
structure Counted (s : State) : Prop where
  count : ∀ op, (s.committed.map Prod.fst).count op = commitCount (s.ops op)
  own : ∀ op call, (op, call) ∈ s.committed → ∃ pc, s.ops op = some ⟨call, pc⟩

theorem commitCount_reading (call : Call) : commitCount (some ⟨call, .reading⟩) = 0 := by
  cases call <;> rfl

theorem commitCount_writing (call : Call) (m : Manifest) (version : Option Nat) (reply : Reply) :
    commitCount (some ⟨call, .writing m version reply⟩) = 0 := by
  cases call <;> rfl

theorem commitCount_waiting {pc} (hpc : pc.Waiting) : commitCount (some ⟨call, pc⟩) = 0 := by
  cases pc with
  | reading => exact commitCount_reading call
  | writing m version reply => exact commitCount_writing call m version reply
  | checking | storing | returned => exact hpc.elim

theorem commitCount_error (call : Call) (f : Fault Error) :
    commitCount (some ⟨call, .returned (.error f)⟩) = 0 := by
  cases call <;> rfl

theorem commitCount_begin (call : Call) : commitCount (some ⟨call, begin call⟩) = 0 := by
  cases call with
  | enqueue =>
    rw [begin]
    split <;> rfl
  | initializeConsumer | peek | read | dequeue => rfl

theorem commitCount_afterRead (call : Call) (m : Manifest) (version : Option Nat) :
    commitCount (some ⟨call, afterRead call m version⟩) = 0 := by
  cases call with
  | enqueue =>
    rw [afterRead]
    split <;> rfl
  | initializeConsumer | peek | read | dequeue => rfl

theorem commitCount_afterCheck (call : Call) (epoch : UInt64) (m : Manifest)
    (version : Option Nat) : commitCount (some ⟨call, afterCheck call epoch m version⟩) = 0 := by
  rw [afterCheck]
  split
  · exact commitCount_error call _
  · cases call with
    | enqueue | initializeConsumer | peek | read => rfl
    | dequeue c throughSequence =>
      rw [afterMatch]
      split <;> rfl

theorem commitCount_afterCommit (hedit : Edits call m0 m reply) :
    commitCount (some ⟨call, afterCommit call m reply⟩) = 1 := by
  cases hedit <;> rfl

theorem Counted.setOp {pc} (h : Counted s) (hkeep : ∀ o, s.ops op = some o → o.call = call)
    (hcount : commitCount (some ⟨call, pc⟩) = commitCount (s.ops op)) :
    Counted (s.setOp op call pc) where
  count := by
    intro op'
    by_cases hne : op' = op
    · subst hne
      rw [ops_setOp_self, hcount]
      exact h.count op'
    · rw [ops_setOp_of_ne hne]
      exact h.count op'
  own := by
    intro op' call' hmem
    obtain ⟨pc', hop'⟩ := h.own op' call' hmem
    by_cases hne : op' = op
    · subst hne
      obtain rfl : call' = call := hkeep _ hop'
      exact ⟨pc, ops_setOp_self⟩
    · exact ⟨pc', by rw [ops_setOp_of_ne hne, hop']⟩

theorem Counted.commit {pc version} (h : Counted s)
    (hop : s.ops op = some ⟨call, .writing m version reply⟩)
    (hpc : commitCount (some ⟨call, pc⟩) = 1) (object : Cell Bytes) :
    Counted { s.setOp op call pc with object, committed := s.committed ++ [(op, call)] } where
  count := by
    intro op'
    show ((s.committed ++ [(op, call)]).map Prod.fst).count op'
      = commitCount ((s.setOp op call pc).ops op')
    rw [map_append, count_append, h.count op']
    by_cases hne : op' = op
    · subst hne
      rw [ops_setOp_self, hpc, hop, commitCount_writing]
      simp
    · rw [ops_setOp_of_ne hne]
      simp [Ne.symm hne]
  own := by
    intro op' call' hmem
    rcases mem_append.mp hmem with hmem | hmem
    · -- An operation that committed before is another one, or has the same call.
      obtain ⟨pc', hop'⟩ := h.own op' call' hmem
      by_cases hne : op' = op
      · subst hne
        obtain ⟨rfl, -⟩ := Op.mk.inj (Option.mem_unique hop' hop)
        exact ⟨pc, ops_setOp_self⟩
      · exact ⟨pc', (ops_setOp_of_ne hne).trans hop'⟩
    · obtain ⟨rfl, rfl⟩ := Prod.mk.inj (mem_singleton.mp hmem)
      exact ⟨pc, ops_setOp_self⟩

theorem Counted.move (h : Counted s) (htraced : AllTraced s) (hmove : Move s l s') :
    Counted s' := by
  -- Where an operation moves that has this call already.
  have hcall : ∀ {op : OpId} {call : Call} {pc : Pc}, s.ops op = some ⟨call, pc⟩ →
      ∀ o, s.ops op = some o → o.call = call := by
    intro op call pc hop o ho
    obtain rfl := Option.mem_unique hop ho
    rfl
  cases hmove with
  | start hop =>
    refine h.setOp (fun o ho => ?_) ?_
    · rw [hop] at ho
      cases ho
    · rw [commitCount_begin, hop]
      rfl
  | read hop =>
    exact h.setOp (hcall hop) (by rw [commitCount_afterRead, hop, commitCount_reading])
  | failed hop hpc =>
    exact h.setOp (hcall hop) (by rw [commitCount_error, hop, commitCount_waiting hpc])
  | @check op call c m version hop =>
    refine h.setOp (hcall hop) ?_
    rw [commitCount_afterCheck, hop]
    cases call <;> rfl
  | conflict hop =>
    exact h.setOp (hcall hop) (by rw [commitCount_reading, hop, commitCount_writing])
  | commit hop =>
    obtain ⟨-, _, _, -, -, hedit⟩ := htraced _ _ _ hop
    exact h.commit hop (commitCount_afterCommit hedit) _
  | store hop =>
    have hset : Counted (s.setOp _ _ (.returned (.ok .unit))) :=
      h.setOp (hcall hop) (by rw [hop]; rfl)
    exact ⟨hset.count, hset.own⟩

theorem counted_run {ok : State → Label → Prop} (hrun : Run step ok init ls s) :
    Counted s := by
  refine hrun.invariant_reachable ⟨fun _ => rfl, nofun⟩ ?_
  intro ls s l s' hrun hcounted _ hstep
  exact hcounted.move (allTraced_run hrun) (move_of_step hstep)

/-! ### What producers and consumers see -/

theorem Linearized.history (h : Linearized s) (hcounted : Counted s)
    (hcount : s.enqueues.length < 2 ^ 64) : QueueHistory s where
  consecutive := by
    obtain ⟨first, hseq, hlen⟩ := after_consecutive hcount
    refine ⟨_, first, _, h.entries, h.nextSequence, hseq, ?_⟩
    rw [hlen, after_nextSequence, UInt64.toNat_ofNat']
    exact (Nat.mod_eq_of_lt hcount).symm
  contributed := ⟨_, h.entries, after_entries s.committed⟩
  okOnce := by
    intro op location metadata reply hop
    refine filter_contributions (fun call hmem => ?_) ?_
    · obtain ⟨pc, hop'⟩ := hcounted.own op call hmem
      exact (Op.mk.inj (Option.mem_unique hop' hop)).1
    · rw [hcounted.count op, hop]
      rfl
  errNone := by
    intro op location metadata f hop
    apply filter_contributions_nil
    rw [hcounted.count op, hop]
    rfl

theorem Linearized.queueStep (h : Linearized s) (h' : Linearized s') (htraced : AllTraced s)
    (hstep : s.step l = some s') : QueueStep s l s' := by
  rcases step_object htraced hstep with ⟨-, hcommitted⟩ | ⟨op, call, m0, m, reply, rfl, hc⟩
  · have hnow := h'.entries
    rw [hcommitted] at hnow
    exact QueueStep.quiet h.entries hnow (congrArg contributions hcommitted)
  · obtain ⟨version, hop⟩ := hc.waiting
    have hnow := h'.entries
    have hcontributed : s'.contributions = contributions (s.committed ++ [(op, call)]) :=
      congrArg contributions hc.committed
    rw [hc.committed, Queue.after_append] at hnow
    cases hc.edit with
    | enqueue =>
      rw [contributions_append_enqueue, ← after_nextSequence] at hcontributed
      exact QueueStep.enqueued hop h.entries hnow hcontributed ⟨rfl, rfl⟩
    | @takeover c =>
      have hno : (Call.initializeConsumer c).NoEnqueue := nofun
      rw [contributions_append_other _ _ hno] at hcontributed
      exact QueueStep.quiet h.entries hnow hcontributed
    | @dequeue c throughSequence =>
      have hno : (Call.dequeue c throughSequence).NoEnqueue := nofun
      rw [contributions_append_other _ _ hno] at hcontributed
      have hbefore : s.entries = .ok ((Queue.after s.committed).removed throughSequence
          ++ ((Queue.after s.committed).dequeue throughSequence).entries) := by
        rw [h.entries]
        exact congrArg Except.ok takeWhile_append_dropWhile.symm
      refine QueueStep.dequeued hop hbefore hnow ?_ hcontributed
      intro e he
      rw [Queue.removed] at he
      simpa using mem_takeWhile_imp he

/-- In every run in which the enqueued entries fit in their length field, and with fewer than
`2 ^ 64` enqueues: the entries of the manifest are numbered without a gap up to the next sequence
number, an enqueue that returned `Ok` added exactly one entry and one that returned `Err` none,
and a step only adds the entry of an enqueue at the end or takes entries from the front for a
dequeue that reaches them. -/
theorem queue_history (hrun : Run step enqueueFits init ls s)
    (hcount : s.enqueues.length < 2 ^ 64) : QueueHistory s ∧
      ∀ l s', enqueueFits s l → s.step l = some s' → QueueStep s l s' := by
  have hlin := linearized_run hrun
  refine ⟨hlin.history (counted_run hrun) hcount, ?_⟩
  intro l s' hok hstep
  exact hlin.queueStep (linearized_run (hrun.snoc hok hstep)) (allTraced_run hrun) hstep

def racingEnqueues : List Label :=
  [.start 0 (.enqueue "a" []), .start 1 (.enqueue "b" []), .read 0, .read 1, .put 1, .put 0,
    .read 0, .put 0]

theorem queue_history_racingEnqueues :
    ∃ s, Run step enqueueFits init racingEnqueues s ∧ s.enqueues.length = 2 ∧
      QueueHistory s := by
  obtain ⟨s, hrun, hlen⟩ : ∃ s, Run step anyStep init racingEnqueues s ∧
      s.enqueues.length = 2 := Run.exists_of_check (by decide +kernel)
  have hrun : Run step enqueueFits init racingEnqueues s := by
    refine hrun.of_labels ?_
    have hfits : entryBodyLen "a" [] ≤ u32Max ∧ entryBodyLen "b" [] ≤ u32Max := by decide +kernel
    simp [racingEnqueues, enqueueFits, Call.BodyFits, hfits]
  exact ⟨s, hrun, hlen, (queue_history hrun (by omega)).1⟩

/-! ### An entry that does not fit -/

/-- The object holds `body` and a footer, whatever `body` is. A reader takes an absent object for
an empty one. -/
def Laid (object : Cell Bytes) (body : Bytes) (count : Nat) (n epoch : UInt64) : Prop :=
  match object with
  | .absent => body = [] ∧ count = 0 ∧ n = 0 ∧ epoch = 0
  | .present bytes _ => bytes = body ++ footer count n epoch

section
variable {body : Bytes} {count : Nat} {n epoch : UInt64} {location : String}
  {metadata : List Metadata}

theorem Laid.read (h : Laid object body count n epoch) :
    ∃ m, ManifestStore.read object = .ok (m, object.version) ∧
      m.data = body ++ footer count n epoch ∧ m.appended = [] ∧ m.appendedCount = 0 ∧
      m.nextSequence = n ∧ m.epoch = epoch := by
  cases object with
  | absent =>
    obtain ⟨rfl, rfl, rfl, rfl⟩ := h
    exact ⟨Manifest.empty, rfl, rfl, rfl, rfl, rfl, rfl⟩
  | present bytes =>
    obtain rfl : bytes = body ++ footer count n epoch := h
    obtain ⟨m, hm, hfields⟩ := fromBytes_footer body count n epoch
    refine ⟨m, ?_, hfields⟩
    rw [ManifestStore.read, hm]
    rfl

/-- The edit of an enqueue on such an object, whatever the length of the entry's body:
`encode_entry` rejects only a payload that is too long by itself. -/
theorem Laid.append (h : Laid object body count n epoch) (hcount : count < u32Max)
    (location : String) (hpayload : ∀ m ∈ metadata, m.payload.length ≤ u32Max) :
    ∃ m0 m, ManifestStore.read object = .ok (m0, object.version) ∧
      m0.append { sequence := 0, location, metadata } = .ok m ∧
      m.toBytes = .ok (body ++ entryBytes { sequence := n, location, metadata }
        ++ footer (count + 1) (n + 1) epoch) := by
  obtain ⟨m0, hread, hdata, happ, hzero, rfl, rfl⟩ := h.read
  let e : QueueEntry := { sequence := m0.nextSequence, location, metadata }
  let m : Manifest := { m0 with
    appended := m0.appended ++ entryBytes e
    nextSequence := m0.nextSequence + 1
    appendedCount := m0.appendedCount + 1 }
  have henc : encodeEntry e = .ok (entryBytes e) := encodeEntry_eq e hpayload
  have happend : m0.append { sequence := 0, location, metadata } = .ok m := by
    rw [Manifest.append]
    show (do let bytes ← encodeEntry e; _) = _
    rw [henc]
    rfl
  refine ⟨m0, m, hread, happend, ?_⟩
  rw [u32Max] at hcount
  have happended : m.appended = entryBytes e := by
    show m0.appended ++ entryBytes e = entryBytes e
    rw [happ, nil_append]
  have hsum : m.existingEntriesCount + m.appendedCount % 2 ^ 32 = count + 1 := by
    have hadded : m.appendedCount = 1 := congrArg (· + 1) hzero
    rw [existingEntriesCount_eq (m := m) hdata (by omega), hadded]
    rfl
  have htotal : ¬ count + 1 > u32Max := by
    rw [u32Max]
    omega
  rw [Manifest.toBytes, happended, if_neg (entryBytes_ne_nil e)]
  simp only [hsum, if_neg htotal, entriesEnd_eq (m := m) hdata]
  show Except.ok (take body.length m0.data ++ entryBytes e ++ _) = _
  rw [hdata, take_left]

theorem enqueue_steps {entry} (hop : s.ops op = none)
    (hobject : Laid s.object body count n epoch) (hcount : count < u32Max)
    (hnew : QueueEntry.new location metadata = .ok entry)
    (hpayload : ∀ m ∈ metadata, m.payload.length ≤ u32Max) :
    ∃ s1 s2 s3, s.step (.start op (.enqueue location metadata)) = some s1 ∧
      s1.step (.read op) = some s2 ∧ (∃ pc, s2.ops op = some ⟨.enqueue location metadata, pc⟩) ∧
      s2.step (.put op) = some s3 ∧
      s3.ops = Function.update s.ops op (some ⟨.enqueue location metadata, .returned (.ok .unit)⟩) ∧
      s3.committed = s.committed ++ [(op, .enqueue location metadata)] ∧
      Laid s3.object (body ++ entryBytes { sequence := n, location, metadata }) (count + 1) (n + 1)
        epoch := by
  let call := Call.enqueue location metadata
  obtain ⟨m0, m, hread, happend, hbytes⟩ := hobject.append hcount location hpayload
  obtain ⟨version, hput⟩ := s.object.put_version
    (body ++ entryBytes { sequence := n, location, metadata } ++ footer (count + 1) (n + 1) epoch)
  let s1 := s.setOp op call .reading
  let s2 := s1.setOp op call (.writing m s.object.version .unit)
  have hstart : s.step (.start op call) = some s1 := by
    simp only [step, hop, begin, call, hnew]
    rfl
  have hread' : s1.step (.read op) = some s2 := by
    have hobj : ManifestStore.read s1.object = .ok (m0, s.object.version) := hread
    simp only [step, s1, ops_setOp_self]
    rw [hobj]
    show some (setOp _ op call (afterRead call m0 s.object.version)) = _
    rw [afterRead, happend]
  have hput' : s2.step (.put op) = some { s2.setOp op call (.returned (.ok .unit)) with
      object := .present (body ++ entryBytes { sequence := n, location, metadata }
        ++ footer (count + 1) (n + 1) epoch) version
      committed := s.committed ++ [(op, call)] } := by
    have hwrite : ManifestStore.write s2.object m s.object.version = .ok (.present (body
        ++ entryBytes { sequence := n, location, metadata } ++ footer (count + 1) (n + 1) epoch)
          version) := by
      show ManifestStore.write s.object m s.object.version = _
      simp only [ManifestStore.write, hbytes, hput]
    simp only [step, s2, ops_setOp_self]
    rw [hwrite]
    rfl
  refine ⟨s1, s2, _, hstart, hread', ⟨_, ops_setOp_self⟩, hput', ?_, rfl, rfl⟩
  show Function.update (Function.update (Function.update s.ops op _) op _) op _ = _
  rw [Function.update_idem, Function.update_idem]

end

theorem run_enqueue {entry} (hnew : QueueEntry.new location metadata = .ok entry)
    (hpayload : ∀ m ∈ metadata, m.payload.length ≤ u32Max) : ∃ s, Run step anyStep init
        [.start 0 (.enqueue location metadata), .read 0, .put 0] s ∧
      s.ops 0 = some ⟨.enqueue location metadata, .returned (.ok .unit)⟩ ∧
      s.committed = [(0, .enqueue location metadata)] ∧
      Laid s.object (entryBytes { sequence := 0, location, metadata }) 1 1 0 := by
  have hlaid : Laid init.object [] 0 0 0 := ⟨rfl, rfl, rfl, rfl⟩
  obtain ⟨s1, s2, s, hstart, hread, -, hput, hops, hcommitted, hobject⟩ :=
    enqueue_steps (s := init) (show init.ops 0 = none from rfl) hlaid (by decide) hnew hpayload
  refine ⟨s, ((Run.nil.snoc trivial hstart).snoc trivial hread).snoc trivial hput, ?_, hcommitted,
    hobject⟩
  rw [hops, Function.update_self]

theorem entries_truncated {e n epoch} (hloc : (asBytes e.location).length ≤ u16Max)
    (hlow : entryBodyLen e.location e.metadata % 2 ^ 32
      < sequenceSize + locationLenSize + (asBytes e.location).length + metadataCountSize)
    (hobject : Laid s.object (entryBytes e) 1 n epoch) : ∃ err, s.entries = .error (.err err) := by
  obtain ⟨m, hread, hdata, happ, hcount, -, -⟩ := hobject.read
  have hend := entriesEnd_eq hdata
  have hone := existingEntriesCount_eq hdata (by decide)
  obtain ⟨err, off', hdec⟩ := decodeEntry_truncated e hloc hlow (Nat.zero_le m.data.length)
    (show m.data.drop 0 = _ from hdata) (show 0 + _ ≤ m.entriesEnd by rw [hend]; omega)
  refine ⟨err, ?_⟩
  rw [entries, hread]
  show (m.iter.take (m.existingEntriesCount + m.appendedCount + 1)).mapM id = _
  rw [ManifestIter.take_succ_of_decode (show m.iter.remaining = 0 + 1 from hone) hdec]
  rfl

theorem entryBodyLen_oversized {payload} (hlen : payload.length = 2 ^ 32 - 30) :
    entryBodyLen "" [⟨0, 0, payload⟩] = 2 ^ 32 := by
  simp only [entryBodyLen, metadataSize, metadataItemSize, map_cons, map_nil,
    sum_cons, sum_nil, hlen, show (asBytes "").length = 0 from rfl, sequenceSize,
    locationLenSize, metadataCountSize, startIndexSize, ingestionTimeMsSize, metadataLenSize]
  rfl

theorem run_oversized {payload} (hlen : payload.length = 2 ^ 32 - 30) :
    ∃ s, Run step anyStep init [.start 0 (.enqueue "" [⟨0, 0, payload⟩]), .read 0, .put 0] s ∧
      s.ops 0 = some ⟨.enqueue "" [⟨0, 0, payload⟩], .returned (.ok .unit)⟩ ∧
      s.committed = [(0, .enqueue "" [⟨0, 0, payload⟩])] ∧
      ∃ err, s.entries = .error (.err err) := by
  have hpayload : ∀ m ∈ [(⟨0, 0, payload⟩ : Metadata)], m.payload.length ≤ u32Max := by
    intro m hm
    rw [mem_singleton.mp hm, hlen]
    decide
  have hnew : QueueEntry.new "" [⟨0, 0, payload⟩] = .ok ⟨0, "", [⟨0, 0, payload⟩]⟩ := rfl
  obtain ⟨s, hrun, hop, hcommitted, hobject⟩ := run_enqueue hnew hpayload
  have hlow : entryBodyLen "" [⟨0, 0, payload⟩] % 2 ^ 32
      < sequenceSize + locationLenSize + (asBytes "").length + metadataCountSize := by
    rw [entryBodyLen_oversized hlen]
    decide
  have hloc : (asBytes "").length ≤ u16Max := by decide
  exact ⟨s, hrun, hop, hcommitted, entries_truncated hloc hlow hobject⟩

/-- An entry body of exactly `2 ^ 32` bytes has the length field 0. Its enqueue returns `Ok`, and
no reader of the manifest gets an entry. -/
theorem oversized_enqueue : ∃ s, Run step anyStep init
        [.start 0 (.enqueue "" [⟨0, 0, replicate (2 ^ 32 - 30) 0⟩]), .read 0, .put 0] s ∧
      s.enqueues.length = 1 ∧ s.ops 0 = some ⟨.enqueue "" [⟨0, 0, replicate (2 ^ 32 - 30) 0⟩],
        .returned (.ok .unit)⟩ ∧ (∃ err, s.entries = .error (.err err)) ∧ ¬ QueueHistory s := by
  have hlen : (replicate (2 ^ 32 - 30) (0 : UInt8)).length = 2 ^ 32 - 30 := length_replicate
  generalize replicate (2 ^ 32 - 30) (0 : UInt8) = payload at hlen ⊢
  obtain ⟨s, hrun, hop, hcommitted, err, herr⟩ := run_oversized hlen
  refine ⟨s, hrun, ?_, hop, ⟨err, herr⟩, ?_⟩
  · rw [enqueues, hcommitted]
    rfl
  · intro hhist
    obtain ⟨es, -, -, hes, -⟩ := hhist.consecutive
    rw [herr] at hes
    cases hes

end OpenData.Buffer

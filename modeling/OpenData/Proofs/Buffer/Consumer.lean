import OpenData.Buffer.Consumer
import OpenData.Lib.Monadic
import OpenData.Proofs.Buffer.Fetch

/-!
# What consumers dequeue

`Act` lists what one step of the consumers can do. A run of consumers is a run of the queue under
them (`queue_run`), so the facts about the queue hold here as well. `removed_acknowledged`: what is
removed was acknowledged.
-/

namespace OpenData.Buffer

open Lib List Option

/-! ### The steps of a consumer -/

/-- The task of a consumer starts a call of the queue. -/
inductive Calls (c : ConsumerId) (op : OpId) : Task → Call → Task → Prop
  | position {op0 seq} :
      Calls c op (.initializing op0 (some seq)) (.dequeue c seq) (.positioning op (some seq))
  | poll {k} : Calls c op (.idle k) (k.nextCall c) (.polling op k)
  | flush {k seq} (hseq : k.lastAckedSequence = some seq) :
      Calls c op (.idle k) (.dequeue c seq) (.dequeueing op k)

/-- The task of a consumer goes on behind a call that has returned. -/
inductive Settles (s : System) : Task → Task → Prop
  | built {op} : Settles s (.initializing op none) (.idle (.new none))
  | positioned {op initial} : Settles s (.positioning op initial) (.idle (.new initial))
  | notInitialized {op initial} : Settles s (.initializing op initial) .failed
  | notPositioned {op initial} : Settles s (.positioning op initial) .failed
  | found {op k entry} (hresult : s.result op = some (.ok (.entry (some entry)))) :
      Settles s (.polling op k) (.fetching k entry)
  | polled {op k} : Settles s (.polling op k) (.idle k)
  | dequeued {op k} : Settles s (.dequeueing op k) (.idle k)
  | notFetched {k entry} : Settles s (.fetching k entry) (.idle k)

/-- What a step of the system can do. -/
inductive Act (s : System) : Event → System → Prop
  | queue {l queue} (hext : l.External = true)
      (hqueue : s.queue.step l = some queue) : Act s (.queue l) { s with queue }
  | build {c initial op queue} (htask : s.tasks c = none)
      (hqueue : s.queue.step (.start op (.initializeConsumer c)) = some queue) :
      Act s (.build c initial op) { s.setTask c (.initializing op initial) with
        queue, initial := Function.update s.initial c initial }
  | calls {e c op call task task' queue} (htask : s.tasks c = some task)
      (hcalls : Calls c op task call task')
      (hqueue : s.queue.step (.start op call) = some queue) :
      Act s e { s.setTask c task' with queue }
  | settles {e c task task'} (htask : s.tasks c = some task)
      (hsettles : Settles s task task') : Act s e (s.setTask c task')
  | fetched {c k entry} (htask : s.tasks c = some (.fetching k entry)) : Act s (.fetched c)
        (s.setTask c (.idle { k with lastFetchedSequence := some entry.sequence }))
  | acked {c k sequence op}
      (htask : s.tasks c = some (.idle k)) (hok : k.checkAck sequence = .ok ()) :
      Act s (.ack c sequence op) { s.setTask c (.idle (k.acked sequence)) with
        accepted := s.accepted ++ [(c, sequence)] }
  | ackedDequeue {c k sequence op queue}
      (htask : s.tasks c = some (.idle k)) (hok : k.checkAck sequence = .ok ())
      (hqueue : s.queue.step (.start op (.dequeue c sequence)) = some queue) :
      Act s (.ack c sequence op) { s.setTask c (.dequeueing op (k.acked sequence)) with
        queue, accepted := s.accepted ++ [(c, sequence)] }
  | same {e} : Act s e s

variable {task task' : Task} {sequence : UInt64}

variable {s s' : System} {e : Event} {es : List Event} {c : ConsumerId} {op : OpId} {call : Call}

theorem call_cases (h : s.call c op call task = some s') :
    ∃ queue, s.queue.step (.start op call) = some queue ∧ s' = { s.setTask c task with queue } := by
  rw [System.call] at h
  split at h
  · rename_i queue hqueue
    exact ⟨queue, hqueue, (some.inj h).symm⟩
  · cases h

variable {k : Consumer}

theorem act_of_ack (htask : s.tasks c = some (.idle k))
    (h : s.ack c k sequence op = some s') : Act s (.ack c sequence op) s' := by
  rw [System.ack] at h
  split at h
  · cases h
    exact Act.same
  · rename_i hok
    simp only at h
    split at h
    · obtain ⟨queue, hqueue, rfl⟩ := call_cases h
      exact Act.ackedDequeue htask hok hqueue
    · cases h
      exact Act.acked htask hok

theorem act_of_returned (htask : s.tasks c = some task) (h : s.afterCall c op task = some s') :
    Act s (.returned c op) s' := by
  cases task with
  | initializing op0 initial =>
    simp only [System.afterCall] at h
    split at h
    · cases initial with
      | none =>
        cases h
        exact Act.settles htask Settles.built
      | some =>
        obtain ⟨queue, hqueue, rfl⟩ := call_cases h
        exact Act.calls htask Calls.position hqueue
    · cases h
      exact Act.settles htask Settles.notInitialized
    · cases h
  | positioning =>
    simp only [System.afterCall] at h
    split at h
    · cases h
      exact Act.settles htask Settles.positioned
    · cases h
      exact Act.settles htask Settles.notPositioned
    · cases h
  | idle | fetching | failed => cases h
  | polling op0 k =>
    simp only [System.afterCall] at h
    split at h
    · rename_i hresult
      cases h
      exact Act.settles htask (Settles.found hresult)
    · cases h
      exact Act.settles htask Settles.polled
    · cases h
  | dequeueing op0 k =>
    simp only [System.afterCall] at h
    split at h
    · cases h
      exact Act.settles htask Settles.dequeued
    · cases h

theorem settles_of_cancelled (h : System.cancelled task = some task') : Settles s task task' := by
  cases task with
  | initializing => obtain rfl := some.inj h; exact Settles.notInitialized
  | positioning => obtain rfl := some.inj h; exact Settles.notPositioned
  | idle | failed => cases h
  | polling op k => obtain rfl := some.inj h; exact Settles.polled
  | fetching k entry => obtain rfl := some.inj h; exact Settles.notFetched
  | dequeueing op k => obtain rfl := some.inj h; exact Settles.dequeued

theorem act_of_step (h : s.step e = some s') : Act s e s' := by
  cases e with
  | queue =>
    simp only [System.step] at h
    split at h
    · rename_i hext
      split at h
      · rename_i queue hqueue
        cases h
        exact Act.queue hext hqueue
      · cases h
    · cases h
  | build =>
    simp only [System.step] at h
    split at h
    · rename_i htask
      obtain ⟨queue, hqueue, rfl⟩ := call_cases h
      exact Act.build htask hqueue
    · cases h
  | nextBatch =>
    simp only [System.step] at h
    split at h
    · rename_i k htask
      obtain ⟨queue, hqueue, rfl⟩ := call_cases h
      exact Act.calls htask Calls.poll hqueue
    · cases h
  | ack =>
    simp only [System.step] at h
    split at h
    · rename_i k htask
      exact act_of_ack htask h
    · cases h
  | flush =>
    simp only [System.step] at h
    split at h
    · rename_i k htask
      split at h
      · rename_i seq hseq
        obtain ⟨queue, hqueue, rfl⟩ := call_cases h
        exact Act.calls htask (Calls.flush hseq) hqueue
      · cases h
        exact Act.same
    · cases h
  | returned =>
    simp only [System.step] at h
    split at h
    · rename_i task htask
      exact act_of_returned htask h
    · cases h
  | fetched =>
    simp only [System.step] at h
    split at h
    · rename_i k entry htask
      cases h
      exact Act.fetched htask
    · cases h
  | fetchFails =>
    simp only [System.step] at h
    split at h
    · rename_i k entry htask
      cases h
      exact Act.settles htask Settles.notFetched
    · cases h
  | cancel =>
    simp only [System.step] at h
    split at h
    · rename_i task htask
      split at h
      · rename_i task' hcancel
        cases h
        exact Act.settles htask (settles_of_cancelled hcancel)
      · cases h
    · cases h

/-! ### The queue under the consumers -/

def systemFits (s : System) : Event → Prop
  | .queue l => enqueueFits s.queue l
  | _ => True

theorem Calls.bodyFits (h : Calls c op task call task') : call.BodyFits := by
  cases h with
  | position | flush => trivial
  | @poll k =>
    rw [Consumer.nextCall]
    split <;> trivial

theorem Act.queue_step (h : Act s e s') (hok : systemFits s e) :
    s'.queue = s.queue ∨ ∃ l, enqueueFits s.queue l ∧ s.queue.step l = some s'.queue := by
  cases h with
  | queue hext hqueue => exact Or.inr ⟨_, hok, hqueue⟩
  | @build c initial op queue htask hqueue =>
    exact Or.inr ⟨.start op (.initializeConsumer c), trivial, hqueue⟩
  | @calls e c op call task task' queue htask hcalls hqueue =>
    exact Or.inr ⟨.start op call, hcalls.bodyFits, hqueue⟩
  | settles | fetched | acked | same => exact Or.inl rfl
  | @ackedDequeue c k sequence op queue htask hok hqueue =>
    exact Or.inr ⟨.start op (.dequeue c sequence), trivial, hqueue⟩

theorem queue_run {ok : System → Event → Prop} (hrun : Run System.step ok System.init es s)
    (hok : ∀ s e, ok s e → systemFits s e) :
    ∃ ls, Run State.step enqueueFits State.init ls s.queue := by
  refine hrun.project System.queue ?_
  intro s e s' hoke hstep
  exact (act_of_step hstep).queue_step (hok s e hoke)

theorem Act.committed_mono (h : Act s e s') (hok : systemFits s e) :
    s.queue.committed <+: s'.queue.committed := by
  rcases h.queue_step hok with hsame | ⟨l, -, hstep⟩
  · simp only [hsame, prefix_rfl]
  · exact OpenData.Buffer.committed_mono hstep

/-! ### How far a consumer dequeues -/

def Task.bound : Task → Option UInt64
  | .initializing _ initial => initial
  | .positioning _ initial => initial
  | .idle k => k.lastAckedSequence
  | .polling _ k => k.lastAckedSequence
  | .fetching k _ => k.lastAckedSequence
  | .dequeueing _ k => k.lastAckedSequence
  | .failed => none

/-- `good` holds of every sequence up to which a consumer dequeues, now or by a call that it can
still start. -/
structure Bounded (good : ConsumerId → UInt64 → Prop) (s : System) : Prop where
  ops : ∀ op c t pc, s.queue.ops op = some ⟨.dequeue c t, pc⟩ → good c t
  tasks : ∀ c task t, s.tasks c = some task → task.bound = some t → good c t

theorem bound_setTask {good : ConsumerId → UInt64 → Prop}
    (hall : ∀ c' task', s.tasks c' = some task' → ∀ t, task'.bound = some t → good c' t)
    (hnew : ∀ t, task.bound = some t → good c t) (c' : ConsumerId) (task' : Task) (t : UInt64)
    (htask : (s.setTask c task).tasks c' = some task') (ht : task'.bound = some t) : good c' t := by
  have hupdate : Function.update s.tasks c (some task) c' = some task' := htask
  exact forall_update (P := fun c (task : Task) => ∀ t, task.bound = some t → good c t) hall hnew
    c' task' hupdate t ht

theorem Settles.bound {t} (h : Settles s task task') (ht : task'.bound = some t) :
    task.bound = some t := by
  cases h with
  | built | positioned | found | polled | dequeued | notFetched => exact ht
  | notInitialized | notPositioned => cases ht

theorem Calls.bound (h : Calls c op task call task') :
    task'.bound = task.bound ∧ ∀ c' t, call = .dequeue c' t → c' = c ∧ task.bound = some t := by
  cases h with
  | position =>
    refine ⟨rfl, ?_⟩
    rintro c' t hcall
    obtain ⟨rfl, rfl⟩ := Call.dequeue.inj hcall
    exact ⟨rfl, rfl⟩
  | poll =>
    refine ⟨rfl, ?_⟩
    intro c' t hcall
    rw [Consumer.nextCall] at hcall
    split at hcall <;> cases hcall
  | flush hseq =>
    refine ⟨rfl, ?_⟩
    rintro c' t hcall
    obtain ⟨rfl, rfl⟩ := Call.dequeue.inj hcall
    exact ⟨rfl, hseq⟩

section
variable {good good' : ConsumerId → UInt64 → Prop}

theorem Bounded.ops_step {l queue} (h : Bounded good s)
    (hmono : ∀ c t, good c t → good' c t) (hqueue : s.queue.step l = some queue)
    (hstart : ∀ op c t, l = .start op (.dequeue c t) → good' c t) (op : OpId) (c : ConsumerId)
    (t : UInt64) (pc : Pc) (hop : queue.ops op = some ⟨.dequeue c t, pc⟩) : good' c t := by
  rcases (move_of_step hqueue).call_origin hop with ⟨pc0, hop0⟩ | hl
  · exact hmono c t (h.ops op c t pc0 hop0)
  · exact hstart op c t hl

/-- A step keeps the bound when it keeps the property, an accepted acknowledgement has it, and a
new consumer is built with it. -/
theorem Bounded.act (h : Bounded good s) (hact : Act s e s') (hmono : ∀ c t, good c t → good' c t)
    (hack : ∀ c k sequence op, e = .ack c sequence op → s.tasks c = some (.idle k) →
      k.checkAck sequence = .ok () → good' c sequence)
    (hbuild : ∀ c t op, e = .build c (some t) op → good' c t) : Bounded good' s' := by
  have hops : ∀ op c t pc, s.queue.ops op = some ⟨.dequeue c t, pc⟩ → good' c t :=
    fun op c t pc hop => hmono c t (h.ops op c t pc hop)
  have htasks : ∀ c task, s.tasks c = some task → ∀ t, task.bound = some t → good' c t :=
    fun c task htask t ht => hmono c t (h.tasks c task t htask ht)
  cases hact with
  | @queue l queue hext hqueue =>
    refine ⟨h.ops_step hmono hqueue ?_, fun c task t htask ht => htasks c task htask t ht⟩
    rintro op c t rfl
    cases hext
  | @build c initial op queue htask hqueue =>
    refine ⟨h.ops_step hmono hqueue nofun, bound_setTask htasks ?_⟩
    rintro t rfl
    exact hbuild c t op rfl
  | @calls e c op call task task' queue htask hcalls hqueue =>
    obtain ⟨hbound, hdeq⟩ := hcalls.bound
    refine ⟨h.ops_step hmono hqueue ?_, bound_setTask htasks ?_⟩
    · intro op' c' t hl
      obtain ⟨-, hcall⟩ := Label.start.inj hl
      obtain ⟨rfl, ht⟩ := hdeq c' t hcall
      exact htasks _ task htask t ht
    · intro t ht
      exact htasks c task htask t (hbound ▸ ht)
  | @settles e c task task' htask hsettles =>
    exact ⟨hops, bound_setTask htasks fun t ht => htasks c task htask t (hsettles.bound ht)⟩
  | @fetched c k entry htask =>
    exact ⟨hops, bound_setTask htasks fun t ht => htasks c (.fetching k entry) htask t ht⟩
  | @acked c k sequence op htask hok =>
    have hseq := hack c k sequence op rfl htask hok
    refine ⟨hops, bound_setTask htasks ?_⟩
    rintro t ⟨⟩
    exact hseq
  | @ackedDequeue c k sequence op queue htask hok hqueue =>
    have hseq := hack c k sequence op rfl htask hok
    refine ⟨h.ops_step hmono hqueue ?_, bound_setTask htasks ?_⟩
    · rintro op' c' t hl
      obtain ⟨-, hcall⟩ := Label.start.inj hl
      obtain ⟨rfl, rfl⟩ := Call.dequeue.inj hcall
      exact hseq
    · rintro t ⟨⟩
      exact hseq
  | same => exact ⟨hops, fun c task t htask ht => htasks c task htask t ht⟩

end

/-! ### Only acknowledged entries are removed -/

def State.oldest (s : State) : Result UInt64 := do
  match (← s.entries) with
  | [] => s.nextSequence
  | e :: _ => .ok e.sequence

/-- The condition on `ack`: a consumer that has acknowledged nothing and was built without a
resume point starts at the oldest entry of the queue. -/
def firstAckInOrder (s : System) : Event → Prop
  | .ack c sequence _ => ∀ k, s.tasks c = some (.idle k) → k.lastAckedSequence = none →
      ∃ oldest, s.queue.oldest = .ok oldest ∧ sequence ≤ oldest
  | _ => True

/-- The condition on the steps. -/
def acksInOrder (s : System) (e : Event) : Prop := systemFits s e ∧ firstAckInOrder s e

/-- The consumer may remove the entry with this sequence: an acknowledgement of it was accepted,
or the consumer was built to resume behind it. -/
def System.Acknowledged (s : System) (c : ConsumerId) (x : UInt64) : Prop :=
  (c, x) ∈ s.accepted ∨ ∃ l, s.initial c = some l ∧ x ≤ l

def Covered (s : System) (c : ConsumerId) (t : UInt64) : Prop :=
  ∀ x, x ≤ t → s.Acknowledged c x ∨ x.toNat < front s.queue.committed

/-- Consumers without a task have no start position, and every dequeue is covered. -/
structure AckInvariant (s : System) : Prop where
  unbuilt : ∀ c, s.tasks c = none → s.initial c = none
  bounded : Bounded (Covered s) s

theorem oldest_eq (h : Linearized s.queue) (hcount : s.queue.enqueues.length < 2 ^ 64) {o}
    (ho : s.queue.oldest = .ok o) : o.toNat = front s.queue.committed := by
  have hseq := sequence_after_entries hcount
  have hfront := front_add_length s.queue.committed
  rw [State.oldest, h.entries] at ho
  cases hes : (Queue.after s.queue.committed).entries with
  | nil =>
    rw [hes] at ho hfront
    replace ho : s.queue.nextSequence = .ok o := ho
    rw [h.nextSequence, after_nextSequence] at ho
    have hmod := Nat.mod_eq_of_lt hcount
    rw [State.enqueues] at hmod
    rw [← Except.ok.inj ho, UInt64.toNat_ofNat', hmod, ← hfront]
    rfl
  | cons e =>
    rw [hes] at ho hseq
    obtain rfl : e.sequence = o := Except.ok.inj ho
    rw [map_cons, length_cons, List.range'_succ] at hseq
    exact (List.cons.inj hseq).1

/-- What is at most the next number is it or at most the number before, also when the numbers
come round. -/
theorem le_add_one_cases {x last : UInt64} (h : x ≤ last + 1) : x = last + 1 ∨ x ≤ last := by
  rw [UInt64.le_iff_toNat_le] at h ⊢
  rw [← UInt64.toNat_inj]
  have hadd : (last + 1).toNat = (last.toNat + 1) % 2 ^ 64 := UInt64.toNat_add last 1
  have hlast := last.toNat_lt
  omega

theorem Act.acknowledged_mono (h : Act s e s')
    (hunbuilt : ∀ c, s.tasks c = none → s.initial c = none)
    {x} (hx : s.Acknowledged c x) : s'.Acknowledged c x := by
  cases h with
  | queue | calls | settles | fetched | same => exact hx
  | @build c' initial op queue htask hqueue =>
    refine hx.imp_right ?_
    rintro ⟨l, hl, hle⟩
    have hne : c ≠ c' := by
      rintro rfl
      rw [hunbuilt c htask] at hl
      cases hl
    exact ⟨l, (Function.update_of_ne hne ..).trans hl, hle⟩
  | acked | ackedDequeue => exact hx.imp_left (mem_append_left _)

theorem Act.covered_mono {t} (h : Act s e s') (hok : systemFits s e)
    (hunbuilt : ∀ c, s.tasks c = none → s.initial c = none) (ht : Covered s c t) :
    Covered s' c t := by
  intro x hx
  have hfront := front_mono (h.committed_mono hok)
  exact (ht x hx).imp (h.acknowledged_mono hunbuilt) (fun hlt => Nat.lt_of_lt_of_le hlt hfront)

theorem accepted_of_ack (htask : s.tasks c = some (.idle k))
    (hok : k.checkAck sequence = .ok ()) (hstep : s.step (.ack c sequence op) = some s') :
    s'.accepted = s.accepted ++ [(c, sequence)] := by
  simp only [System.step, htask, System.ack, hok] at hstep
  split at hstep
  · obtain ⟨queue, -, rfl⟩ := call_cases hstep
    rfl
  · cases hstep
    rfl

/-- An accepted acknowledgement is covered: it follows the one before, or it is the first one and
nothing older is in the queue. -/
theorem AckInvariant.covered_ack (h : AckInvariant s) (hlin : Linearized s.queue)
    (hcount : s.queue.enqueues.length < 2 ^ 64) (hok : acksInOrder s (.ack c sequence op))
    (htask : s.tasks c = some (.idle k)) (hcheck : k.checkAck sequence = .ok ())
    (hstep : s.step (.ack c sequence op) = some s') : Covered s' c sequence := by
  have haccepted := accepted_of_ack htask hcheck hstep
  have hact := act_of_step hstep
  have hself : s'.Acknowledged c sequence := by
    refine Or.inl ?_
    rw [haccepted]
    exact mem_append_right _ (mem_singleton.mpr rfl)
  intro x hx
  cases hlast : k.lastAckedSequence with
  | none =>
    -- The condition on the first acknowledgement: what is below it has left the queue.
    obtain ⟨oldest, ho, hle⟩ := hok.2 k htask hlast
    have hfront := oldest_eq hlin hcount ho
    have hmono := front_mono (hact.committed_mono hok.1)
    by_cases hxs : x = sequence
    · exact Or.inl (hxs ▸ hself)
    · rw [UInt64.le_iff_toNat_le] at hx hle
      have hne : x.toNat ≠ sequence.toNat := fun heq => hxs (UInt64.toNat_inj.mp heq)
      exact Or.inr (by omega)
  | some last =>
    have hnext : sequence = last + 1 := by
      rw [Consumer.checkAck, hlast] at hcheck
      simp only at hcheck
      split at hcheck
      · cases hcheck
      · rename_i hne
        exact not_not.mp hne
    rw [hnext] at hx
    rcases le_add_one_cases hx with heq | hle
    · exact Or.inl (heq ▸ hnext ▸ hself)
    · have hcovered := h.bounded.tasks c _ last htask hlast
      exact hact.covered_mono hok.1 h.unbuilt hcovered x hle

theorem initial_of_build {initial}
    (hstep : s.step (.build c initial op) = some s') : s'.initial c = initial := by
  simp only [System.step] at hstep
  split at hstep
  · obtain ⟨queue, -, rfl⟩ := call_cases hstep
    exact Function.update_self ..
  · cases hstep

theorem Act.unbuilt (h : Act s e s') (hunbuilt : ∀ c, s.tasks c = none → s.initial c = none)
    (c : ConsumerId) (hc : s'.tasks c = none) : s'.initial c = none := by
  -- A consumer whose task was set has been built.
  have hset : ∀ {c' : ConsumerId} {task : Task}, (s.setTask c' task).tasks c = none →
      c ≠ c' ∧ s.tasks c = none := by
    intro c' task hnone
    have hupdate : Function.update s.tasks c' (some task) c = none := hnone
    by_cases hne : c = c'
    · subst hne
      rw [Function.update_self] at hupdate
      cases hupdate
    · rw [Function.update_of_ne hne] at hupdate
      exact ⟨hne, hupdate⟩
  cases h with
  | queue | same => exact hunbuilt c hc
  | build htask hqueue =>
    obtain ⟨hne, hnone⟩ := hset hc
    exact (Function.update_of_ne hne ..).trans (hunbuilt c hnone)
  | calls | settles | fetched | acked | ackedDequeue => exact hunbuilt c (hset hc).2

theorem AckInvariant.step (h : AckInvariant s) (hlin : Linearized s.queue)
    (hcount : s.queue.enqueues.length < 2 ^ 64) (hok : acksInOrder s e)
    (hstep : s.step e = some s') : AckInvariant s' := by
  have hact := act_of_step hstep
  refine ⟨hact.unbuilt h.unbuilt, ?_⟩
  refine h.bounded.act hact (fun c t ht => hact.covered_mono hok.1 h.unbuilt ht) ?_ ?_
  · rintro c k sequence op rfl htask hcheck
    exact h.covered_ack hlin hcount hok htask hcheck hstep
  · rintro c t op rfl x hx
    exact Or.inl (Or.inr ⟨t, initial_of_build hstep, hx⟩)

theorem enqueues_mono {queue queue' : State} (h : queue.committed <+: queue'.committed) :
    queue.enqueues.length ≤ queue'.enqueues.length := (h.filterMap _).length_le

/-- The invariant holds in every run whose steps meet the condition. The number of enqueues only
grows, so a bound at the end of the run is one on the way. -/
theorem ackInvariant_run (hrun : Run System.step acksInOrder System.init es s)
    (hcount : s.queue.enqueues.length < 2 ^ 64) : AckInvariant s := by
  refine hrun.invariant_reachable (I := fun s => s.queue.enqueues.length < 2 ^ 64 → AckInvariant s)
    (fun _ => ⟨fun _ _ => rfl, nofun, nofun⟩) ?_ hcount
  intro es s e s' hrun ih hok hstep hcount'
  have hmono := enqueues_mono ((act_of_step hstep).committed_mono hok.1)
  have hcount : s.queue.enqueues.length < 2 ^ 64 := Nat.lt_of_le_of_lt hmono hcount'
  obtain ⟨ls, hqueue⟩ := queue_run hrun fun _ _ h => h.1
  exact (ih hcount).step (linearized_run hqueue) hcount hok hstep

/-- In every run in which the enqueued entries fit and a consumer without a resume point first
acknowledges the oldest entry of the queue: an entry that a dequeue of a consumer removes was
acknowledged to it before, or lies at or below the sequence it was built with. -/
theorem removed_acknowledged (hrun : Run System.step acksInOrder System.init es s)
    (hcount : s.queue.enqueues.length < 2 ^ 64) {t : UInt64} {pc : Pc}
    (hop : s.queue.ops op = some ⟨.dequeue c t, pc⟩) (hstep : s.step (.queue (.put op)) = some s') :
    ∃ before now, s.queue.entries = .ok before ∧ s'.queue.entries = .ok now ∧
      ∀ entry ∈ before, entry ∉ now → s.Acknowledged c entry.sequence := by
  obtain ⟨ls, hqueue⟩ := queue_run hrun fun _ _ h => h.1
  have hok : acksInOrder s (.queue (.put op)) := ⟨trivial, trivial⟩
  obtain ⟨ls', hqueue'⟩ := queue_run (hrun.snoc hok hstep) fun _ _ h => h.1
  have hlin := linearized_run hqueue
  have hstep' : s.queue.step (.put op) = some s'.queue := by
    have hext : Label.External (.put op) = true := rfl
    simp only [System.step, hext, if_true] at hstep
    split at hstep
    · rename_i queue hput
      rw [← some.inj hstep]
      exact hput
    · cases hstep
  have hinv := ackInvariant_run hrun hcount
  cases hlin.queueStep (linearized_run hqueue') (allTraced_run hqueue) hstep' with
  | quiet before now =>
    exact ⟨_, _, before, now, fun entry he hnot => absurd he hnot⟩
  | enqueued call before now =>
    exact ⟨_, _, before, now, fun entry he hnot => absurd (mem_append_left _ he) hnot⟩
  | @dequeued _ c' t' pc' _ removed rest call before now through =>
    obtain ⟨hcall, -⟩ := Op.mk.inj (mem_unique hop call)
    obtain ⟨rfl, rfl⟩ := Call.dequeue.inj hcall
    refine ⟨_, _, before, now, ?_⟩
    intro entry he hnot
    have hremoved : entry ∈ removed := (mem_append.mp he).resolve_right hnot
    have hmem : entry ∈ (Queue.after s.queue.committed).entries := by
      rw [← Except.ok.inj (before.symm.trans hlin.entries)]
      exact he
    have hfront := (front_le_of_mem hcount hmem).1
    -- What a dequeue reaches is acknowledged or gone, and this entry is still there.
    rcases hinv.bounded.ops _ _ _ _ hop entry.sequence (through entry hremoved) with hack | hlt
    · exact hack
    · omega

def twoBatches : List Event :=
  [.queue (.start 0 (.enqueue "a" [])), .queue (.read 0), .queue (.put 0),
    .queue (.start 1 (.enqueue "b" [])), .queue (.read 1), .queue (.put 1),
    .build 0 none 2, .queue (.read 2), .queue (.put 2), .queue (.store 2), .returned 0 0]

theorem twoBatches_fits (e : Event) (he : e ∈ twoBatches) (s : System) : acksInOrder s e := by
  have hfits : entryBodyLen "a" [] ≤ u32Max ∧ entryBodyLen "b" [] ≤ u32Max := by decide +kernel
  revert e
  simp [twoBatches, acksInOrder, systemFits, firstAckInOrder, enqueueFits, Call.BodyFits, hfits]

/-- The consumer acknowledges the first batch and flushes. -/
theorem removed_acknowledged_twoBatches : ∃ s s', Run System.step acksInOrder System.init
        (twoBatches ++ [.ack 0 0 3] ++ [.flush 0 3, .queue (.read 3), .queue (.check 3)]) s ∧
      s.step (.queue (.put 3)) = some s' ∧ s.queue.entries.toOption.map List.length = some 2 ∧
      s'.queue.entries.toOption.map List.length = some 1 ∧
      ∃ before now, s.queue.entries = .ok before ∧ s'.queue.entries = .ok now ∧
        ∀ entry ∈ before, entry ∉ now → s.Acknowledged 0 entry.sequence := by
  have heval : (twoBatches.foldlM System.step System.init).any (fun s1 =>
      decide (s1.queue.oldest.toOption = some 0) && (s1.step (.ack 0 0 3)).any (fun s2 =>
        ([.flush 0 3, .queue (.read 3), .queue (.check 3)].foldlM System.step s2).any (fun s =>
          decide (s.queue.enqueues.length = 2 ∧ (s.queue.ops 3).map Op.call = some (.dequeue 0 0) ∧
            s.queue.entries.toOption.map List.length = some 2) &&
          (s.step (.queue (.put 3))).any (fun s' =>
            decide (s'.queue.entries.toOption.map List.length = some 1))))) = true := by
    decide +kernel
  simp only [Option.any_eq_true, Bool.and_eq_true, decide_eq_true_eq] at heval
  obtain ⟨s1, hs1, holdest, s2, hs2, s, hs, ⟨hcount, hcall, hbefore⟩, s', hs', hnow⟩ := heval
  obtain ⟨⟨call, pc⟩, hop, rfl⟩ := map_eq_some_iff.mp hcall
  have hack : acksInOrder s1 (.ack 0 0 3) :=
    ⟨trivial, fun k _ _ => ⟨0, toOption_eq_some.mp holdest, by decide⟩⟩
  have hrest : ∀ e ∈ [Event.flush 0 3, .queue (.read 3), .queue (.check 3)],
      ∀ s, acksInOrder s e := by
    simp [acksInOrder, systemFits, firstAckInOrder, enqueueFits]
  have hrun := (((Run.of_foldlM hs1).of_labels twoBatches_fits).trans
    (Run.single hack hs2)).trans ((Run.of_foldlM hs).of_labels hrest)
  exact ⟨s, s', hrun, hs', hbefore, hnow, removed_acknowledged hrun (by omega) hop hs'⟩

/-- The consumer fetches both batches and acknowledges the second one only: the first
acknowledgement is not checked. -/
def secondBatchAcked : List Event :=
  twoBatches ++ [.nextBatch 0 3, .queue (.read 3), .queue (.check 3), .returned 0 0, .fetched 0,
    .nextBatch 0 4, .queue (.read 4), .queue (.check 4), .returned 0 0, .fetched 0,
    .ack 0 1 5, .flush 0 5, .queue (.read 5), .queue (.check 5)]

/-- The flush removes both batches, and the first one was never acknowledged. -/
theorem unchecked_first_ack : ∃ s s', Run System.step anyStep System.init secondBatchAcked s ∧
      s.queue.enqueues.length = 2 ∧ (∃ pc, s.queue.ops 5 = some ⟨.dequeue 0 1, pc⟩) ∧
      s.step (.queue (.put 5)) = some s' ∧
      s.queue.entries = .ok [⟨0, "a", []⟩, ⟨1, "b", []⟩] ∧ s'.queue.entries = .ok [] ∧
      s.accepted = [(0, 1)] ∧ s.initial 0 = none ∧ ¬ s.Acknowledged 0 0 := by
  have heval : (secondBatchAcked.foldlM System.step System.init).any (fun s =>
      decide (s.queue.enqueues.length = 2 ∧ (s.queue.ops 5).map Op.call = some (.dequeue 0 1) ∧
        s.queue.entries.toOption = some [⟨0, "a", []⟩, ⟨1, "b", []⟩] ∧ s.accepted = [(0, 1)] ∧
        s.initial 0 = none) &&
      (s.step (.queue (.put 5))).any (fun s' => decide (s'.queue.entries.toOption = some [])))
      = true := by
    decide +kernel
  simp only [Option.any_eq_true, Bool.and_eq_true, decide_eq_true_eq] at heval
  obtain ⟨s, hs, ⟨hcount, hcall, hbefore, haccepted, hinitial⟩, s', hs', hnow⟩ := heval
  obtain ⟨⟨call, pc⟩, hop, rfl⟩ := map_eq_some_iff.mp hcall
  refine ⟨s, s', Run.of_foldlM hs, hcount, ⟨pc, hop⟩, hs', toOption_eq_some.mp hbefore,
    toOption_eq_some.mp hnow, haccepted, hinitial, ?_⟩
  rintro (hmem | ⟨l, hl, -⟩)
  · rw [haccepted] at hmem
    exact absurd hmem (by decide)
  · rw [hinitial] at hl
    cases hl

end OpenData.Buffer

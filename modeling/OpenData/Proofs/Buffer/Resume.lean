import OpenData.Proofs.Buffer.Consumer

/-!
# No batch is lost or delivered twice

The application of `OpenData.Buffer.Consumer` keeps a durable resume point. `ResumeInvariant` is
what holds in every run, across crashes, takeovers, failed calls and dropped futures (`resume_safe`,
`batches_in_order`).
-/

namespace OpenData.Buffer

open Lib List Application

def cursor : Option UInt64 → Nat
  | none => 0
  | some l => l.toNat + 1

/-! ### What a consumer gets -/

def Polled (queue : State) (c : ConsumerId) : Task → Prop
  | .polling op k => ∃ pc, queue.ops op = some ⟨k.nextCall c, pc⟩
  | .fetching k entry => ∃ calls, calls <+: queue.committed ∧
      (k.nextCall c).lookup (Queue.after calls) = some (some entry)
  | _ => True

def AllPolled (s : System) : Prop := ∀ c task, s.tasks c = some task → Polled s.queue c task

variable {queue' : State}

section
variable {s s' : System} {e : Event} {es : List Event} {c : ConsumerId} {op : OpId} {task : Task}
  {queue : State}

theorem Polled.step {l} (h : Polled queue c task)
    (hstep : queue.step l = some queue') : Polled queue' c task := by
  cases task with
  | polling =>
    obtain ⟨pc, hop⟩ := h
    exact (move_of_step hstep).call_mono hop
  | fetching =>
    obtain ⟨calls, hcalls, hlookup⟩ := h
    exact ⟨calls, hcalls.trans (committed_mono hstep), hlookup⟩
  | initializing | positioning | idle | dequeueing | failed => trivial

theorem AllPolled.setTask (h : AllPolled s)
    (hqueue : queue' = s.queue ∨ ∃ l, s.queue.step l = some queue') (hnew : Polled queue' c task)
    (c' : ConsumerId) (task' : Task) (htask' : (s.setTask c task).tasks c' = some task') :
    Polled queue' c' task' := by
  have hall : ∀ c' task', s.tasks c' = some task' → Polled queue' c' task' := by
    intro c' task' htask'
    rcases hqueue with rfl | ⟨l, hstep⟩
    · exact h c' task' htask'
    · exact (h c' task' htask').step hstep
  exact forall_update (P := fun c task => Polled queue' c task) hall hnew c' task' htask'

theorem started_op {call} (hstep : queue.step (.start op call) = some queue') :
    ∃ pc, queue'.ops op = some ⟨call, pc⟩ := by
  simp only [State.step] at hstep
  split at hstep
  · cases hstep
    exact ⟨_, ops_setOp_self⟩
  · cases hstep

theorem result_eq {r} (h : s.result op = some r) :
    ∃ call, s.queue.ops op = some ⟨call, .returned r⟩ := by
  rw [System.result] at h
  split at h
  · rename_i call r' hop
    cases h
    exact ⟨call, hop⟩
  · cases h

theorem AllPolled.act (h : AllPolled s) (hfetched : AllFetched s.queue) (hact : Act s e s') :
    AllPolled s' := by
  cases hact with
  | queue hext hqueue => exact fun c task htask => (h c task htask).step hqueue
  | build _ hqueue | ackedDequeue _ _ hqueue => exact h.setTask (Or.inr ⟨_, hqueue⟩) trivial
  | @calls e c op call task task' queue htask hcalls hqueue =>
    refine h.setTask (Or.inr ⟨_, hqueue⟩) ?_
    cases hcalls with
    | position | flush => trivial
    | poll => exact started_op hqueue
  | @settles e c task task' htask hsettles =>
    refine h.setTask (Or.inl rfl) ?_
    cases hsettles with
    | @found op k entry hresult =>
      -- The result belongs to the call that the consumer made.
      obtain ⟨call, hop⟩ := result_eq hresult
      obtain ⟨pc, hop'⟩ := h c _ htask
      obtain ⟨rfl, -⟩ := Op.mk.inj (Option.mem_unique hop hop')
      exact hfetched op _ _ hop
    | built | positioned | notInitialized | notPositioned | polled | dequeued | notFetched =>
      trivial
  | fetched | acked => exact h.setTask (Or.inl rfl) trivial
  | same => exact h

/-- The sequence of the entry that a consumer finds is the one it asks for, as long as nothing
behind its position has left the queue. -/
theorem sequence_of_lookup {calls committed} {k : Consumer}
    {entry} (hcalls : calls <+: committed)
    (hcount : (enqueuesOf committed).length < 2 ^ 64)
    (hlookup : (k.nextCall c).lookup (Queue.after calls) = some (some entry))
    (hfront : front committed ≤ cursor k.lastFetchedSequence)
    (hseen : cursor k.lastFetchedSequence ≤ (enqueuesOf committed).length) :
    entry.sequence.toNat = cursor k.lastFetchedSequence ∧
      entry.sequence.toNat < (enqueuesOf committed).length := by
  have hlen : (enqueuesOf calls).length ≤ (enqueuesOf committed).length :=
    (hcalls.filterMap _).length_le
  have hcount' : (enqueuesOf calls).length < 2 ^ 64 := Nat.lt_of_le_of_lt hlen hcount
  have hmono := front_mono hcalls
  cases hlast : k.lastFetchedSequence with
  | none =>
    rw [Consumer.nextCall, hlast] at hlookup
    have hhead : (Queue.after calls).entries.head? = some entry := Option.some.inj hlookup
    have hmem := mem_of_mem_head? hhead
    have hbounds := front_le_of_mem hcount' hmem
    -- The first entry has the number of the front, and nothing has left the queue.
    have hfirst : entry.sequence.toNat = front calls := by
      have hseq := congrArg List.head? (sequence_after_entries hcount')
      rw [List.head?_map, hhead] at hseq
      cases hn : (Queue.after calls).entries.length with
      | zero => rw [length_eq_zero_iff.mp hn] at hmem; cases hmem
      | succ =>
        rw [hn, List.range'_succ] at hseq
        exact Option.some.inj hseq
    rw [hlast, cursor] at hfront
    rw [cursor]
    omega
  | some seq =>
    rw [Consumer.nextCall, hlast] at hlookup
    have hfind : (Queue.after calls).entries.find? (fun e => e.sequence == seq + 1)
        = some entry := Option.some.inj hlookup
    have hbounds := front_le_of_mem hcount' (mem_of_find?_eq_some hfind)
    have heq : entry.sequence = seq + 1 := by simpa using find?_some hfind
    have hadd : (seq + 1).toNat = (seq.toNat + 1) % 2 ^ 64 := UInt64.toNat_add seq 1
    rw [hlast, cursor] at hseen
    rw [heq] at hbounds
    rw [cursor, heq]
    omega

/-! ### The position of a consumer -/

def Task.position : Task → Option Nat
  | .initializing _ initial => some (cursor initial)
  | .positioning _ initial => some (cursor initial)
  | .idle k => some (cursor k.lastFetchedSequence)
  | .polling _ k => some (cursor k.lastFetchedSequence)
  | .fetching k _ => some (cursor k.lastFetchedSequence)
  | .dequeueing _ k => some (cursor k.lastFetchedSequence)
  | .failed => none

variable {task' : Task}

theorem Settles.position_eq {p} (h : Settles s task task')
    (hp : task'.position = some p) : task.position = some p := by
  cases h with
  | built | positioned | found | polled | dequeued | notFetched => exact hp
  | notInitialized | notPositioned => cases hp

theorem Calls.position_eq {call} (h : Calls c op task call task') :
    task'.position = task.position := by
  cases h <;> rfl

/-- What a step does to the position of a consumer: only a delivered batch moves it, and a new
consumer starts behind its resume point. -/
theorem Act.position {p} (h : Act s e s') (hdeliver : ∀ entry, s.delivers e ≠ some (c, entry))
    (htask' : s'.tasks c = some task') (hp : task'.position = some p) :
    (∃ task, s.tasks c = some task ∧ task.position = some p) ∨
    ∃ initial op, e = .build c initial op ∧ p = cursor initial := by
  -- The tasks of the other consumers are the same.
  have hset : ∀ {c' : ConsumerId} {new : Task}, (s.setTask c' new).tasks c = some task' →
      s.tasks c = some task' ∨ c' = c ∧ new = task' := by
    intro c' new hnew
    have hupdate : Function.update s.tasks c' (some new) c = some task' := hnew
    by_cases hne : c = c'
    · subst hne
      rw [Function.update_self] at hupdate
      exact Or.inr ⟨rfl, Option.some.inj hupdate⟩
    · rw [Function.update_of_ne hne] at hupdate
      exact Or.inl hupdate
  cases h with
  | queue | same => exact Or.inl ⟨task', htask', hp⟩
  | @build c' initial op queue htask hqueue =>
    rcases hset htask' with hsame | ⟨rfl, rfl⟩
    · exact Or.inl ⟨task', hsame, hp⟩
    · exact Or.inr ⟨initial, op, rfl, (Option.some.inj hp).symm⟩
  | @calls e c' op call task new queue htask hcalls hqueue =>
    rcases hset htask' with hsame | ⟨rfl, rfl⟩
    · exact Or.inl ⟨task', hsame, hp⟩
    · exact Or.inl ⟨task, htask, hcalls.position_eq ▸ hp⟩
  | @settles e c' task new htask hsettles =>
    rcases hset htask' with hsame | ⟨rfl, rfl⟩
    · exact Or.inl ⟨task', hsame, hp⟩
    · exact Or.inl ⟨task, htask, hsettles.position_eq hp⟩
  | @fetched c' k entry htask =>
    rcases hset htask' with hsame | ⟨rfl, -⟩
    · exact Or.inl ⟨task', hsame, hp⟩
    · exact absurd (by simp only [System.delivers, htask]) (hdeliver entry)
  | @acked _ _ _ _ htask | @ackedDequeue _ _ _ _ _ htask =>
    rcases hset htask' with hsame | ⟨rfl, rfl⟩
    · exact Or.inl ⟨task', hsame, hp⟩
    · exact Or.inl ⟨_, htask, hp⟩

theorem front_le_of_step {l n} (hcount : queue.enqueues.length < 2 ^ 64) (htraced : AllTraced queue)
    (hdeq : ∀ op c t pc, queue.ops op = some ⟨.dequeue c t, pc⟩ → t.toNat < n)
    (hfront : front queue.committed ≤ n) (hstep : queue.step l = some queue') :
    front queue'.committed ≤ n := by
  rcases step_object htraced hstep with ⟨-, hsame⟩ | ⟨op, call, m0, m, reply, -, hc⟩
  · rw [hsame]
    exact hfront
  · rw [hc.committed]
    obtain ⟨version, hop⟩ := hc.waiting
    cases hc.edit with
    | enqueue => rwa [front_enqueue]
    | @takeover c =>
      have hno : ∀ c' t, Call.initializeConsumer c ≠ .dequeue c' t := nofun
      rwa [front_append_of_not_dequeue _ _ hno]
    | dequeue =>
      have hlt := hdeq _ _ _ _ hop
      rw [front_dequeue hcount]
      omega

end

/-! ### The application -/

/-- The condition on the steps: what is enqueued fits. -/
def applicationFits (a : Application) : Action → Prop
  | .run e => systemFits a.system e
  | _ => True

/-- What was fetched and not stored starts at the cursor, and nothing from there on is dequeued. -/
structure ResumeInvariant (a : Application) : Prop where
  bounded : Bounded (fun _ t => t.toNat < cursor a.resume) a.system
  front : front a.system.queue.committed ≤ cursor a.resume
  stored : ∀ seq ∈ a.stored, seq.toNat < cursor a.resume
  numbered : a.fetched.map UInt64.toNat = range' (cursor a.resume) a.fetched.length
  position : ∀ c task p, a.current = some c → a.system.tasks c = some task →
    task.position = some p → p = cursor a.resume + a.fetched.length
  enqueued : cursor a.resume + a.fetched.length ≤ a.system.queue.enqueues.length

variable {system' : System}

variable {a a' : Application} {x : Action} {xs : List Action} {e : Event} {c : ConsumerId}
  {entry : QueueEntry} {s : System}

theorem delivers_cases (h : s.delivers e = some (c, entry)) :
    e = .fetched c ∧ ∃ k, s.tasks c = some (.fetching k entry) := by
  cases e with
  | fetched =>
    simp only [System.delivers] at h
    split at h
    · rename_i k entry' htask
      cases h
      exact ⟨rfl, k, htask⟩
    · cases h
  | _ => cases h

theorem ResumeInvariant.delivered (h : ResumeInvariant a) (hpolled : AllPolled a.system)
    (hcount : a.system.queue.enqueues.length < 2 ^ 64) (hcurrent : a.current = some c)
    (hdeliver : a.system.delivers e = some (c, entry)) :
    entry.sequence.toNat = cursor a.resume + a.fetched.length ∧
      entry.sequence.toNat < a.system.queue.enqueues.length := by
  obtain ⟨-, k, htask⟩ := delivers_cases hdeliver
  have hposition := h.position _ _ _ hcurrent htask rfl
  obtain ⟨calls, hcalls, hlookup⟩ := hpolled _ _ htask
  have hfront := h.front
  have henqueued := h.enqueued
  have hfound := sequence_of_lookup hcalls hcount hlookup (by omega) (by
    rw [State.enqueues] at henqueued
    omega)
  rw [hposition] at hfound
  exact hfound

theorem Bounded.mono {good good' : ConsumerId → UInt64 → Prop} (h : Bounded good s)
    (hmono : ∀ c t, good c t → good' c t) : Bounded good' s where
  ops := fun op c t pc hop => hmono c t (h.ops op c t pc hop)
  tasks := fun c task t htask ht => hmono c t (h.tasks c task t htask ht)

/-- What a step of the application can do. -/
inductive Turn (a : Application) : Action → Application → Prop where
  | run {e system} (hflight : e.InFlight = true) (hsystem : a.system.step e = some system) :
      Turn a (.run e) { a with system, fetched := a.fetched ++ a.received e }
  | build {c op system} (hsystem : a.system.step (.build c a.resume op) = some system) :
      Turn a (.build c op) { a with system, current := some c, fetched := [], stored := [] }
  | nextBatch {op c system} (hcurrent : a.current = some c)
      (hsystem : a.system.step (.nextBatch c op) = some system) :
      Turn a (.nextBatch op) { a with system }
  | store {seq rest} (hfetched : a.fetched = seq :: rest) :
      Turn a .store { a with resume := some seq, fetched := rest, stored := a.stored ++ [seq] }
  | ack {op again c seq rest system} (hcurrent : a.current = some c)
      (hstored : a.stored = seq :: rest)
      (hsystem : a.system.step (.ack c seq op) = some system) :
      Turn a (.ack op again) { a with system, stored := if again then a.stored else rest }
  | flush {op c system} (hcurrent : a.current = some c)
      (hsystem : a.system.step (.flush c op) = some system) : Turn a (.flush op) { a with system }

theorem turn_of_step (hstep : a.step x = some a') : Turn a x a' := by
  cases x with
  | run =>
    simp only [step] at hstep
    split at hstep
    · rename_i hflight
      split at hstep
      · rename_i system hsystem
        cases hstep
        exact .run hflight hsystem
      · cases hstep
    · cases hstep
  | build =>
    simp only [step] at hstep
    split at hstep
    · rename_i system hsystem
      cases hstep
      exact .build hsystem
    · cases hstep
  | nextBatch =>
    simp only [step] at hstep
    split at hstep
    · rename_i c hcurrent
      split at hstep
      · rename_i system hsystem
        cases hstep
        exact .nextBatch hcurrent hsystem
      · cases hstep
    · cases hstep
  | store =>
    simp only [step] at hstep
    split at hstep
    · rename_i seq rest hfetched
      cases hstep
      exact .store hfetched
    · cases hstep
  | ack =>
    simp only [step] at hstep
    split at hstep
    · rename_i c seq rest hcurrent hstored
      split at hstep
      · rename_i system hsystem
        cases hstep
        exact .ack hcurrent hstored hsystem
      · cases hstep
    · cases hstep
  | flush =>
    simp only [step] at hstep
    split at hstep
    · rename_i c hcurrent
      split at hstep
      · rename_i system hsystem
        cases hstep
        exact .flush hcurrent hsystem
      · cases hstep
    · cases hstep

/-- What is known of the queue and the tasks in every state of a run. -/
structure Reached (a : Application) : Prop where
  traced : AllTraced a.system.queue
  polled : AllPolled a.system
  count : a.system.queue.enqueues.length < 2 ^ 64

section

variable (h : ResumeInvariant a)
include h

theorem ResumeInvariant.front_step (hr : Reached a)
    (hact : Act a.system e system') (hfit : systemFits a.system e) :
    OpenData.Buffer.front system'.queue.committed ≤ cursor a.resume := by
  rcases hact.queue_step hfit with hsame | ⟨l, -, hstep⟩
  · rw [hsame]
    exact h.front
  · exact front_le_of_step hr.count hr.traced h.bounded.ops h.front hstep

theorem ResumeInvariant.quiet {stored'} (hr : Reached a)
    (hact : Act a.system e system') (hfit : systemFits a.system e)
    (hdeliver : ∀ c entry, a.current = some c → a.system.delivers e ≠ some (c, entry))
    (hbuild : ∀ c initial op, e ≠ .build c initial op)
    (hack : ∀ c seq op, e = .ack c seq op → seq.toNat < cursor a.resume)
    (hstored : ∀ seq ∈ stored', seq.toNat < cursor a.resume) :
    ResumeInvariant { a with system := system', stored := stored' } where
  bounded := by
    refine h.bounded.act hact (fun _ _ => id) ?_ ?_
    · rintro c k seq op heq - -
      exact hack c seq op heq
    · intro c t op heq
      exact absurd heq (hbuild c (some t) op)
  front := h.front_step hr hact hfit
  stored := hstored
  numbered := h.numbered
  position := by
    intro c task p hc htask hp
    rcases hact.position (hdeliver c · hc) htask hp with
      ⟨task0, htask0, hp0⟩ | ⟨initial, op, heq, -⟩
    · exact h.position c task0 p hc htask0 hp0
    · exact absurd heq (hbuild c initial op)
  enqueued := Nat.le_trans h.enqueued (enqueues_mono (hact.committed_mono hfit))

theorem ResumeInvariant.receive (hr : Reached a)
    (hstep : a.system.step e = some system') (hfit : systemFits a.system e)
    (hcurrent : a.current = some c) (hdeliver : a.system.delivers e = some (c, entry)) :
    ResumeInvariant { a with system := system', fetched := a.fetched ++ [entry.sequence] } := by
  have hact := act_of_step hstep
  obtain ⟨hseq, hlt⟩ := h.delivered hr.polled hr.count hcurrent hdeliver
  have hmono := enqueues_mono (hact.committed_mono hfit)
  -- The only step that delivers is the end of a fetch.
  obtain ⟨rfl, k, htask⟩ := delivers_cases hdeliver
  have hfront := h.front_step hr hact hfit
  have hbounded := h.bounded.act hact (fun _ _ => id) nofun nofun
  simp only [System.step, htask, Option.some.injEq] at hstep
  subst hstep
  exact {
    bounded := hbounded
    front := hfront
    stored := h.stored
    numbered := by
      rw [map_append, length_append, map_singleton, length_singleton,
        List.range'_concat, h.numbered, hseq, Nat.one_mul]
    position := by
      intro c' task p hc' htask' hp
      obtain rfl := Option.mem_unique hcurrent hc'
      have hupdate : Function.update a.system.tasks c (some (.idle
          { k with lastFetchedSequence := some entry.sequence })) c = some task := htask'
      rw [Function.update_self] at hupdate
      cases hupdate
      rw [← Option.some.inj hp, length_append, length_singleton]
      show entry.sequence.toNat + 1 = cursor a.resume + (a.fetched.length + 1)
      omega
    enqueued := by
      rw [length_append, length_singleton]
      show cursor a.resume + (a.fetched.length + 1) ≤ a.system.queue.enqueues.length
      omega }

theorem ResumeInvariant.store {seq rest} (hfetched : a.fetched = seq :: rest) : ResumeInvariant
      { a with resume := some seq, fetched := rest, stored := a.stored ++ [seq] } := by
  have hnumbered := h.numbered
  have henqueued := h.enqueued
  have hfront := h.front
  rw [hfetched, map_cons, length_cons, List.range'_succ] at hnumbered
  rw [hfetched, length_cons] at henqueued
  obtain ⟨hseq, hrest⟩ := List.cons.inj hnumbered
  have hcursor : cursor (some seq) = cursor a.resume + 1 := by rw [cursor, hseq]
  exact {
    bounded := h.bounded.mono fun _ t ht => by rw [hcursor]; omega
    front := Nat.le_trans hfront (by rw [hcursor]; exact Nat.le_succ _)
    stored := by
      intro seq' hmem
      rw [hcursor]
      rcases mem_append.mp hmem with hmem | hmem
      · exact Nat.lt_succ_of_lt (h.stored seq' hmem)
      · rw [mem_singleton.mp hmem, hseq]
        exact Nat.lt_succ_self _
    numbered := by rw [hcursor, hrest]
    position := by
      intro c task p hc htask hp
      have hp' := h.position c task p hc htask hp
      rw [hfetched, length_cons] at hp'
      show p = cursor (some seq) + rest.length
      omega
    enqueued := by
      show cursor (some seq) + rest.length ≤ a.system.queue.enqueues.length
      omega }

theorem ResumeInvariant.build {op} (hr : Reached a)
    (hstep : a.system.step (.build c a.resume op) = some system') : ResumeInvariant
      { a with system := system', current := some c, fetched := [], stored := [] } := by
  have hact := act_of_step hstep
  have hunbuilt : a.system.tasks c = none := by
    simp only [System.step] at hstep
    split at hstep
    · assumption
    · cases hstep
  have henqueued := h.enqueued
  have hmono := enqueues_mono (hact.committed_mono trivial)
  exact {
    bounded := by
      refine h.bounded.act hact (fun _ _ => id) (by simp) ?_
      rintro c' t op' heq
      obtain ⟨-, hresume, -⟩ := Event.build.inj heq
      rw [hresume, cursor]
      exact Nat.lt_succ_self _
    front := h.front_step hr hact trivial
    stored := by simp
    numbered := rfl
    position := by
      intro c' task p hc' htask' hp
      cases hc'
      rcases hact.position (by simp [System.delivers]) htask' hp with
        ⟨task0, htask0, -⟩ | ⟨initial, op', heq, rfl⟩
      · rw [hunbuilt] at htask0
        cases htask0
      · obtain ⟨-, rfl, -⟩ := Event.build.inj heq
        rfl
    enqueued := by
      show cursor a.resume + 0 ≤ system'.queue.enqueues.length
      omega }

end

theorem ResumeInvariant.run_step (h : ResumeInvariant a) (hr : Reached a)
    (hflight : e.InFlight = true) (hstep : a.system.step e = some system')
    (hfit : systemFits a.system e) :
    ResumeInvariant { a with system := system', fetched := a.fetched ++ a.received e } := by
  have hquiet : (∀ c entry, a.current = some c → a.system.delivers e ≠ some (c, entry)) →
      ResumeInvariant { a with system := system', fetched := a.fetched ++ [] } := by
    intro hdeliver
    rw [append_nil]
    refine h.quiet hr (act_of_step hstep) hfit hdeliver ?_ ?_ h.stored
    · rintro c initial op rfl
      cases hflight
    · rintro c seq op rfl
      cases hflight
  cases hdeliver : a.system.delivers e with
  | none =>
    rw [received, hdeliver]
    refine hquiet fun c entry _ hsome => ?_
    rw [hdeliver] at hsome
    cases hsome
  | some delivery =>
    obtain ⟨c, entry⟩ := delivery
    by_cases hcurrent : a.current = some c
    · have hreceived : a.received e = [entry.sequence] := by
        simp only [received, hdeliver, hcurrent, if_true]
      rw [hreceived]
      exact h.receive hr hstep hfit hcurrent hdeliver
    · -- A batch of an earlier incarnation.
      have hreceived : a.received e = [] := by
        simp only [received, hdeliver, hcurrent, if_false]
      rw [hreceived]
      refine hquiet fun c' entry' hc' hsome => hcurrent ?_
      rw [hdeliver] at hsome
      obtain ⟨rfl, -⟩ := Prod.mk.inj (Option.some.inj hsome)
      exact hc'

theorem ResumeInvariant.turn (h : ResumeInvariant a) (hr : Reached a) (hok : applicationFits a x)
    (hturn : Turn a x a') : ResumeInvariant a' := by
  cases hturn with
  | run hflight hsystem => exact h.run_step hr hflight hsystem hok
  | build hsystem => exact h.build hr hsystem
  | nextBatch _ hsystem | flush _ hsystem =>
    exact h.quiet hr (act_of_step hsystem) trivial nofun nofun nofun h.stored
  | store hfetched => exact h.store hfetched
  | @ack op again c seq rest system hcurrent hstored hsystem =>
    refine h.quiet hr (act_of_step hsystem) trivial nofun nofun ?_ ?_
    · -- Only what was stored is acknowledged, and the resume point is at or beyond it.
      intro c' seq' op' heq
      obtain ⟨-, rfl, -⟩ := Event.ack.inj heq
      exact h.stored seq (hstored ▸ mem_cons_self ..)
    · intro seq' hmem
      apply h.stored seq'
      split at hmem
      · exact hmem
      · exact hstored ▸ mem_cons_of_mem _ hmem

/-! ### Runs -/

theorem system_step (hok : applicationFits a x) (hstep : a.step x = some a') :
    a'.system = a.system ∨ ∃ e, systemFits a.system e ∧ a.system.step e = some a'.system := by
  cases turn_of_step hstep with
  | run hflight hsystem => exact Or.inr ⟨_, hok, hsystem⟩
  | @build c op system hsystem => exact Or.inr ⟨.build c a.resume op, trivial, hsystem⟩
  | @nextBatch op c system hcurrent hsystem => exact Or.inr ⟨.nextBatch c op, trivial, hsystem⟩
  | store => exact Or.inl rfl
  | @ack op again c seq rest system hcurrent hstored hsystem =>
    exact Or.inr ⟨.ack c seq op, trivial, hsystem⟩
  | @flush op c system hcurrent hsystem => exact Or.inr ⟨.flush c op, trivial, hsystem⟩

theorem system_run (hrun : Run step applicationFits init xs a) :
    ∃ es, Run System.step systemFits System.init es a.system := by
  refine hrun.project system ?_
  intro a x a' hok hstep
  exact system_step hok hstep

theorem allPolled_run {es} (hrun : Run System.step systemFits System.init es s) : AllPolled s := by
  refine hrun.invariant_reachable nofun ?_
  intro es s e s' hrun hpolled _ hstep
  obtain ⟨ls, hqueue⟩ := queue_run hrun fun _ _ h => h
  exact hpolled.act (fetched_run hqueue) (act_of_step hstep)

theorem resumeInvariant_run (hrun : Run step applicationFits init xs a)
    (hcount : a.system.queue.enqueues.length < 2 ^ 64) : ResumeInvariant a := by
  refine hrun.invariant_reachable
    (I := fun a => a.system.queue.enqueues.length < 2 ^ 64 → ResumeInvariant a) ?_ ?_ hcount
  · intro _
    exact ⟨⟨nofun, nofun⟩, Nat.le_refl _, nofun, rfl, nofun, Nat.le_refl _⟩
  · intro xs a x a' hrun ih hok hstep hcount'
    obtain ⟨es, hsystem⟩ := system_run hrun
    obtain ⟨ls, hqueue⟩ := queue_run hsystem fun _ _ h => h
    have hmono : a.system.queue.enqueues.length ≤ a'.system.queue.enqueues.length := by
      rcases system_step hok hstep with hsame | ⟨e, hfit, hstep'⟩
      · rw [hsame]
      · exact enqueues_mono ((act_of_step hstep').committed_mono hfit)
    have hcount : a.system.queue.enqueues.length < 2 ^ 64 := Nat.lt_of_le_of_lt hmono hcount'
    exact (ih hcount).turn ⟨allTraced_run hqueue, allPolled_run hsystem, hcount⟩ hok
      (turn_of_step hstep)

/-- In every run of the application in which the enqueued entries fit, and with fewer than
`2 ^ 64` enqueues: every entry that was enqueued with a sequence beyond the resume point is in the
manifest, and a batch that the application gets lies beyond the resume point. It is the next one
when nothing beyond the resume point was fetched before, and the first one of all when there is
no resume point yet. -/
theorem resume_safe (hrun : Run step applicationFits init xs a)
    (hcount : a.system.queue.enqueues.length < 2 ^ 64) :
    (∀ op entry, (op, entry) ∈ a.system.queue.contributions →
      (∀ l, a.resume = some l → l < entry.sequence) →
      ∃ entries, a.system.queue.entries = .ok entries ∧ entry ∈ entries) ∧
    (∀ e c entry, a.current = some c → a.system.delivers e = some (c, entry) →
      (∀ l, a.resume = some l → l < entry.sequence ∧
        (a.fetched = [] → entry.sequence.toNat = l.toNat + 1)) ∧
      (a.resume = none → a.fetched = [] → entry.sequence = 0)) := by
  obtain ⟨es, hsystem⟩ := system_run hrun
  obtain ⟨ls, hqueue⟩ := queue_run hsystem fun _ _ h => h
  have hlin := linearized_run hqueue
  have hinv := resumeInvariant_run hrun hcount
  refine ⟨?_, ?_⟩
  · intro op entry hmem hbeyond
    refine ⟨_, hlin.entries, mem_entries_of_front_le hcount hmem ?_⟩
    have hfront := hinv.front
    cases hresume : a.resume with
    | none =>
      rw [hresume, cursor] at hfront
      omega
    | some l =>
      have hlt := UInt64.lt_iff_toNat_lt.mp (hbeyond l hresume)
      rw [hresume, cursor] at hfront
      omega
  · intro e c entry hcurrent hdeliver
    have hseq := (hinv.delivered (allPolled_run hsystem) hcount hcurrent hdeliver).1
    refine ⟨?_, ?_⟩
    · intro l hresume
      rw [hresume, cursor] at hseq
      refine ⟨UInt64.lt_iff_toNat_lt.mpr (by omega), ?_⟩
      intro hnil
      rw [hnil] at hseq
      exact hseq
    · intro hresume hnil
      rw [hresume, hnil] at hseq
      exact UInt64.toNat_inj.mp hseq

theorem mem_contributions_of_lookup {calls committed} {call : Call}
    (hcalls : calls <+: committed) (h : call.lookup (Queue.after calls) = some (some entry)) :
    ∃ op, (op, entry) ∈ contributions committed := by
  have hmem : entry ∈ (Queue.after calls).entries := by
    cases call with
    | peek => exact mem_of_mem_head? (Option.some.inj h)
    | read => exact mem_of_find?_eq_some (Option.some.inj h)
    | enqueue | initializeConsumer | dequeue => cases h
  obtain ⟨⟨op, _⟩, hop, rfl⟩ := mem_map.mp ((after_entries calls).subset hmem)
  obtain ⟨later, hlater⟩ : enqueuesOf calls <+: enqueuesOf committed := hcalls.filterMap _
  refine ⟨op, ?_⟩
  rw [contributions, ← hlater, mapIdx_append]
  exact mem_append_left _ hop

/-- In the same runs the application gets the batches in the order in which they were enqueued,
each once: those that it has got and not stored are the ones behind its resume point, and the next
one is the one behind these, as it was enqueued. No dequeue, also of an earlier incarnation, goes
beyond the resume point. -/
theorem batches_in_order (hrun : Run step applicationFits init xs a)
    (hcount : a.system.queue.enqueues.length < 2 ^ 64) :
    a.fetched.map UInt64.toNat = range' (cursor a.resume) a.fetched.length ∧
    (∀ e c entry, a.current = some c → a.system.delivers e = some (c, entry) →
      entry.sequence.toNat = cursor a.resume + a.fetched.length ∧
      ∃ op, (op, entry) ∈ a.system.queue.contributions) ∧
    ∀ op c t pc, a.system.queue.ops op = some ⟨.dequeue c t, pc⟩ → t.toNat < cursor a.resume := by
  obtain ⟨es, hsystem⟩ := system_run hrun
  have hinv := resumeInvariant_run hrun hcount
  refine ⟨hinv.numbered, fun e c entry hcurrent hdeliver => ?_, hinv.bounded.ops⟩
  have hpolled := allPolled_run hsystem
  obtain ⟨-, k, htask⟩ := delivers_cases hdeliver
  obtain ⟨calls, hcalls, hlookup⟩ := hpolled _ _ htask
  exact ⟨(hinv.delivered hpolled hcount hcurrent hdeliver).1,
    mem_contributions_of_lookup hcalls hlookup⟩

/-- Two batches are enqueued. The application gets both, stores and acknowledges the first one,
crashes, and comes back at the resume point 0. -/
def crashAfterFirst : List Action :=
  [.run (.queue (.start 0 (.enqueue "a" []))), .run (.queue (.read 0)), .run (.queue (.put 0)),
    .run (.queue (.start 1 (.enqueue "b" []))), .run (.queue (.read 1)), .run (.queue (.put 1)),
    .build 0 2, .run (.queue (.read 2)), .run (.queue (.put 2)), .run (.queue (.store 2)),
    .run (.returned 0 0),
    .nextBatch 3, .run (.queue (.read 3)), .run (.queue (.check 3)), .run (.returned 0 0),
    .run (.fetched 0),
    .nextBatch 4, .run (.queue (.read 4)), .run (.queue (.check 4)), .run (.returned 0 0),
    .run (.fetched 0),
    .store, .ack 5 false,
    .build 1 6, .run (.queue (.read 6)), .run (.queue (.put 6)), .run (.queue (.store 6)),
    .run (.returned 1 7), .run (.queue (.read 7)), .run (.queue (.check 7)),
    .run (.queue (.put 7)), .run (.returned 1 0),
    .nextBatch 8, .run (.queue (.read 8)), .run (.queue (.check 8)), .run (.returned 1 0)]

/-- The second incarnation is about to get the batch 1, the one behind its resume point. -/
theorem resume_safe_crashAfterFirst : ∃ a entry, Run step applicationFits init crashAfterFirst a ∧
      a.resume = some 0 ∧ a.fetched = [] ∧
      a.system.delivers (.fetched 1) = some (1, entry) ∧ entry.sequence.toNat = 0 + 1 := by
  obtain ⟨a, hrun, hresume, hfetched, hcurrent, hcount, hdeliver⟩ : ∃ a,
      Run step anyStep init crashAfterFirst a ∧ a.resume = some 0 ∧
      a.fetched = [] ∧ a.current = some 1 ∧ a.system.queue.enqueues.length = 2 ∧
      (a.system.delivers (.fetched 1)).map Prod.fst = some 1 :=
    Run.exists_of_check (by decide +kernel)
  obtain ⟨⟨c, entry⟩, hdeliver, rfl⟩ := Option.map_eq_some_iff.mp hdeliver
  have hrun : Run step applicationFits init crashAfterFirst a := by
    refine hrun.of_labels ?_
    have hfits : entryBodyLen "a" [] ≤ u32Max ∧ entryBodyLen "b" [] ≤ u32Max := by decide +kernel
    simp [crashAfterFirst, applicationFits, systemFits, enqueueFits, Call.BodyFits, hfits]
  have hsafe := (resume_safe hrun (by omega)).2 (.fetched 1) 1 entry hcurrent hdeliver
  exact ⟨a, entry, hrun, hresume, hfetched, hdeliver, (hsafe.1 0 hresume).2 hfetched⟩

/-- The first incarnation has got both batches. -/
theorem batches_in_order_crashAfterFirst : ∃ a,
    Run step applicationFits init (crashAfterFirst.take 21) a ∧ a.fetched = [0, 1] ∧
      a.fetched.map UInt64.toNat = range' (cursor a.resume) a.fetched.length := by
  obtain ⟨a, hrun, hfetched, hcount⟩ : ∃ a, Run step anyStep init (crashAfterFirst.take 21) a ∧
      a.fetched = [0, 1] ∧ a.system.queue.enqueues.length = 2 :=
    Run.exists_of_check (by decide +kernel)
  have hrun : Run step applicationFits init (crashAfterFirst.take 21) a := by
    refine hrun.of_labels ?_
    have hfits : entryBodyLen "a" [] ≤ u32Max ∧ entryBodyLen "b" [] ≤ u32Max := by decide +kernel
    simp [crashAfterFirst, applicationFits, systemFits, enqueueFits, Call.BodyFits, hfits]
  exact ⟨a, hrun, hfetched, (batches_in_order hrun (by omega)).1⟩

/-! ### An entry that does not fit -/

/-- A producer enqueues an entry whose length field is too small, and the enqueue returns `Ok`.
There is no resume point yet, and the entry is not in the manifest. -/
theorem oversized_batch_lost : ∃ a entry, Run step anyStep init
        [.run (.queue (.start 0 (.enqueue "" [⟨0, 0, replicate (2 ^ 32 - 30) 0⟩]))),
          .run (.queue (.read 0)), .run (.queue (.put 0))] a ∧
      a.system.queue.enqueues.length = 1 ∧ a.resume = none ∧
      a.system.queue.ops 0 = some ⟨.enqueue "" [⟨0, 0, replicate (2 ^ 32 - 30) 0⟩],
        .returned (.ok .unit)⟩ ∧ (0, entry) ∈ a.system.queue.contributions ∧
      ¬ ∃ entries, a.system.queue.entries = .ok entries ∧ entry ∈ entries := by
  have hlen : (replicate (2 ^ 32 - 30) (0 : UInt8)).length = 2 ^ 32 - 30 := length_replicate
  generalize replicate (2 ^ 32 - 30) (0 : UInt8) = payload at hlen ⊢
  obtain ⟨queue, hqueue, hop, hcommitted, err, herr⟩ := run_oversized hlen
  -- The run of the queue, as a run of the application.
  let inside (queue : State) : Application :=
    { init with system := { System.init with queue } }
  have hinside : ∀ l ∈ [Label.start 0 (.enqueue "" [⟨0, 0, payload⟩]), .read 0, .put 0],
      ∀ queue queue', queue.step l = some queue' →
        (inside queue).step (.run (.queue l)) = some (inside queue') := by
    intro l hl queue queue' hstep
    have hext : l.External = true := by
      simp only [mem_cons, not_mem_nil, or_false] at hl
      rcases hl with rfl | rfl | rfl <;> rfl
    simp only [step, Event.InFlight, System.step, inside, hext, hstep, if_true]
    rfl
  have hrun := hqueue.embed inside (fun l => Action.run (.queue l)) hinside
  refine ⟨_, ⟨0, "", [⟨0, 0, payload⟩]⟩, hrun, ?_, rfl, hop, ?_, ?_⟩
  · show (enqueuesOf queue.committed).length = 1
    rw [hcommitted]
    rfl
  · show (0, _) ∈ contributions queue.committed
    rw [hcommitted]
    exact mem_singleton.mpr rfl
  · rintro ⟨entries, hentries, -⟩
    cases herr.symm.trans hentries

end OpenData.Buffer

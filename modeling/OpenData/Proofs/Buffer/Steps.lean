import OpenData.Lib.Run
import OpenData.Proofs.Buffer.Manifest

/-!
# Every commit is atomic

`Move` lists what one step of the queue can do, with its guards, and `move_of_step` says that a
step does nothing else. The invariants of this development are proved by cases on `Move`.
-/

namespace OpenData.Buffer

open Lib List ManifestStore

variable {version : Option Nat} {m : Manifest} {object : Cell Bytes}

variable {s s' : State} {l : Label} {op : OpId} {call : Call} {pc : Pc}

def Pc.Waiting : Pc → Prop
  | .reading => True
  | .writing _ _ _ => True
  | _ => False

/-- What a step of the queue can do. -/
inductive Move (s : State) : Label → State → Prop
  | start {op : OpId} {call : Call} (hop : s.ops op = none) :
      Move s (.start op call) (s.setOp op call (begin call))
  | read {op : OpId} {call : Call} {m : Manifest} {version : Option Nat}
      (hop : s.ops op = some ⟨call, .reading⟩)
      (hread : read s.object = .ok (m, version)) :
      Move s (.read op) (s.setOp op call (afterRead call m version))
  | failed {l op call pc f} (hop : s.ops op = some ⟨call, pc⟩) (hpc : pc.Waiting) :
      Move s l (s.setOp op call (.returned (.error f)))
  | check {op call c m version}
      (hop : s.ops op = some ⟨call, .checking m version⟩) (hc : call.consumer? = some c) :
      Move s (.check op) (s.setOp op call (afterCheck call (s.epochs c) m version))
  | conflict {op call m version reply} (hop : s.ops op = some ⟨call, .writing m version reply⟩) :
      Move s (.put op) (s.setOp op call .reading)
  | commit {op call m version reply data object'}
      (hop : s.ops op = some ⟨call, .writing m version reply⟩) (hbytes : m.toBytes = .ok data)
      (hput : s.object.put version data = some object') :
      Move s (.put op) { s.setOp op call (afterCommit call m reply) with
        object := object', committed := s.committed ++ [(op, call)] }
  | store {op c epoch} (hop : s.ops op = some ⟨.initializeConsumer c, .storing epoch⟩) :
      Move s (.store op) { s.setOp op (.initializeConsumer c) (.returned (.ok .unit)) with
        epochs := Function.update s.epochs c epoch }

theorem write_cases (object : Cell Bytes) (m : Manifest) (version : Option Nat) :
    (∃ f, write object m version = .error (.fatal f)) ∨
    write object m version = .error .conflict ∨
    ∃ data object', write object m version = .ok object' ∧
      m.toBytes = .ok data ∧ object.put version data = some object' := by
  cases hb : m.toBytes with
  | error f => exact Or.inl ⟨f, by rw [write, hb]⟩
  | ok data =>
    cases hp : object.put version data with
    | none => exact Or.inr (Or.inl (by simp only [write, hb, hp]))
    | some object' =>
      exact Or.inr (Or.inr ⟨data, object', by simp only [write, hb, hp], rfl, hp⟩)

theorem move_of_put (h : s.step (.put op) = some s') : Move s (.put op) s' := by
  simp only [State.step] at h
  split at h
  · rename_i call m version reply hop
    rcases write_cases s.object m version with ⟨f, hw⟩ | hw | ⟨data, object', hw, hb, hp⟩ <;>
      simp only [hw, Option.some.injEq] at h <;> subst h
    · exact Move.failed hop trivial
    · exact Move.conflict hop
    · exact Move.commit hop hb hp
  · cases h

theorem move_of_read (h : s.step (.read op) = some s') : Move s (.read op) s' := by
  simp only [State.step] at h
  split at h
  · rename_i call hop
    split at h <;> cases h
    · exact Move.failed hop trivial
    · rename_i hread
      exact Move.read hop hread
  · cases h

theorem move_of_check (h : s.step (.check op) = some s') : Move s (.check op) s' := by
  simp only [State.step] at h
  split at h
  · rename_i hop
    split at h
    · rename_i hc
      cases h
      exact Move.check hop hc
    · cases h
  · cases h

theorem move_of_step (h : s.step l = some s') : Move s l s' := by
  cases l with
  | start =>
    simp only [State.step] at h
    split at h
    · rename_i hop
      cases h
      exact Move.start hop
    · cases h
  | read => exact move_of_read h
  | readFails | putFails =>
    simp only [State.step] at h
    split at h
    · rename_i hop
      cases h
      exact Move.failed hop trivial
    · cases h
  | check op => exact move_of_check h
  | put op => exact move_of_put h
  | store op =>
    simp only [State.step] at h
    split at h
    · rename_i hop
      cases h
      exact Move.store hop
    · cases h

/-! ### One operation moves -/

theorem ops_setOp_self : (s.setOp op call pc).ops op = some ⟨call, pc⟩ := Function.update_self ..

theorem ops_setOp_of_ne {op'} (h : op' ≠ op) : (s.setOp op call pc).ops op' = s.ops op' :=
  Function.update_of_ne h ..

theorem forall_ops_setOp {P : OpId → Call → Pc → Prop}
    (hall : ∀ op' call' pc', s.ops op' = some ⟨call', pc'⟩ → P op' call' pc')
    (hnew : P op call pc) (op' : OpId) (call' : Call) (pc' : Pc)
    (h : (s.setOp op call pc).ops op' = some ⟨call', pc'⟩) : P op' call' pc' := by
  have hupdate : Function.update s.ops op (some ⟨call, pc⟩) op' = some ⟨call', pc'⟩ := h
  exact forall_update (P := fun op (o : Op) => P op o.call o.pc)
    (fun op' o hop' => hall op' o.call o.pc hop') hnew op' ⟨call', pc'⟩ hupdate

def Pc.Over : Pc → Prop
  | .returned _ => True
  | _ => False

theorem Move.mover (h : Move s l s') : ∃ op call pc', s'.ops = (s.setOp op call pc').ops ∧
      ((s.ops op = none ∧ l = .start op call) ∨ ∃ pc, s.ops op = some ⟨call, pc⟩ ∧ ¬ pc.Over) := by
  cases h with
  | start hop => exact ⟨_, _, _, rfl, Or.inl ⟨hop, rfl⟩⟩
  | read hop | check hop | conflict hop | commit hop | store hop =>
    exact ⟨_, _, _, rfl, Or.inr ⟨_, hop, id⟩⟩
  | @failed _ op call pc f hop hpc =>
    have hover : ¬ pc.Over := by
      cases pc <;> simp_all [Pc.Over, Pc.Waiting]
    exact ⟨_, _, _, rfl, Or.inr ⟨_, hop, hover⟩⟩

theorem Move.call_origin (h : Move s l s') (hop : s'.ops op = some ⟨call, pc⟩) :
    (∃ pc0, s.ops op = some ⟨call, pc0⟩) ∨ l = .start op call := by
  obtain ⟨op', call', pc', hops, hmover⟩ := h.mover
  rw [hops] at hop
  by_cases hne : op = op'
  · subst hne
    rw [ops_setOp_self, Option.some.injEq, Op.mk.injEq] at hop
    obtain ⟨rfl, -⟩ := hop
    exact hmover.symm.imp (fun ⟨pc0, hop0, _⟩ => ⟨pc0, hop0⟩) (fun hstart => hstart.2)
  · rw [ops_setOp_of_ne hne] at hop
    exact Or.inl ⟨pc, hop⟩

theorem Move.call_mono (h : Move s l s') (hop : s.ops op = some ⟨call, pc⟩) :
    ∃ pc', s'.ops op = some ⟨call, pc'⟩ := by
  obtain ⟨op', call', pc', hops, hmover⟩ := h.mover
  by_cases hne : op = op'
  · subst hne
    rcases hmover with ⟨hnone, -⟩ | ⟨pc0, hop0, -⟩
    · rw [hnone] at hop
      cases hop
    · obtain ⟨rfl, -⟩ := Op.mk.inj (Option.mem_unique hop0 hop)
      exact ⟨pc', by rw [hops, ops_setOp_self]⟩
  · exact ⟨pc, by rw [hops, ops_setOp_of_ne hne, hop]⟩

theorem Move.returned_mono (h : Move s l s') {result}
    (hop : s.ops op = some ⟨call, .returned result⟩) :
    s'.ops op = some ⟨call, .returned result⟩ := by
  obtain ⟨op', call', pc', hops, hmover⟩ := h.mover
  have hne : op ≠ op' := by
    rintro rfl
    rcases hmover with ⟨hnone, -⟩ | ⟨pc, hpc, hover⟩
    · rw [hnone] at hop
      cases hop
    · obtain ⟨-, rfl⟩ := Op.mk.inj (Option.mem_unique hpc hop)
      exact hover trivial
  rw [hops, ops_setOp_of_ne hne, hop]

/-! ### What an operation in flight knows -/

def Call.Accepted : Call → Prop
  | .enqueue location metadata => ∃ entry, QueueEntry.new location metadata = .ok entry
  | _ => True

/-- The manifest and the reply that a call makes of a manifest. -/
inductive Edits : Call → Manifest → Manifest → Reply → Prop
  | enqueue {location metadata m m'} (h : m.append { sequence := 0, location, metadata } = .ok m') :
      Edits (.enqueue location metadata) m m' .unit
  | takeover {c m} : Edits (.initializeConsumer c) m (m.setEpoch (nextEpoch m.epoch)) .unit
  | dequeue {c throughSequence m m' removed} (h : m.dequeue throughSequence = .ok (removed, m')) :
      Edits (.dequeue c throughSequence) m m' (.removed removed)

/-- What holds of an operation at its program counter: the manifest it works on was read from
the object, now or before a later commit, and was edited as the call says. -/
def Traced (object : Cell Bytes) (call : Call) : Pc → Prop
  | .reading => call.Accepted
  | .checking m version => call.Accepted ∧
      ∃ seen, Cell.Older seen object ∧ read seen = .ok (m, version)
  | .writing m version reply => call.Accepted ∧
      ∃ seen m0, Cell.Older seen object ∧ read seen = .ok (m0, version) ∧
        Edits call m0 m reply
  | .storing _ => ∃ c, call = .initializeConsumer c
  | .returned _ => True

theorem read_version {seen} (h : read seen = .ok (m, version)) : version = seen.version := by
  cases seen with
  | absent =>
    obtain ⟨-, rfl⟩ := Prod.mk.inj (Except.ok.inj h)
    rfl
  | present bytes =>
    rw [ManifestStore.read] at h
    cases hm : Manifest.fromBytes bytes with
    | error => simp [hm, bind, Except.bind] at h
    | ok =>
      simp only [hm, bind, Except.bind, Except.ok.injEq, Prod.mk.injEq] at h
      exact h.2.symm

theorem traced_begin (object : Cell Bytes) (call : Call) : Traced object call (begin call) := by
  cases call with
  | enqueue =>
    rw [begin]
    split
    · trivial
    · rename_i entry hnew
      exact ⟨entry, hnew⟩
  | initializeConsumer | peek | read | dequeue => trivial

theorem traced_afterRead (hacc : call.Accepted) (hread : read object = .ok (m, version)) :
    Traced object call (afterRead call m version) := by
  have hseen := Cell.Older.refl object
  cases call with
  | enqueue =>
    rw [afterRead]
    split
    · trivial
    · rename_i m' happ
      exact ⟨hacc, object, m, hseen, hread, Edits.enqueue happ⟩
  | initializeConsumer => exact ⟨hacc, object, m, hseen, hread, Edits.takeover⟩
  | peek | read | dequeue => exact ⟨hacc, object, hseen, hread⟩

/-- After the epoch check a call is over, or it is a `dequeue` on a manifest of the epoch that
the consumer loaded. -/
theorem afterCheck_cases (call : Call) (epoch : UInt64) (m : Manifest) (version : Option Nat) :
    (∃ r, afterCheck call epoch m version = .returned r ∧ (m.epoch ≠ epoch → r = fail .fenced)) ∨
    ∃ c throughSequence removed m', call = .dequeue c throughSequence ∧ m.epoch = epoch ∧
      m.dequeue throughSequence = .ok (removed, m') ∧
      afterCheck call epoch m version = .writing m' version (.removed removed) := by
  by_cases hepoch : m.epoch = epoch
  · have hcheck : afterCheck call epoch m version = afterMatch call m version := by
      rw [afterCheck, if_neg (not_not_intro hepoch)]
    have hdone : ∀ r : Result Reply, afterMatch call m version = .returned r →
        ∃ r, afterCheck call epoch m version = .returned r ∧ (m.epoch ≠ epoch → r = fail .fenced) :=
      fun r hr => ⟨r, hcheck.trans hr, fun hne => absurd hepoch hne⟩
    cases call with
    | enqueue | initializeConsumer | peek | read => exact Or.inl (hdone _ rfl)
    | dequeue c throughSequence =>
      cases hdeq : m.dequeue throughSequence with
      | error f => exact Or.inl (hdone (.error f) (by simp only [afterMatch, hdeq]))
      | ok result =>
        obtain ⟨removed, m'⟩ := result
        refine Or.inr ⟨c, throughSequence, removed, m', rfl, hepoch, hdeq, ?_⟩
        rw [hcheck]
        simp only [afterMatch, hdeq]
  · exact Or.inl ⟨fail .fenced, if_pos hepoch, fun _ => rfl⟩

theorem traced_afterCheck (h : Traced object call (.checking m version)) (epoch : UInt64) :
    Traced object call (afterCheck call epoch m version) := by
  obtain ⟨hacc, seen, hseen, hread⟩ := h
  rcases afterCheck_cases call epoch m version with
    ⟨r, hr, -⟩ | ⟨c, throughSequence, removed, m', rfl, -, hdeq, hw⟩
  · rw [hr]
    trivial
  · rw [hw]
    exact ⟨hacc, seen, m, hseen, hread, Edits.dequeue hdeq⟩

variable {object' : Cell Bytes} {data : Bytes}

theorem Traced.put (h : Traced object call pc)
    (hput : object.put version data = some object') : Traced object' call pc := by
  cases pc with
  | reading | storing => exact h
  | checking m version =>
    obtain ⟨hacc, seen, hseen, hread⟩ := h
    exact ⟨hacc, seen, hseen.put hput, hread⟩
  | writing m version reply =>
    obtain ⟨hacc, seen, m0, hseen, hread, hedit⟩ := h
    exact ⟨hacc, seen, m0, hseen.put hput, hread, hedit⟩
  | returned result => trivial

theorem Traced.accepted (h : Traced object call pc) (hpc : pc.Waiting) : call.Accepted := by
  cases pc with
  | reading => exact h
  | writing => exact h.1
  | checking | storing | returned => exact hpc.elim

theorem traced_afterCommit (object : Cell Bytes) (call : Call) (m : Manifest) (reply : Reply) :
    Traced object call (afterCommit call m reply) := by
  cases call with
  | initializeConsumer c => exact ⟨c, rfl⟩
  | enqueue | peek | read | dequeue => trivial

def AllTraced (s : State) : Prop :=
  ∀ op call pc, s.ops op = some ⟨call, pc⟩ → Traced s.object call pc

theorem AllTraced.move (h : AllTraced s) (hmove : Move s l s') : AllTraced s' := by
  cases hmove with
  | start => exact forall_ops_setOp h (traced_begin _ _)
  | read hop hread => exact forall_ops_setOp h (traced_afterRead (h _ _ _ hop) hread)
  | failed | store => exact forall_ops_setOp h trivial
  | check hop hc => exact forall_ops_setOp h (traced_afterCheck (h _ _ _ hop) _)
  | conflict hop => exact forall_ops_setOp h (Traced.accepted (h _ _ _ hop) trivial)
  | commit hop hbytes hput =>
    -- The others keep what they know: what they read is older than the new object.
    have hothers : ∀ op' call' pc', s.ops op' = some ⟨call', pc'⟩ → Traced _ call' pc' :=
      fun op' call' pc' hop' => (h op' call' pc' hop').put hput
    exact forall_ops_setOp hothers (traced_afterCommit _ _ _ _)

theorem allTraced_init : AllTraced State.init := by
  intro op call pc hop
  cases hop

theorem allTraced_run {ok : State → Label → Prop} {ls}
    (hrun : Run State.step ok State.init ls s) : AllTraced s :=
  hrun.invariant allTraced_init (fun _ _ _ h _ hstep => h.move (move_of_step hstep))

/-! ### Atomic commits -/

/-- The operation `op` commits `call`: the object is read as `m0`, the call edits it to `m`, and
the object holds `m` afterwards. -/
structure Commits (s s' : State) (op : OpId) (call : Call) (m0 m : Manifest) (reply : Reply) :
    Prop where
  waiting : ∃ version, s.ops op = some ⟨call, .writing m version reply⟩
  read : ∃ version, read s.object = .ok (m0, version)
  accepted : call.Accepted
  edit : Edits call m0 m reply
  stored : ∃ data version, m.toBytes = .ok data ∧ s'.object = .present data version
  committed : s'.committed = s.committed ++ [(op, call)]
  returned : s'.ops op = some ⟨call, afterCommit call m reply⟩
  epochs : s'.epochs = s.epochs

theorem commits_of_put {reply} (h : AllTraced s)
    (hop : s.ops op = some ⟨call, .writing m version reply⟩) (hbytes : m.toBytes = .ok data)
    (hput : s.object.put version data = some object') :
    ∃ m0, Commits s { s.setOp op call (afterCommit call m reply) with
      object := object', committed := s.committed ++ [(op, call)] } op call m0 m reply := by
  obtain ⟨hacc, seen, m0, hseen, hread, hedit⟩ := h _ _ _ hop
  -- The put names the version of `seen`, so `seen` is the object that it replaces.
  have hver := read_version hread
  subst hver
  have hcur : seen = s.object := Cell.eq_of_put hseen hput
  subst hcur
  obtain ⟨-, -, v, hobject⟩ := Cell.put_cases hput
  exact ⟨m0, {
    waiting := ⟨_, hop⟩
    read := ⟨_, hread⟩
    accepted := hacc
    edit := hedit
    stored := ⟨data, v, hbytes, hobject⟩
    committed := rfl
    returned := ops_setOp_self
    epochs := rfl }⟩

theorem committed_mono (hstep : s.step l = some s') : s.committed <+: s'.committed := by
  cases move_of_step hstep with
  | start | read | failed | check | conflict | store => exact prefix_rfl
  | commit hop hbytes hput => exact prefix_append _ _

theorem step_object (h : AllTraced s) (hstep : s.step l = some s') :
    (s'.object = s.object ∧ s'.committed = s.committed) ∨
    ∃ op call m0 m reply, l = .put op ∧ Commits s s' op call m0 m reply := by
  cases move_of_step hstep with
  | start | read | failed | check | conflict | store => exact Or.inl ⟨rfl, rfl⟩
  | @commit op call m version reply data object' hop hbytes hput =>
    obtain ⟨m0, hc⟩ := commits_of_put h hop hbytes hput
    exact Or.inr ⟨op, call, m0, m, reply, rfl, hc⟩

end OpenData.Buffer

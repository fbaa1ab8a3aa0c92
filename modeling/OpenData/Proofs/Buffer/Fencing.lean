import OpenData.Proofs.Buffer.Steps

/-!
# One consumer owns the queue

Every committed `initialize` gives the manifest a new epoch: after `n` of them it is `epochAt n`.
A consumer holds the epoch of one of its own commits, and the footer keeps its epoch through every
edit, whatever stands in the entry area. So a consumer whose epoch matches the manifest is the one
that initialized last. `fencing` states what follows for `dequeue`, `peek` and `read`.
-/

namespace OpenData.Buffer

open Lib List Option

/-! ### The epochs of the manifest -/

def epochAt : Nat → UInt64
  | 0 => 0
  | n + 1 => nextEpoch (epochAt n)

theorem nextEpoch_ne_uninitialized (epoch : UInt64) : nextEpoch epoch ≠ uninitializedEpoch := by
  rw [nextEpoch]
  split
  · rename_i h
    rw [h]
    decide
  · assumption

theorem epochAt_ne_uninitialized (n : Nat) : epochAt n ≠ uninitializedEpoch := by
  cases n with
  | zero => decide
  | succ => exact nextEpoch_ne_uninitialized _

theorem epochAt_toNat {n} (h : n < 2 ^ 64 - 1) : (epochAt n).toNat = n := by
  induction n with
  | zero => rfl
  | succ n ih =>
    have hn : (epochAt n).toNat = n := ih (by omega)
    have hsucc : (epochAt n + 1).toNat = n + 1 := by
      rw [UInt64.toNat_add, hn, UInt64.toNat_one]
      exact Nat.mod_eq_of_lt (by omega)
    have hne : epochAt n + 1 ≠ uninitializedEpoch := by
      intro heq
      have hmax : uninitializedEpoch.toNat = 2 ^ 64 - 1 := by decide
      rw [heq, hmax] at hsucc
      omega
    rw [epochAt, nextEpoch, if_neg hne, hsucc]

theorem epochAt_inj {i j} (hi : i < 2 ^ 64 - 1) (hj : j < 2 ^ 64 - 1)
    (h : epochAt i = epochAt j) : i = j := by
  rw [← epochAt_toNat hi, ← epochAt_toNat hj, h]

/-! ### Who holds which epoch -/

def Owns (inits : List ConsumerId) (c : ConsumerId) (epoch : UInt64) : Prop :=
  ∃ i, inits[i]? = some c ∧ epoch = epochAt (i + 1)

/-- An `initialize` of the consumer returned `Ok`. -/
def State.Completed (s : State) (c : ConsumerId) : Prop :=
  ∃ op, s.ops op = some ⟨.initializeConsumer c, .returned (.ok .unit)⟩

def Call.reader? : Call → Option ConsumerId
  | .peek c => some c
  | .read c _ => some c
  | .dequeue c _ => some c
  | _ => none

variable {version : Option Nat} {m : Manifest}

variable {inits : List ConsumerId} {c : ConsumerId} {epoch : UInt64} {s s' : State} {l : Label}
  {ls : List Label} {op : OpId} {call : Call} {pc : Pc} {inits' : List ConsumerId}

theorem Owns.mono (h : Owns inits c epoch) (hle : inits <+: inits') :
    Owns inits' c epoch := by
  obtain ⟨more, rfl⟩ := hle
  obtain ⟨i, hi, hepoch⟩ := h
  have hlt : i < inits.length := (List.getElem?_eq_some_iff.mp hi).1
  exact ⟨i, by rw [List.getElem?_append_left hlt, hi], hepoch⟩

theorem Owns.getLast (h : Owns inits c (epochAt inits.length)) (hlen : inits.length < 2 ^ 64 - 1) :
    inits.getLast? = some c := by
  obtain ⟨i, hi, hepoch⟩ := h
  have hlt : i < inits.length := (List.getElem?_eq_some_iff.mp hi).1
  have hi' : inits.length = i + 1 := epochAt_inj hlen (by omega) hepoch
  rw [List.getLast?_eq_getElem?, hi']
  exact hi

theorem owns_last (inits : List ConsumerId) (c : ConsumerId) :
    Owns (inits ++ [c]) c (epochAt (inits ++ [c]).length) :=
  ⟨inits.length, by simp, by simp⟩

/-- What holds of an operation: the epoch of the manifest it works on was one of the object, and
a consumer that passed the check owns it. -/
def FencedAt (inits : List ConsumerId) (completed : ConsumerId → Prop) (call : Call) : Pc → Prop
  | .checking m _ => ∃ n, m.epoch = epochAt n
  | .writing m _ _ => ∀ c, call.reader? = some c → Owns inits c m.epoch ∧ completed c
  | .storing epoch => ∀ c, call = .initializeConsumer c → Owns inits c epoch
  | .returned (.ok _) => ∀ c, call.reader? = some c → completed c
  | _ => True

def HasEpoch (object : Cell Bytes) (epoch : UInt64) : Prop :=
  ∃ m version, ManifestStore.read object = .ok (m, version) ∧ m.Footed ∧ m.epoch = epoch

/-- The stored epoch counts the takeovers; a consumer has the epoch of its own, or none. -/
structure Epochs (s : State) : Prop where
  object : HasEpoch s.object (epochAt s.inits.length)
  consumers : ∀ c, s.epochs c = uninitializedEpoch ∨
    (Owns s.inits c (s.epochs c) ∧ s.Completed c)
  ops : ∀ op call pc, s.ops op = some ⟨call, pc⟩ → FencedAt s.inits s.Completed call pc

theorem FencedAt.mono {completed completed' : ConsumerId → Prop}
    (h : FencedAt inits completed call pc) (hle : inits <+: inits')
    (hmono : ∀ c, completed c → completed' c) : FencedAt inits' completed' call pc := by
  cases pc with
  | reading => trivial
  | checking => exact h
  | writing =>
    intro c hc
    obtain ⟨howns, hdone⟩ := h c hc
    exact ⟨howns.mono hle, hmono c hdone⟩
  | storing => exact fun c hc => (h c hc).mono hle
  | returned result =>
    cases result with
    | error => trivial
    | ok => exact fun c hc => hmono c (h c hc)

theorem Move.completed_mono (hmove : Move s l s') (h : s.Completed c) : s'.Completed c := by
  obtain ⟨op, hop⟩ := h
  exact ⟨op, hmove.returned_mono hop⟩

/-! ### The epoch of the object -/

theorem hasEpoch_unique {object} (h : HasEpoch object epoch)
    (hread : ManifestStore.read object = .ok (m, version)) : m.Footed ∧ m.epoch = epoch := by
  obtain ⟨m', version', hread', hfooted, hepoch⟩ := h
  obtain ⟨rfl, -⟩ := Prod.mk.inj (Except.ok.inj (hread'.symm.trans hread))
  exact ⟨hfooted, hepoch⟩

theorem hasEpoch_present {data} (version : Nat) (h : m.Footed) (hb : m.toBytes = .ok data) :
    HasEpoch (.present data version) m.epoch := by
  obtain ⟨m', hm', hfooted, -, hepoch⟩ := footed_fromBytes (footed_of_toBytes h hb)
  refine ⟨m', some version, ?_, hfooted, hepoch⟩
  rw [ManifestStore.read, hm']
  rfl

theorem initsOf_append (calls more : List (OpId × Call)) :
    initsOf (calls ++ more) = initsOf calls ++ initsOf more := filterMap_append

variable {m0 : Manifest} {reply : Reply}

theorem Edits.footed (h : Edits call m0 m reply)
    (hfooted : m0.Footed) (op : OpId) {n} (hepoch : m0.epoch = epochAt n) :
    m.Footed ∧ m.epoch = epochAt (n + (initsOf [(op, call)]).length) := by
  cases h with
  | enqueue happ =>
    obtain ⟨hfooted', hsame⟩ := footed_append hfooted happ
    exact ⟨hfooted', hsame.trans hepoch⟩
  | takeover =>
    refine ⟨footed_setEpoch hfooted _, ?_⟩
    show nextEpoch m0.epoch = epochAt (n + 1)
    rw [hepoch, epochAt]
  | dequeue hdeq =>
    obtain ⟨hfooted', hsame⟩ := footed_dequeue hdeq
    exact ⟨hfooted', hsame.trans hepoch⟩

/-! ### The invariant along a run -/

theorem consumer?_of_reader? (h : call.reader? = some c) : call.consumer? = some c := by
  cases call with
  | enqueue | initializeConsumer => cases h
  | peek | read | dequeue => exact h

variable (completed : ConsumerId → Prop)

theorem fencedAt_begin (call : Call) : FencedAt inits completed call (begin call) := by
  cases call with
  | enqueue =>
    rw [begin]
    split <;> trivial
  | initializeConsumer | peek | read | dequeue => trivial

theorem fencedAt_afterRead {n} (hepoch : m.epoch = epochAt n) :
    FencedAt inits completed call (afterRead call m version) := by
  cases call with
  | enqueue =>
    rw [afterRead]
    split
    · trivial
    · simp [FencedAt, Call.reader?]
  | initializeConsumer => simp [FencedAt, afterRead, Call.reader?]
  | peek | read | dequeue => exact ⟨n, hepoch⟩

/-- A consumer that passes the check holds the epoch of the manifest, so it finished an
`initialize`: the epoch it starts with is never in the manifest. -/
theorem fencedAt_afterCheck (h : Epochs s) (hc : call.consumer? = some c)
    (hchecking : FencedAt s.inits s.Completed call (.checking m version)) :
    FencedAt s.inits s.Completed call (afterCheck call (s.epochs c) m version) := by
  obtain ⟨n, hn⟩ := hchecking
  have hpass : m.epoch = s.epochs c → Owns s.inits c m.epoch ∧ s.Completed c := by
    intro heq
    rcases h.consumers c with hun | hown
    · exact absurd (hn.symm.trans (heq.trans hun)) (epochAt_ne_uninitialized n)
    · rw [heq]
      exact hown
  have hsame : ∀ c', call.reader? = some c' → c' = c := by
    intro c' hc'
    exact Option.some.inj ((consumer?_of_reader? hc').symm.trans hc)
  rcases afterCheck_cases call (s.epochs c) m version with
    ⟨r, hr, hfenced⟩ | ⟨c0, throughSequence, removed, m', hcall, heq, hdeq, hw⟩
  · rw [hr]
    by_cases heq : m.epoch = s.epochs c
    · cases r with
      | error => trivial
      | ok =>
        intro c' hc'
        rw [hsame c' hc']
        exact (hpass heq).2
    · rw [hfenced heq]
      trivial
  · rw [hw]
    intro c' hc'
    obtain ⟨-, hepoch⟩ := footed_dequeue hdeq
    rw [hsame c' hc', hepoch]
    exact hpass heq

theorem Epochs.fenced_ops (h : Epochs s) (hmove : Move s l s')
    (hops : s'.ops = (s.setOp op call pc).ops) (hle : s.inits <+: s'.inits)
    (hnew : FencedAt s'.inits s'.Completed call pc) (op' : OpId) (call' : Call) (pc' : Pc)
    (hop' : s'.ops op' = some ⟨call', pc'⟩) : FencedAt s'.inits s'.Completed call' pc' := by
  rw [hops] at hop'
  refine forall_ops_setOp (P := fun _ call pc => FencedAt s'.inits s'.Completed call pc)
    (fun op' call' pc' hop' => ?_) hnew op' call' pc' hop'
  exact (h.ops op' call' pc' hop').mono hle fun _ => hmove.completed_mono

theorem Epochs.setOp (h : Epochs s) (hmove : Move s l (s.setOp op call pc))
    (hnew : FencedAt s.inits s.Completed call pc) : Epochs (s.setOp op call pc) where
  object := h.object
  consumers := fun c => (h.consumers c).imp_right fun hc => ⟨hc.1, hmove.completed_mono hc.2⟩
  ops := h.fenced_ops hmove rfl prefix_rfl (hnew.mono prefix_rfl fun _ => hmove.completed_mono)

theorem fencedAt_afterCommit {completed : ConsumerId → Prop} (hedit : Edits call m0 m reply)
    (hepoch : m.epoch = epochAt (inits ++ initsOf [(op, call)]).length)
    (hwriting : FencedAt inits completed call (.writing m version reply)) :
    FencedAt (inits ++ initsOf [(op, call)]) completed call (afterCommit call m reply) := by
  cases hedit with
  | enqueue => exact nofun
  | @takeover c =>
    intro c' hc'
    obtain rfl := Call.initializeConsumer.inj hc'
    rw [hepoch]
    exact owns_last inits c
  | dequeue => exact fun c hc => (hwriting c hc).2

theorem Epochs.commit (h : Epochs s) (hmove : Move s l s') (hc : Commits s s' op call m0 m reply)
    (hops : s'.ops = (s.setOp op call (afterCommit call m reply)).ops) : Epochs s' := by
  have hinits : s'.inits = s.inits ++ initsOf [(op, call)] := by
    rw [State.inits, hc.committed, initsOf_append]
    rfl
  have hle : s.inits <+: s'.inits := ⟨_, hinits.symm⟩
  obtain ⟨version, hread⟩ := hc.read
  obtain ⟨version', hop⟩ := hc.waiting
  obtain ⟨hfooted, hepoch⟩ := hasEpoch_unique h.object hread
  obtain ⟨hfooted', hepoch'⟩ := hc.edit.footed hfooted op hepoch
  rw [← length_append, ← hinits] at hepoch'
  refine ⟨?_, ?_, h.fenced_ops hmove hops hle ?_⟩
  · obtain ⟨data, v, hbytes, hobject⟩ := hc.stored
    rw [hobject, ← hepoch']
    exact hasEpoch_present v hfooted' hbytes
  · intro c
    rw [hc.epochs]
    exact (h.consumers c).imp_right fun hown => ⟨hown.1.mono hle, hmove.completed_mono hown.2⟩
  · rw [hinits] at hepoch' ⊢
    have hwriting := h.ops op call _ hop
    exact (fencedAt_afterCommit hc.edit hepoch' hwriting).mono prefix_rfl
      fun _ => hmove.completed_mono

theorem Epochs.store (h : Epochs s)
    (hop : s.ops op = some ⟨.initializeConsumer c, .storing epoch⟩) :
    Epochs { s.setOp op (.initializeConsumer c) (.returned (.ok .unit)) with
      epochs := Function.update s.epochs c epoch } := by
  have hmove := Move.store hop
  refine ⟨h.object, ?_, h.fenced_ops hmove rfl prefix_rfl nofun⟩
  intro c'
  by_cases hne : c' = c
  · subst hne
    refine Or.inr ⟨?_, op, ops_setOp_self⟩
    show Owns s.inits c' (Function.update s.epochs c' epoch c')
    rw [Function.update_self]
    exact h.ops _ _ _ hop c' rfl
  · show Function.update s.epochs c epoch c' = _ ∨
      Owns s.inits c' (Function.update s.epochs c epoch c') ∧ _
    rw [Function.update_of_ne hne]
    exact (h.consumers c').imp_right fun hown => ⟨hown.1, hmove.completed_mono hown.2⟩

theorem Epochs.step (h : Epochs s) (htraced : AllTraced s) (hstep : s.step l = some s') :
    Epochs s' := by
  have hmove := move_of_step hstep
  cases move_of_step hstep with
  | start => exact h.setOp hmove (fencedAt_begin _ _)
  | read hop hread =>
    exact h.setOp hmove (fencedAt_afterRead _ (hasEpoch_unique h.object hread).2)
  | failed | conflict => exact h.setOp hmove trivial
  | check hop hc => exact h.setOp hmove (fencedAt_afterCheck h hc (h.ops _ _ _ hop))
  | store hop => exact h.store hop
  | commit hop hbytes hput =>
    obtain ⟨m0, hc⟩ := commits_of_put htraced hop hbytes hput
    exact h.commit hmove hc rfl

theorem epochs_init : Epochs State.init where
  object := ⟨Manifest.empty, none, rfl, footed_empty, rfl⟩
  consumers := fun _ => Or.inl rfl
  ops := nofun

theorem epochs_run {ok : State → Label → Prop} (hrun : Run State.step ok State.init ls s) :
    Epochs s := by
  refine hrun.invariant_reachable epochs_init ?_
  intro ls s l s' hrun hepochs _ hstep
  exact hepochs.step (allTraced_run hrun) hstep

/-! ### Fencing -/

theorem inits_mono (hstep : s.step l = some s') : s.inits <+: s'.inits :=
  (committed_mono hstep).filterMap _

theorem dequeue_owner {throughSequence} (h : Epochs s) (htraced : AllTraced s)
    (hinits : s.inits.length < 2 ^ 64 - 1) (hop : s.ops op = some ⟨.dequeue c throughSequence, pc⟩)
    (hstep : s.step (.put op) = some s') (hchange : s'.object ≠ s.object) :
    s.inits.getLast? = some c := by
  rcases step_object htraced hstep with ⟨hobject, -⟩ | ⟨op', call, m0, m, reply, hl, hc⟩
  · exact absurd hobject hchange
  · obtain rfl := Label.put.inj hl
    obtain ⟨version, hop'⟩ := hc.waiting
    obtain ⟨rfl, rfl⟩ := Op.mk.inj (Option.mem_unique hop hop')
    obtain ⟨version', hread⟩ := hc.read
    obtain ⟨hfooted, hepoch⟩ := hasEpoch_unique h.object hread
    -- The edit keeps the epoch, and the consumer owned it when it checked.
    have hepoch' := (hc.edit.footed hfooted op hepoch).2
    have howns := (h.ops _ _ _ hop' c rfl).1
    rw [hepoch'] at howns
    exact howns.getLast hinits

/-- A consumer that was not the last one to initialize holds no epoch of that time, whatever it
initializes later. -/
theorem epochs_ne_epochAt (h : Epochs s) (hinits : s.inits.length < 2 ^ 64 - 1)
    (hle : inits <+: s.inits) (hother : inits.getLast? ≠ some c) :
    epochAt inits.length ≠ s.epochs c := by
  intro heq
  have hlen := hle.length_le
  rcases h.consumers c with hun | ⟨⟨i, hi, hepoch⟩, -⟩
  · exact epochAt_ne_uninitialized _ (heq.trans hun)
  · have hlt : i < s.inits.length := (List.getElem?_eq_some_iff.mp hi).1
    have hn : inits.length = i + 1 := epochAt_inj (by omega) (by omega) (heq.trans hepoch)
    obtain ⟨more, hmore⟩ := hle
    rw [← hmore, List.getElem?_append_left (by omega)] at hi
    apply hother
    rw [List.getLast?_eq_getElem?, hn]
    exact hi

theorem Move.checking_cases (hmove : Move s l s')
    (hop : s.ops op = some ⟨call, .checking m version⟩) :
    s'.ops op = some ⟨call, .checking m version⟩ ∨ ∃ c, call.consumer? = some c ∧
      s'.ops op = some ⟨call, afterCheck call (s.epochs c) m version⟩ := by
  -- An operation at another program counter is another operation.
  have hother : ∀ {op' : OpId} {call' : Call} {pc' : Pc} (new : Pc),
      s.ops op' = some ⟨call', pc'⟩ → (∀ m version, pc' ≠ .checking m version) →
        (s.setOp op' call' new).ops op = some ⟨call, .checking m version⟩ := by
    intro op' call' pc' new hop' hpc'
    have hne : op ≠ op' := by
      rintro rfl
      obtain ⟨-, rfl⟩ := Op.mk.inj (Option.mem_unique hop' hop)
      exact hpc' m version rfl
    rw [ops_setOp_of_ne hne, hop]
  cases hmove with
  | @start op' call' hop' =>
    have hne : op ≠ op' := by
      rintro rfl
      rw [hop'] at hop
      cases hop
    exact Or.inl (by rw [ops_setOp_of_ne hne, hop])
  | read hop' | conflict hop' | commit hop' | store hop' => exact Or.inl (hother _ hop' nofun)
  | @failed _ op' call' pc' f hop' hpc' =>
    refine Or.inl (hother _ hop' ?_)
    rintro m version rfl
    exact hpc'
  | @check op' call' c m' version' hop' hc =>
    by_cases hne : op = op'
    · subst hne
      obtain ⟨rfl, hpc⟩ := Op.mk.inj (Option.mem_unique hop hop')
      obtain ⟨rfl, rfl⟩ := Pc.checking.inj hpc
      exact Or.inr ⟨c, hc, ops_setOp_self⟩
    · exact Or.inl (by rw [ops_setOp_of_ne hne, hop])

/-- A call that read the manifest under the epoch of another consumer: it is not past its check,
or it ended with an error. -/
def Outdated (s : State) (op : OpId) (call : Call) (epoch : UInt64) : Prop :=
  (∃ m version, s.ops op = some ⟨call, .checking m version⟩ ∧ m.epoch = epoch) ∨
  ∃ f, s.ops op = some ⟨call, .returned (.error f)⟩

theorem Outdated.move (h : Outdated s op call epoch) (hmove : Move s l s')
    (hne : ∀ c, call.consumer? = some c → epoch ≠ s.epochs c) : Outdated s' op call epoch := by
  rcases h with ⟨m, version, hop, rfl⟩ | ⟨f, hop⟩
  · rcases hmove.checking_cases hop with hsame | ⟨c, hc, hcheck⟩
    · exact Or.inl ⟨m, version, hsame, rfl⟩
    · refine Or.inr ⟨.err .fenced, ?_⟩
      rw [hcheck, afterCheck, if_pos (hne c hc)]
      rfl
  · exact Or.inr ⟨f, hmove.returned_mono hop⟩

theorem outdated_run {s1 s2} (h : Epochs s) (htraced : AllTraced s)
    (hstep : s.step (.read op) = some s1) (hc : call.consumer? = some c)
    (hother : s.inits.getLast? ≠ some c) (hop : s1.ops op = some ⟨call, .checking m version⟩)
    (hepoch : m.epoch = epochAt s.inits.length) (hrun : Run State.step anyStep s1 ls s2)
    (hinits : s2.inits.length < 2 ^ 64 - 1) : Outdated s2 op call (epochAt s.inits.length) := by
  -- The bound holds in every state on the way, because initializations are only added.
  have hinv : AllTraced s2 ∧ Epochs s2 ∧ s.inits <+: s2.inits ∧
      (s2.inits.length < 2 ^ 64 - 1 → Outdated s2 op call (epochAt s.inits.length)) := by
    refine hrun.invariant (I := fun t => AllTraced t ∧ Epochs t ∧ s.inits <+: t.inits ∧
      (t.inits.length < 2 ^ 64 - 1 → Outdated t op call (epochAt s.inits.length))) ?_ ?_
    · exact ⟨htraced.move (move_of_step hstep), h.step htraced hstep, inits_mono hstep,
        fun _ => Or.inl ⟨m, version, hop, hepoch⟩⟩
    · rintro t l t' ⟨ht, he, hle, hout⟩ - hstep'
      have hgrow := inits_mono hstep'
      refine ⟨ht.move (move_of_step hstep'), he.step ht hstep', hle.trans hgrow, ?_⟩
      intro hlen
      have hlen' : t.inits.length < 2 ^ 64 - 1 := Nat.lt_of_le_of_lt hgrow.length_le hlen
      refine (hout hlen').move (move_of_step hstep') ?_
      intro c' hc'
      obtain rfl := Option.mem_unique hc hc'
      exact epochs_ne_epochAt he hlen' hle hother
  exact hinv.2.2.2 hinits

/-- The calls that return an entry of the manifest. -/
def Call.Fetches (c : ConsumerId) (call : Call) : Prop :=
  call = .peek c ∨ ∃ sequence, call = .read c sequence

/-- In every run with fewer than `2 ^ 64 - 1` initializations, whatever the interleaving:

* a dequeue that changes the manifest object is one of the consumer that initialized last;
* a `peek` or `read` that reads the manifest when another consumer has initialized since never
  returns `Ok`, in no continuation of the run;
* a `peek`, `read` or `dequeue` that returned `Ok` belongs to a consumer whose `initialize`
  returned `Ok`. -/
theorem fencing (hrun : Run State.step anyStep State.init ls s)
    (hinits : s.inits.length < 2 ^ 64 - 1) :
    (∀ op c throughSequence pc s', s.ops op = some ⟨.dequeue c throughSequence, pc⟩ →
      s.step (.put op) = some s' → s'.object ≠ s.object → s.inits.getLast? = some c) ∧
    (∀ op call c s1 ls' s2 reply, call.Fetches c → s.ops op = some ⟨call, .reading⟩ →
      s.inits.getLast? ≠ some c → s.step (.read op) = some s1 →
      Run State.step anyStep s1 ls' s2 → s2.inits.length < 2 ^ 64 - 1 →
      s2.ops op ≠ some ⟨call, .returned (.ok reply)⟩) ∧ (∀ op call c reply, call.reader? = some c →
      s.ops op = some ⟨call, .returned (.ok reply)⟩ → s.Completed c) := by
  have hepochs := epochs_run hrun
  have htraced := allTraced_run hrun
  refine ⟨?_, ?_, ?_⟩
  · intro op c throughSequence pc s' hop hstep hchange
    exact dequeue_owner hepochs htraced hinits hop hstep hchange
  · intro op call c s1 ls' s2 reply hfetch hop hother hstep hrun' hinits' hreturned
    have hc : call.consumer? = some c := by
      rcases hfetch with rfl | ⟨sequence, rfl⟩ <;> rfl
    obtain ⟨m, version, hread, -, hepoch⟩ := hepochs.object
    have hop1 : s1.ops op = some ⟨call, .checking m version⟩ := by
      simp only [State.step, hop, hread, Option.some.injEq] at hstep
      rw [← hstep, ops_setOp_self]
      rcases hfetch with rfl | ⟨sequence, rfl⟩ <;> rfl
    rcases outdated_run hepochs htraced hstep hc hother hop1 hepoch hrun' hinits' with
      ⟨m', version', hop2, -⟩ | ⟨f, hop2⟩
    · cases hop2.symm.trans hreturned
    · cases hop2.symm.trans hreturned
  · intro op call c reply hc hop
    exact hepochs.ops op call _ hop c hc

def takeover : List Label :=
  [.start 0 (.initializeConsumer 0), .read 0, .put 0, .store 0,
    .start 1 (.initializeConsumer 1), .read 1, .put 1, .store 1, .start 2 (.peek 0)]

theorem fencing_takeover : ∃ s, Run State.step anyStep State.init takeover s ∧ s.inits = [0, 1] ∧
      ∀ s1 ls s2 reply, s.step (.read 2) = some s1 → Run State.step anyStep s1 ls s2 →
        s2.inits.length < 2 ^ 64 - 1 → s2.ops 2 ≠ some ⟨.peek 0, .returned (.ok reply)⟩ := by
  have heval : (takeover.foldlM State.step State.init).map State.inits = some [0, 1] := by
    decide +kernel
  obtain ⟨s, hs, hinits⟩ := map_eq_some_iff.mp heval
  have hop : s.ops 2 = some ⟨.peek 0, .reading⟩ := by
    have hops : (takeover.foldlM State.step State.init).bind (fun s => s.ops 2)
        = some ⟨.peek 0, .reading⟩ := by rfl
    rwa [hs] at hops
  have hrun := Run.of_foldlM hs
  refine ⟨s, hrun, hinits, ?_⟩
  intro s1 ls s2 reply hstep hrun' hbound
  exact (fencing hrun (by rw [hinits]; decide)).2.1 2 (.peek 0) 0 s1 ls s2 reply (Or.inl rfl) hop
    (by rw [hinits]; decide) hstep hrun' hbound

end OpenData.Buffer

import OpenData.Proofs.Buffer.History

/-!
# What calls return

A `peek` or `read` takes effect when it reads the manifest object: its result is the one on the
queue after the calls that were committed by then, a part of the calls that are committed when it
returns. The other calls take effect when they commit. `Placed` is this fact for every program
counter, and `calls_linearizable` says it of the whole of a call.
-/

namespace OpenData.Buffer

open Lib

variable {s s' : State} {l : Label} {ls : List Label} {op : OpId} {call : Call} {pc : Pc}
  {m : Manifest} {q : Queue}

theorem head?_items (m : Manifest) : m.items.head? = m.iter.next.map Prod.fst := by
  rw [Manifest.items, ManifestIter.items, ManifestIter.take]
  split
  · rename_i hnext
    rw [hnext]
    rfl
  · rename_i hnext
    rw [hnext]
    rfl

theorem peekResult_eq (h : Represents m q q.entries []) :
    peekResult m = .ok (.entry q.entries.head?) := by
  have hhead := head?_items m
  rw [h.items_eq, List.head?_map] at hhead
  rw [peekResult]
  cases hnext : m.iter.next with
  | none =>
    rw [hnext] at hhead
    cases hq : q.entries.head? with
    | none => rfl
    | some => simp [hq] at hhead
  | some item =>
    obtain ⟨item, it⟩ := item
    rw [hnext] at hhead
    cases hq : q.entries.head? with
    | none => simp [hq] at hhead
    | some =>
      simp only [hq, Option.map_some, Option.some.injEq] at hhead
      subst hhead
      rfl

theorem readResult_eq (h : Represents m q q.entries []) (sequence : UInt64) :
    readResult m sequence = .ok (.entry (q.entries.find? (fun e => e.sequence == sequence))) := by
  rw [readResult, h.items_eq, List.find?_map]
  have hpred : stopsRead sequence ∘ Except.ok = fun e : QueueEntry => e.sequence == sequence := rfl
  rw [hpred]
  cases q.entries.find? (fun e => e.sequence == sequence) <;> rfl

/-- The entry that a call asks the queue for. -/
def Call.lookup (q : Queue) : Call → Option (Option QueueEntry)
  | .peek _ => some q.entries.head?
  | .read _ sequence => some (q.entries.find? (fun e => e.sequence == sequence))
  | _ => none

/-- A `peek` or `read` works on the queue after some of the committed calls, and so does its
result. -/
def Fetched (committed : List (OpId × Call)) (call : Call) : Pc → Prop
  | .checking m _ => ∃ calls, calls <+: committed ∧
      Represents m (Queue.after calls) (Queue.after calls).entries []
  | .returned (.ok (.entry e)) => ∃ calls, calls <+: committed ∧
      call.lookup (Queue.after calls) = some e
  | _ => True

def AllFetched (s : State) : Prop :=
  ∀ op call pc, s.ops op = some ⟨call, pc⟩ → Fetched s.committed call pc

/-- The result of a call on the queue. -/
def Call.reply (q : Queue) : Call → Reply
  | .enqueue _ _ | .initializeConsumer _ => .unit
  | .peek _ => .entry q.entries.head?
  | .read _ sequence => .entry (q.entries.find? (fun e => e.sequence == sequence))
  | .dequeue _ throughSequence => .removed (q.removed throughSequence)

/-- What a call adds to the committed calls. -/
def Call.commits (op : OpId) : Call → List (OpId × Call)
  | .peek _ | .read _ _ => []
  | call => [(op, call)]

/-- The reply is that of the queue after some of the committed calls, those of `base` among them,
and what the call commits comes next. -/
def TakesEffect (base committed : List (OpId × Call)) (op : OpId) (call : Call) (reply : Reply) :
    Prop :=
  ∃ calls, base <+: calls ∧ calls ++ call.commits op <+: committed ∧
    reply = call.reply (Queue.after calls)

def Placed (base committed : List (OpId × Call)) (op : OpId) (call : Call) : Pc → Prop
  | .checking m _ => ∃ calls, base <+: calls ∧ calls <+: committed ∧
      Represents m (Queue.after calls) (Queue.after calls).entries []
  | .storing _ => TakesEffect base committed op call .unit
  | .returned (.ok reply) => TakesEffect base committed op call reply
  | _ => True

variable {base committed committed' : List (OpId × Call)} {reply : Reply} {version : Option Nat}

theorem TakesEffect.mono (h : TakesEffect base committed op call reply)
    (hle : committed <+: committed') : TakesEffect base committed' op call reply := by
  obtain ⟨calls, hbase, hcalls, hreply⟩ := h
  exact ⟨calls, hbase, hcalls.trans hle, hreply⟩

theorem Placed.mono (h : Placed base committed op call pc) (hle : committed <+: committed') :
    Placed base committed' op call pc := by
  cases pc with
  | reading | writing => trivial
  | checking =>
    obtain ⟨calls, hbase, hcalls, hrep⟩ := h
    exact ⟨calls, hbase, hcalls.trans hle, hrep⟩
  | storing => exact TakesEffect.mono h hle
  | returned result =>
    cases result with
    | error => trivial
    | ok => exact TakesEffect.mono h hle

theorem placed_begin (call : Call) : Placed base committed op call (begin call) := by
  cases call with
  | enqueue =>
    rw [begin]
    split <;> trivial
  | initializeConsumer | peek | read | dequeue => trivial

theorem placed_afterRead (hbase : base <+: s.committed) (hlin : Linearized s)
    (hread : ManifestStore.read s.object = .ok (m, version)) :
    Placed base s.committed op call (afterRead call m version) := by
  obtain ⟨m', version', hread', hrep⟩ := hlin.read
  obtain ⟨rfl, -⟩ := Prod.mk.inj (Except.ok.inj (hread'.symm.trans hread))
  cases call with
  | enqueue =>
    rw [afterRead]
    split <;> trivial
  | initializeConsumer => trivial
  | peek | read | dequeue => exact ⟨s.committed, hbase, List.prefix_rfl, hrep⟩

theorem placed_afterCheck (h : Placed base committed op call (.checking m version))
    (epoch : UInt64) : Placed base committed op call (afterCheck call epoch m version) := by
  obtain ⟨calls, hbase, hcalls, hrep⟩ := h
  rw [afterCheck]
  split
  · trivial
  · cases call with
    | enqueue | initializeConsumer => trivial
    | peek =>
      rw [afterMatch, peekResult_eq hrep]
      exact ⟨calls, hbase, by rwa [Call.commits, List.append_nil], rfl⟩
    | read =>
      rw [afterMatch, readResult_eq hrep]
      exact ⟨calls, hbase, by rwa [Call.commits, List.append_nil], rfl⟩
    | dequeue =>
      rw [afterMatch]
      split <;> trivial

theorem placed_afterCommit {m0 : Manifest} (h : Edits call m0 m reply)
    (hrep : Represents m0 (Queue.after committed) (Queue.after committed).entries [])
    (hbase : base <+: committed) :
    Placed base (committed ++ [(op, call)]) op call (afterCommit call m reply) := by
  cases h with
  | enqueue | takeover => exact ⟨committed, hbase, List.prefix_rfl, rfl⟩
  | @dequeue c throughSequence m0 m removed hdequeue =>
    obtain ⟨m', hdequeue', -⟩ := hrep.dequeue throughSequence
    obtain ⟨rfl, -⟩ := Prod.mk.inj (Except.ok.inj (hdequeue.symm.trans hdequeue'))
    exact ⟨committed, hbase, List.prefix_rfl, rfl⟩

def OpPlaced (base : List (OpId × Call)) (op : OpId) (s : State) : Prop :=
  ∀ op' call pc, s.ops op' = some ⟨call, pc⟩ → op' = op → Placed base s.committed op' call pc

theorem OpPlaced.move (h : OpPlaced base op s) (hbase : base <+: s.committed) (hlin : Linearized s)
    (htraced : AllTraced s) (hmove : Move s l s') : OpPlaced base op s' := by
  cases hmove with
  | start => exact forall_ops_setOp h fun _ => placed_begin _
  | read hop hread => exact forall_ops_setOp h fun _ => placed_afterRead hbase hlin hread
  | failed | conflict => exact forall_ops_setOp h fun _ => trivial
  | check hop hc => exact forall_ops_setOp h fun heq => placed_afterCheck (h _ _ _ hop heq) _
  | store hop => exact forall_ops_setOp h fun heq => (h _ _ _ hop heq :)
  | commit hop hbytes hput =>
    obtain ⟨m0, hc⟩ := commits_of_put htraced hop hbytes hput
    obtain ⟨m', version', hread', hrep⟩ := hlin.read
    obtain ⟨version0, hread⟩ := hc.read
    obtain ⟨rfl, -⟩ := Prod.mk.inj (Except.ok.inj (hread'.symm.trans hread))
    refine forall_ops_setOp (fun op' call' pc' hop' heq => ?_) fun _ =>
      placed_afterCommit hc.edit hrep hbase
    exact (h op' call' pc' hop' heq).mono (List.prefix_append _ _)

variable {ls0 : List Label} {s0 : State}

theorem placed_run (hrun0 : Run State.step enqueueFits State.init ls0 s0)
    (hnone : s0.ops op = none) (hrun : Run State.step enqueueFits s0 ls s)
    (hop : s.ops op = some ⟨call, pc⟩) : Placed s0.committed s.committed op call pc := by
  have hplaced : s0.committed <+: s.committed ∧ OpPlaced s0.committed op s := by
    refine hrun.invariant_reachable (I := fun s => s0.committed <+: s.committed ∧
      OpPlaced s0.committed op s) ⟨List.prefix_rfl, ?_⟩ ?_
    · rintro _ call pc hop' rfl
      cases hnone.symm.trans hop'
    · intro ls s l s' hrun' ⟨hbase, hplaced⟩ _ hstep
      have hreach := hrun0.trans hrun'
      exact ⟨hbase.trans (committed_mono hstep), hplaced.move hbase (linearized_run hreach)
        (allTraced_run hreach) (move_of_step hstep)⟩
  exact hplaced.2 op call pc hop rfl

/-- Every call takes effect at one moment between its start and its return. The state `s0` is one
before the start. What the call returns is the result on the queue after all calls that are
committed in `s0` and some that were committed later, and if it changes the queue, it is the next
one. -/
theorem calls_linearizable (hrun0 : Run State.step enqueueFits State.init ls0 s0)
    (hnone : s0.ops op = none) (hrun : Run State.step enqueueFits s0 ls s)
    (hop : s.ops op = some ⟨call, .returned (.ok reply)⟩) :
    TakesEffect s0.committed s.committed op call reply :=
  placed_run hrun0 hnone hrun hop

theorem calls_linearizable_racingEnqueues :
    ∃ s, Run State.step enqueueFits State.init racingEnqueues s ∧
      TakesEffect [] s.committed 0 (.enqueue "a" []) .unit := by
  obtain ⟨s, hs, hop⟩ : ∃ s, racingEnqueues.foldlM State.step State.init = some s ∧
      s.ops 0 = some ⟨.enqueue "a" [], .returned (.ok .unit)⟩ := ⟨_, rfl, rfl⟩
  have hrun : Run State.step enqueueFits State.init racingEnqueues s := by
    refine (Run.of_foldlM hs).of_labels ?_
    have hfits : entryBodyLen "a" [] ≤ u32Max ∧ entryBodyLen "b" [] ≤ u32Max := by decide +kernel
    simp [racingEnqueues, enqueueFits, Call.BodyFits, hfits]
  exact ⟨s, hrun, calls_linearizable Run.nil rfl hrun hop⟩

/-- In every run of calls that fit, a `peek` or `read` returns what it finds in the queue after
some of the committed calls. -/
theorem fetched_run (hrun : Run State.step enqueueFits State.init ls s) : AllFetched s := by
  intro op call pc hop
  have hplaced := placed_run Run.nil rfl hrun hop
  cases pc with
  | reading | writing | storing => trivial
  | checking =>
    obtain ⟨calls, -, hcalls, hrep⟩ := hplaced
    exact ⟨calls, hcalls, hrep⟩
  | returned result =>
    cases result with
    | error => trivial
    | ok reply =>
      obtain ⟨calls, -, hcalls, rfl⟩ := hplaced
      cases call with
      | enqueue | initializeConsumer | dequeue => trivial
      | peek | read => exact ⟨calls, (List.prefix_append _ _).trans hcalls, rfl⟩

end OpenData.Buffer

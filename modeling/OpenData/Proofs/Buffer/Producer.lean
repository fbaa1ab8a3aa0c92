import OpenData.Buffer.Producer
import OpenData.Lib.Regroup
import OpenData.Proofs.Buffer.Batch
import OpenData.Proofs.Buffer.History

/-!
# What a produce call is told about its entries

A batch holds the entries of its calls one after the other, and one metadata range for each call
(`Packed`). The ranges start where the entries of the call do, so the lookup of a consumer finds the
range of the call for each of its entries (`Packed.lookup`), also when other calls start at the same
index because they have no entries.

`produced_durable` states what the watcher of a call stands for, on the entries that the stored
manifest decodes to. It needs every entry to fit in its length field, which nothing checks: with
longer metadata the watcher says `Ok`, and the manifest cannot be read
(`oversized_metadata_undecodable`).
-/

namespace OpenData.Buffer

open Lib List UInt32 Function

/-! ### The layout of a batch -/

def ranges (start : Nat) : List Produced → List Metadata
  | [] => []
  | call :: calls =>
    { startIndex := UInt32.ofNat start, ingestionTimeMs := call.ingestionTimeMs
      payload := call.metadata } :: ranges (start + call.entries.length) calls

theorem ranges_append (start : Nat) (calls calls' : List Produced) :
    ranges start (calls ++ calls') =
      ranges start calls ++ ranges (start + (calls.flatMap Produced.entries).length) calls' := by
  induction calls generalizing start with
  | nil => simp [ranges]
  | cons call calls ih =>
    rw [cons_append, ranges, ranges, ih, cons_append, flatMap_cons, length_append, Nat.add_assoc]

/-- The batch is that of its notifiers, and its lengths fit into their fields. -/
structure Packed (data : DataAndNotifiers) : Prop where
  entries : data.entries = data.notifiers.flatMap Produced.entries
  metadata : data.metadata = ranges 0 data.notifiers
  count : data.entries.length < 2 ^ 32
  bytes : ∀ e ∈ data.entries, e.length < 2 ^ 32

theorem packed_empty : Packed .empty := ⟨rfl, rfl, by decide, nofun⟩

variable {call : Produced}

theorem Batch.add_cases {batch : Batch} (hfits : batch.dataAndNotifiers.FitsCall call) :
    (∃ e, (batch.add call) = (.error e, batch)) ∨ (∃ sizeBytes, (batch.add call) = (.ok (),
        { dataAndNotifiers :=
            { entries := batch.dataAndNotifiers.entries ++ call.entries
              metadata := batch.dataAndNotifiers.metadata ++
                [{ startIndex := UInt32.ofNat batch.dataAndNotifiers.entries.length
                   ingestionTimeMs := call.ingestionTimeMs, payload := call.metadata }]
              notifiers := batch.dataAndNotifiers.notifiers ++ [call] }
          sizeBytes })) ∧
        (batch.dataAndNotifiers.entries ++ call.entries).length < 2 ^ 32 ∧
        ∀ e ∈ call.entries, e.length < 2 ^ 32 := by
  cases hfind : call.entries.find? fun e => e.length > u32Max with
  | some e =>
    refine .inl ⟨.err (.invalidInput s!"entry size {e.length} exceeds u32::MAX"), ?_⟩
    rw [Batch.add, hfind]
    rfl
  | none =>
    have hlen : ∀ e ∈ call.entries, e.length ≤ u32Max := by
      intro e he
      have hnot := find?_eq_none.mp hfind e he
      simpa using hnot
    have hcount := (hfits hlen).1
    refine .inr ⟨⟨batch.sizeBytes + (call.entries.map List.length).sum + call.metadata.length, ?_⟩,
      hcount, fun e he => ?_⟩
    · rw [Batch.add, hfind]
      simp only [DataAndNotifiers.add]
      rw [if_neg (by simp only [u32Max]; omega)]
    · have hle := hlen e he
      simp only [u32Max] at hle
      omega

variable {data : DataAndNotifiers}

theorem Packed.add (h : Packed data) (hcount : (data.entries ++ call.entries).length < 2 ^ 32)
    (hbytes : ∀ e ∈ call.entries, e.length < 2 ^ 32) :
    Packed { entries := data.entries ++ call.entries
             metadata := data.metadata ++
               [{ startIndex := UInt32.ofNat data.entries.length
                  ingestionTimeMs := call.ingestionTimeMs, payload := call.metadata }]
             notifiers := data.notifiers ++ [call] } where
  entries := by
    show data.entries ++ call.entries = (data.notifiers ++ [call]).flatMap Produced.entries
    rw [flatMap_append, ← h.entries]
    simp
  metadata := by
    show data.metadata ++ _ = ranges 0 (data.notifiers ++ [call])
    rw [ranges_append, ← h.metadata, ← h.entries, Nat.zero_add]
    rfl
  count := hcount
  bytes := fun e he => (mem_append.mp he).elim (h.bytes e) (hbytes e)

theorem ofNat_le_ofNat {a b : Nat} (hab : a ≤ b) (hb : b < 2 ^ 32) :
    UInt32.ofNat a ≤ UInt32.ofNat b := by
  have hsize : size = 2 ^ 32 := rfl
  rwa [le_iff_toNat_le, toNat_ofNat_of_lt' (by omega), toNat_ofNat_of_lt' (by omega)]

theorem ofNat_lt_ofNat {a b : Nat} (hab : a < b) (hb : b < 2 ^ 32) :
    UInt32.ofNat a < UInt32.ofNat b := by
  have hsize : size = 2 ^ 32 := rfl
  rwa [lt_iff_toNat_lt, toNat_ofNat_of_lt' (by omega), toNat_ofNat_of_lt' (by omega)]

theorem startIndex_le_of_mem_ranges {start bound : Nat} {calls : List Produced}
    (hbound : start + (calls.flatMap Produced.entries).length ≤ bound) (hlt : bound < 2 ^ 32)
    {m : Metadata} (hm : m ∈ ranges start calls) : m.startIndex ≤ UInt32.ofNat bound := by
  induction calls generalizing start with
  | nil => exact absurd hm not_mem_nil
  | cons call calls ih =>
    rw [flatMap_cons, length_append] at hbound
    rcases mem_cons.mp hm with rfl | hm
    · exact ofNat_le_ofNat (by omega) hlt
    · exact ih (by omega) hm

theorem Packed.lookup (h : Packed data) (hcall : call ∈ data.notifiers) :
    ∃ before after, data.entries = before ++ call.entries ++ after ∧ ∀ i < call.entries.length,
        findMetadataForEntry data.metadata (UInt32.ofNat (before.length + i)) =
          some { startIndex := UInt32.ofNat before.length
                 ingestionTimeMs := call.ingestionTimeMs, payload := call.metadata } := by
  obtain ⟨earlier, later, hsplit⟩ := append_of_mem hcall
  have hentries : data.entries = earlier.flatMap Produced.entries ++ call.entries
      ++ later.flatMap Produced.entries := by
    rw [h.entries, hsplit]
    simp
  refine ⟨earlier.flatMap Produced.entries, later.flatMap Produced.entries, hentries, ?_⟩
  intro i hi
  have hcount := h.count
  rw [hentries, length_append, length_append] at hcount
  have hmetadata : data.metadata = ranges 0 earlier ++
      { startIndex := UInt32.ofNat (earlier.flatMap Produced.entries).length
        ingestionTimeMs := call.ingestionTimeMs, payload := call.metadata } ::
        ranges ((earlier.flatMap Produced.entries).length + call.entries.length) later := by
    rw [h.metadata, hsplit, ranges_append, ranges, Nat.zero_add]
  rw [hmetadata]
  refine findMetadataForEntry_eq ?_ ?_ ?_
  · intro m hm
    exact startIndex_le_of_mem_ranges (by omega) (by omega) hm
  · exact ofNat_le_ofNat (by omega) (by omega)
  · -- The next range starts behind all entries of the call.
    intro m hm
    cases hlater : later with
    | nil => simp [hlater, ranges] at hm
    | cons =>
      rw [hlater, ranges, List.head?_cons] at hm
      obtain rfl := Option.mem_some_iff.mp hm
      exact ofNat_lt_ofNat (by omega) (by omega)

/-! ### The invariant -/

variable {f : Flushed} {reply : Option Nat}

namespace ProducerState

def queued (s : ProducerState) : List Produced :=
  s.channel.filterMap fun
    | .add call => some call
    | .flush _ => none

/-- The calls that the task does not hold yet. -/
def pending (s : ProducerState) : List Produced :=
  s.batch.dataAndNotifiers.notifiers ++ s.queued

def served (s : ProducerState) : List Produced := s.flushes.flatMap fun f => f.data.notifiers

/-- The data of the flush is stored under its path, and the path is enqueued. -/
structure Written (zstd : Zstd) (cfg : ProducerConfig) (store : String → Option Bytes)
    (queue : State) (f : Flushed) : Prop where
  packed : Packed f.data
  stored : ∃ payload, store f.path = some payload ∧
    encodeBatch zstd f.data.entries cfg.batchCompression = .ok payload
  called : ∃ pc, queue.ops f.op = some ⟨.enqueue f.path f.data.metadata, pc⟩

def Settled (s : ProducerState) (f : Flushed) : Prop :=
  ∃ call result, s.queue.ops f.op = some ⟨call, .returned result⟩ ∧
    ∀ reply, result = .ok reply → ∀ c ∈ f.data.notifiers, s.values c.id = some (.ok ())

/-- What holds of everything but the task. The task holds the calls `held`, whose batch is not
written yet, or waits for the queue call of the batch `waits`. -/
structure Core (zstd : Zstd) (cfg : ProducerConfig) (s : ProducerState) (held : List Produced)
    (waits : Option Flushed) : Prop where
  ids : s.sent.map Produced.id = range s.sent.length
  order : (s.served ++ held ++ s.pending).Sublist s.sent
  unresolved : ∀ c ∈ (waits.elim [] fun f => f.data.notifiers) ++ held ++ s.pending,
    s.values c.id = none
  packed : Packed s.batch.dataAndNotifiers
  written : ∀ f ∈ s.flushes, Written zstd cfg s.store s.queue f
  settled : ∀ f ∈ s.flushes, waits = some f ∨ s.Settled f
  bounded : ∀ id, s.values id ≠ none → id < s.sent.length
  resolved : ∀ id, s.values id = some (.ok ()) → ∃ f ∈ s.flushes, ∃ c ∈ f.data.notifiers,
    c.id = id ∧ ∃ call reply, s.queue.ops f.op = some ⟨call, .returned (.ok reply)⟩

def Inv (zstd : Zstd) (cfg : ProducerConfig) (s : ProducerState) : Prop :=
  match s.task with
  | .waiting => Core zstd cfg s [] none
  | .putting data payload _ => Core zstd cfg s data.notifiers none ∧ Packed data ∧
      encodeBatch zstd data.entries cfg.batchCompression = .ok payload
  | .enqueueing data op _ => ∃ f ∈ s.flushes, f.data = data ∧ f.op = op ∧
      Core zstd cfg s [] (some f)
  | .stopped => Core zstd cfg s [] none

variable {zstd : Zstd} {cfg : ProducerConfig} {s s' : ProducerState} {held : List Produced}
  {waits : Option Flushed}

section

variable (h : Core zstd cfg s held waits)
include h

theorem Core.eq_of_id_eq {c c'} (hc : c ∈ s.sent)
    (hc' : c' ∈ s.sent) (hid : c.id = c'.id) : c = c' := by
  have hnodup : (s.sent.map Produced.id).Nodup := by
    rw [h.ids]
    exact nodup_range
  exact inj_on_of_nodup_map hnodup hc hc' hid

theorem Core.nodup : (s.served ++ held ++ s.pending).Nodup := by
  have hnodup : (s.sent.map Produced.id).Nodup := by
    rw [h.ids]
    exact nodup_range
  exact h.order.nodup (Nodup.of_map _ hnodup)

theorem Core.id_lt {c} (hc : c ∈ s.sent) : c.id < s.sent.length := by
  have hmem : c.id ∈ s.sent.map Produced.id := mem_map_of_mem hc
  rw [h.ids] at hmem
  exact mem_range.mp hmem

theorem Core.id_ne {c c'} (hc : c ∈ s.served ++ held) (hc' : c' ∈ s.pending) : c'.id ≠ c.id := by
  intro hid
  obtain rfl := h.eq_of_id_eq (h.order.subset (mem_append_right _ hc'))
    (h.order.subset (mem_append_left _ hc)) hid
  exact (nodup_append.mp h.nodup).2.2 c' hc c' hc' rfl

end

theorem core_init : Core zstd cfg init [] none where
  ids := rfl
  order := Sublist.slnil
  unresolved := nofun
  packed := packed_empty
  written := nofun
  settled := nofun
  bounded := fun _ h => absurd rfl h
  resolved := nofun

theorem inv_of_waiting (htask : s.task = .waiting) (h : Core zstd cfg s [] none) :
    Inv zstd cfg s := by
  rw [Inv, htask]
  exact h

theorem Core.frame (h : Core zstd cfg s held waits) (task : WriterTask)
    (replies : Nat → Option (Result Unit)) (closing : Option Nat) (cancelled dropped : Bool) :
    Core zstd cfg { s with task, replies, closing, cancelled, dropped } held waits :=
  ⟨h.ids, h.order, h.unresolved, h.packed, h.written, h.settled, h.bounded, h.resolved⟩

/-! ### Steps of the queue -/

variable {l : Label}

theorem Settled.queue {queue} (h : s.Settled f) (hmove : Move s.queue l queue) :
    Settled { s with queue } f := by
  obtain ⟨call, result, hop, hvalues⟩ := h
  exact ⟨call, result, hmove.returned_mono hop, hvalues⟩

theorem Written.queue {store : String → Option Bytes} {queue queue'}
    (h : Written zstd cfg store queue f) (hmove : Move queue l queue') :
    Written zstd cfg store queue' f := by
  obtain ⟨pc, hop⟩ := h.called
  exact ⟨h.packed, h.stored, hmove.call_mono hop⟩

theorem Core.queue {queue} (h : Core zstd cfg s held waits)
    (hmove : Move s.queue l queue) : Core zstd cfg { s with queue } held waits where
  __ := h
  written := fun f hf => (h.written f hf).queue hmove
  settled := fun f hf => (h.settled f hf).imp_right fun hsettled => hsettled.queue hmove
  resolved := by
    intro id hid
    obtain ⟨f, hf, c, hc, hcid, call, reply, hop⟩ := h.resolved id hid
    exact ⟨f, hf, c, hc, hcid, call, reply, hmove.returned_mono hop⟩

/-! ### Results -/

theorem values_finish (s : ProducerState) (notifiers : List Produced) (result : Result Unit)
    (reply : Option Nat) (id : Nat) : (s.finish notifiers result reply).values id =
      if id ∈ notifiers.map Produced.id then some result else s.values id := by
  show (notifiers.foldl _ s.values) id = _
  generalize s.values = values
  induction notifiers generalizing values with
  | nil => simp
  | cons call notifiers ih =>
    rw [foldl_cons, ih, map_cons]
    by_cases hmem : id ∈ notifiers.map Produced.id
    · rw [if_pos hmem, if_pos (mem_cons_of_mem _ hmem)]
    · rw [if_neg hmem]
      by_cases hid : id = call.id
      · rw [hid, update_self, if_pos mem_cons_self]
      · rw [update_of_ne hid, if_neg]
        exact fun h => (mem_cons.mp h).elim hid hmem

theorem Core.store {path} (h : Core zstd cfg s held waits) (payload : Bytes)
    (hfresh : s.store path = none) :
    Core zstd cfg { s with store := update s.store path (some payload) } held waits := by
  refine ⟨h.ids, h.order, h.unresolved, h.packed, fun f hf => ?_, h.settled, h.bounded, h.resolved⟩
  obtain ⟨hpacked, ⟨payload', hstored, hencode⟩, hcalled⟩ := h.written f hf
  have hne : f.path ≠ path := by
    intro heq
    rw [heq, hfresh] at hstored
    exact absurd hstored (by simp)
  exact ⟨hpacked, ⟨payload', (update_of_ne hne ..).trans hstored, hencode⟩, hcalled⟩

/-- The end of a write: the calls that the task holds, or whose batch it waits for, get the
result. -/
theorem Core.finish {result} (h : Core zstd cfg s held waits)
    (hwaits : ∀ f, waits = some f → f ∈ s.flushes ∧ ∃ call r,
      s.queue.ops f.op = some ⟨call, .returned r⟩ ∧ ((∃ reply, r = .ok reply) ↔ result = .ok ()))
    (hheld : result = .ok () → held = []) :
    Core zstd cfg (s.finish ((waits.elim [] fun f => f.data.notifiers) ++ held) result reply) []
      none := by
  generalize hnotifiers : (waits.elim [] fun f => f.data.notifiers) ++ held = notifiers
  -- The calls that are told were not told before.
  have hnone : ∀ id ∈ notifiers.map Produced.id, s.values id = none := by
    intro id hid
    obtain ⟨c, hc, rfl⟩ := mem_map.mp hid
    refine h.unresolved c ?_
    rw [hnotifiers]
    exact mem_append_left _ hc
  have hserved : ∀ c ∈ notifiers, c ∈ s.served ++ held := by
    intro c hc
    rw [← hnotifiers] at hc
    rcases mem_append.mp hc with hc | hc
    · cases waits with
      | none => exact absurd hc not_mem_nil
      | some f =>
        exact mem_append_left _ (mem_flatMap.mpr ⟨f, (hwaits f rfl).1, hc⟩)
    · exact mem_append_right _ hc
  have hkeep : ∀ id, s.values id ≠ none →
      (s.finish notifiers result reply).values id = s.values id := by
    intro id hid
    rw [values_finish, if_neg fun hmem => hid (hnone id hmem)]
  refine ⟨h.ids, ?_, ?_, h.packed, ?_, ?_, ?_, ?_⟩
  · refine Sublist.trans ?_ h.order
    rw [append_nil]
    exact (sublist_append_left _ _).append_right _
  · intro c hc
    have hc' : c ∈ s.pending := hc
    rw [values_finish, if_neg]
    · exact h.unresolved c (mem_append_right _ hc')
    · intro hmem
      obtain ⟨c', hmem, hid⟩ := mem_map.mp hmem
      exact h.id_ne (hserved c' hmem) hc' hid.symm
  · exact h.written
  · intro f hf
    refine .inr ?_
    rcases h.settled f hf with hf' | ⟨call, r, hop, hvalues⟩
    · obtain ⟨-, call, r, hop, hr⟩ := hwaits f hf'
      refine ⟨call, r, hop, fun reply' hr' c hc => ?_⟩
      rw [values_finish, if_pos, hr.mp ⟨reply', hr'⟩]
      refine mem_map_of_mem ?_
      rw [← hnotifiers, hf']
      exact mem_append_left _ hc
    · refine ⟨call, r, hop, fun reply' hr' c hc => ?_⟩
      rw [hkeep _ (by rw [hvalues reply' hr' c hc]; exact Option.some_ne_none _)]
      exact hvalues reply' hr' c hc
  · intro id hid
    by_cases hmem : id ∈ notifiers.map Produced.id
    · obtain ⟨c, hc, rfl⟩ := mem_map.mp hmem
      exact h.id_lt (h.order.subset (mem_append_left _ (hserved c hc)))
    · rw [values_finish, if_neg hmem] at hid
      exact h.bounded id hid
  · intro id hid
    by_cases hmem : id ∈ notifiers.map Produced.id
    · rw [values_finish, if_pos hmem] at hid
      have hresult : result = .ok () := Option.some.inj hid
      obtain ⟨c, hc, rfl⟩ := mem_map.mp hmem
      rw [← hnotifiers, hheld hresult, append_nil] at hc
      cases waits with
      | none => exact absurd hc not_mem_nil
      | some f =>
        obtain ⟨hf, call, r, hop, hr⟩ := hwaits f rfl
        obtain ⟨reply', rfl⟩ := hr.mpr hresult
        exact ⟨f, hf, c, hc, rfl, call, reply', hop⟩
    · rw [values_finish, if_neg hmem] at hid
      exact h.resolved id hid

/-! ### Messages -/

theorem Core.take (h : Core zstd cfg s [] none) :
    Core zstd cfg { s with batch := .new } s.batch.dataAndNotifiers.notifiers none where
  __ := h
  order := by simpa [Batch.new, DataAndNotifiers.empty, pending, served, queued] using h.order
  unresolved := by simpa [Batch.new, DataAndNotifiers.empty, pending, queued] using h.unresolved
  packed := packed_empty

theorem Core.stop (h : Core zstd cfg s held waits)
    (hwaits : ∀ f, waits = some f →
      ∃ call e, s.queue.ops f.op = some ⟨call, .returned (.error e)⟩) :
    Core zstd cfg { s with task := .stopped, channel := [], batch := .new } [] none where
  __ := h
  order := by
    refine Sublist.trans ?_ h.order
    show (s.served ++ [] ++ []).Sublist _
    rw [append_nil, append_nil, append_assoc]
    exact sublist_append_left _ _
  unresolved := nofun
  packed := packed_empty
  settled := by
    intro f hf
    refine .inr ((h.settled f hf).elim (fun hf' => ?_) id)
    obtain ⟨call, e, hop⟩ := hwaits f hf'
    exact ⟨call, .error e, hop, nofun⟩

theorem Core.send (h : Core zstd cfg s held waits) (entries : List Bytes) (metadata : Bytes)
    (ingestionTimeMs : Int64) :
    Core zstd cfg
      { s with
        channel := s.channel ++ [.add { id := s.sent.length, entries, metadata, ingestionTimeMs }]
        sent := s.sent ++ [{ id := s.sent.length, entries, metadata, ingestionTimeMs }] }
      held waits where
  ids := by
    show (s.sent ++ [_]).map Produced.id = range (s.sent ++ [_]).length
    rw [map_append, h.ids, length_append, length_singleton, range_succ]
    rfl
  order := by
    have hpending : pending { s with
        channel := s.channel ++ [.add { id := s.sent.length, entries, metadata, ingestionTimeMs }]
        sent := s.sent ++ [{ id := s.sent.length, entries, metadata, ingestionTimeMs }] } =
        s.pending ++ [{ id := s.sent.length, entries, metadata, ingestionTimeMs }] := by
      simp [pending, queued]
    rw [hpending, ← append_assoc]
    exact h.order.append (Sublist.refl _)
  unresolved := by
    intro c hc
    have hc' : c ∈ (waits.elim [] fun f => f.data.notifiers) ++ held ++ s.pending ∨
        c = { id := s.sent.length, entries, metadata, ingestionTimeMs } := by
      simpa [pending, queued, or_assoc] using hc
    rcases hc' with hc' | rfl
    · exact h.unresolved c hc'
    · by_contra hne
      exact absurd (h.bounded _ hne) (Nat.lt_irrefl _)
  __ := h
  bounded := by
    intro id hid
    rw [length_append]
    exact Nat.lt_add_right _ (h.bounded id hid)

theorem Core.channel (h : Core zstd cfg s held waits) {channel}
    (hqueued : queued { s with channel } = s.queued) :
    Core zstd cfg { s with channel } held waits where
  __ := h
  order := by rw [pending, hqueued]; exact h.order
  unresolved := by rw [pending, hqueued]; exact h.unresolved

theorem Core.reject {channel e} (h : Core zstd cfg s [] none)
    (hchannel : s.channel = .add call :: channel) :
    Core zstd cfg { s with channel, values := update s.values call.id (some (.error e)) } []
      none := by
  have hqueued : s.pending = s.batch.dataAndNotifiers.notifiers ++
      call :: queued { s with channel } := by
    simp [pending, queued, hchannel]
  have hpending : (pending { s with channel }).Sublist s.pending := by
    rw [hqueued]
    exact (sublist_cons_self _ _).append_left _
  have hcall : call ∈ s.pending := by
    rw [hqueued]
    exact mem_append_right _ mem_cons_self
  have hnone : s.values call.id = none := h.unresolved call (mem_append_right _ hcall)
  have hsent : ∀ c ∈ s.pending, c ∈ s.sent := fun c hc =>
    h.order.subset (mem_append_right _ hc)
  have hkeep : ∀ id, id ≠ call.id → update s.values call.id (some (.error e)) id = s.values id :=
    fun id hid => update_of_ne hid ..
  refine ⟨h.ids, (hpending.append_left _).trans h.order, ?_, h.packed, h.written, ?_, ?_, ?_⟩
  · intro c hc
    have hc' : c ∈ pending { s with channel } := hc
    have hmem : c ∈ s.pending := hpending.subset hc'
    refine (hkeep c.id fun hid => ?_).trans (h.unresolved c (mem_append_right _ hmem))
    -- The call is in the channel once.
    obtain rfl := h.eq_of_id_eq (hsent c hmem) (hsent call hcall) hid
    have hnodup := (nodup_append.mp h.nodup).2.1
    rw [hqueued, nodup_middle] at hnodup
    exact (nodup_cons.mp hnodup).1 hc'
  · intro f hf
    obtain ⟨c, r, hop, hvalues⟩ := (h.settled f hf).resolve_left nofun
    refine .inr ⟨c, r, hop, fun reply hr c' hc' => ?_⟩
    have hvalue := hvalues reply hr c' hc'
    refine (hkeep _ fun hid => ?_).trans hvalue
    rw [hid, hnone] at hvalue
    exact absurd hvalue (by simp)
  · intro id hid
    by_cases hne : id = call.id
    · rw [hne]
      exact h.id_lt (hsent call hcall)
    · refine h.bounded id ?_
      rw [← hkeep id hne]
      exact hid
  · intro id hid
    by_cases hne : id = call.id
    · rw [hne] at hid
      exact absurd ((update_self ..).symm.trans hid) (by simp)
    · exact h.resolved id ((hkeep id hne).symm.trans hid)

theorem Core.accept {channel} (h : Core zstd cfg s [] none)
    (hchannel : s.channel = .add call :: channel)
    (hnotifiers : data.notifiers = s.batch.dataAndNotifiers.notifiers ++ [call])
    (hpacked : Packed data) (sizeBytes : Nat) :
    Core zstd cfg { s with channel, batch := { dataAndNotifiers := data, sizeBytes } } [] none where
  __ := h
  order := by simpa [pending, served, queued, hchannel, hnotifiers] using h.order
  unresolved := by
    simpa [pending, queued, hchannel, hnotifiers, or_imp, forall_and, and_assoc] using h.unresolved
  packed := hpacked

theorem Core.writeBatch (h : Core zstd cfg s [] none) :
    Inv zstd cfg (s.writeBatch zstd cfg reply) := by
  rw [ProducerState.writeBatch]
  split
  · exact h.finish nofun fun _ => rfl
  · cases hencode : encodeBatch zstd s.batch.dataAndNotifiers.entries cfg.batchCompression with
    | ok => exact ⟨h.take.frame _ _ _ _ _, h.packed, hencode⟩
    | error => exact h.take.finish nofun nofun

variable {message : ProduceMessage}

theorem Core.handle {channel : List ProduceMessage}
    (h : Core zstd cfg s [] none) (htask : s.task = .waiting)
    (hchannel : s.channel = message :: channel)
    (hfits : ∀ call, message = .add call → s.batch.dataAndNotifiers.FitsCall call) :
    Inv zstd cfg (ProducerState.handle zstd cfg { s with channel } message) := by
  cases message with
  | flush => exact (h.channel (by simp [queued, hchannel])).writeBatch
  | add call =>
    rw [ProducerState.handle]
    rcases Batch.add_cases (hfits call rfl) with ⟨e, hadd⟩ | ⟨⟨sizeBytes, hadd⟩, hcount, hbytes⟩
    · rw [hadd]
      exact inv_of_waiting htask (h.reject hchannel)
    · rw [hadd]
      have hcore := h.accept hchannel rfl (h.packed.add hcount hbytes) sizeBytes
      show Inv zstd cfg (if _ then _ else _)
      split
      · exact hcore.writeBatch
      · exact inv_of_waiting htask hcore

theorem Core.put {path payload op queue}
    (h : Core zstd cfg s data.notifiers none) (hpacked : Packed data)
    (hencode : encodeBatch zstd data.entries cfg.batchCompression = .ok payload)
    (hfresh : s.store path = none)
    (hstep : s.queue.step (.start op (.enqueue path data.metadata)) = some queue) :
    Inv zstd cfg { s with
      queue
      store := update s.store path (some payload)
      task := .enqueueing data op reply
      flushes := s.flushes ++ [{ path, data, op }] } := by
  have hmove := move_of_step hstep
  have hq := (h.store payload hfresh).queue hmove
  refine ⟨{ path, data, op }, mem_append_right _ mem_cons_self, rfl, rfl, ?_⟩
  refine ⟨hq.ids, ?_, ?_, hq.packed, ?_, ?_, hq.bounded, ?_⟩
  · have horder := hq.order
    simpa [pending, served, queued, flatMap_append] using horder
  · intro c hc
    refine hq.unresolved c ?_
    simpa [pending, queued] using hc
  · intro f hf
    rcases mem_append.mp hf with hf | hf
    · exact hq.written f hf
    · obtain rfl := mem_singleton.mp hf
      refine ⟨hpacked, ⟨payload, update_self .., hencode⟩, ?_⟩
      rw [State.step] at hstep
      split at hstep
      · cases hstep
        exact ⟨_, ops_setOp_self⟩
      · exact absurd hstep (by simp)
  · intro f hf
    rcases mem_append.mp hf with hf | hf
    · exact .inr ((hq.settled f hf).resolve_left (by simp))
    · obtain rfl := mem_singleton.mp hf
      exact .inl rfl
  · intro id hid
    obtain ⟨f, hf, hrest⟩ := hq.resolved id hid
    exact ⟨f, mem_append_left _ hf, hrest⟩

/-! ### Runs -/

theorem Inv.map (h : Inv zstd cfg s) (htask : s'.task = s.task) (hflushes : s'.flushes = s.flushes)
    (hcore : ∀ held waits, Core zstd cfg s held waits → Core zstd cfg s' held waits) :
    Inv zstd cfg s' := by
  unfold Inv at h ⊢
  rw [htask]
  cases hs : s.task with
  | waiting | stopped =>
    rw [hs] at h
    exact hcore _ _ h
  | putting data payload reply =>
    rw [hs] at h
    exact ⟨hcore _ _ h.1, h.2⟩
  | enqueueing data op reply =>
    rw [hs] at h
    obtain ⟨f, hf, hdata, hop, h⟩ := h
    exact ⟨f, hflushes ▸ hf, hdata, hop, hcore _ _ h⟩

theorem Inv.send {sent} (h : Inv zstd cfg s) (hcore : ∀ held waits, Core zstd cfg s held waits →
      Core zstd cfg { s with channel := s.channel ++ [message], sent := s.sent ++ sent } held waits)
    (hstep : s.send cfg message sent = some s') : Inv zstd cfg s' := by
  rw [ProducerState.send] at hstep
  split at hstep
  · exact Option.some.inj hstep ▸ h
  · split at hstep
    · rw [← Option.some.inj hstep]
      exact h.map rfl rfl hcore
    · exact absurd hstep (by simp)

theorem Inv.step {e} (h : Inv zstd cfg s) (hok : producerAssumptions cfg s e)
    (hstep : s.step zstd cfg e = some s') : Inv zstd cfg s' := by
  have hflush : ∀ reply held waits, Core zstd cfg s held waits → Core zstd cfg
      { s with channel := s.channel ++ [.flush reply], sent := s.sent ++ [] } held waits := by
    intro reply held waits hcore
    rw [append_nil]
    exact hcore.channel (by simp [queued])
  cases e with
  | produce entries metadata ingestionTimeMs =>
    simp only [ProducerState.step] at hstep
    split at hstep
    · exact absurd hstep (by simp)
    · split at hstep
      · exact Option.some.inj hstep ▸ h
      · exact h.send (fun held waits hcore => hcore.send entries metadata ingestionTimeMs) hstep
  | flush reply =>
    simp only [ProducerState.step] at hstep
    split at hstep
    · exact absurd hstep (by simp)
    · exact h.send (hflush reply) hstep
  | close reply =>
    simp only [ProducerState.step] at hstep
    split at hstep
    · exact absurd hstep (by simp)
    · obtain ⟨s1, hs1, rfl⟩ := Option.map_eq_some_iff.mp hstep
      exact (h.send (hflush reply) hs1).map rfl rfl fun held waits hcore => hcore.frame _ _ _ _ _
  | closed =>
    simp only [ProducerState.step] at hstep
    split at hstep
    · exact absurd hstep (by simp)
    · split at hstep
      all_goals first
        | (rw [← Option.some.inj hstep]
           exact h.map rfl rfl fun held waits hcore => hcore.frame _ _ _ _ _)
        | exact absurd hstep (by simp)
  | drop =>
    simp only [ProducerState.step] at hstep
    split at hstep
    · exact absurd hstep (by simp)
    · rw [← Option.some.inj hstep]
      exact h.map rfl rfl fun held waits hcore => hcore.frame _ _ _ _ _
  | receive =>
    simp only [ProducerState.step] at hstep
    split at hstep
    · rename_i message channel htask hchannel
      rw [Inv, htask] at h
      rw [← Option.some.inj hstep]
      refine h.handle htask hchannel fun call hmessage => hok call channel ?_
      rw [hchannel, hmessage]
    · exact absurd hstep (by simp)
  | timer =>
    simp only [ProducerState.step] at hstep
    split at hstep
    · rename_i htask
      rw [Inv, htask] at h
      rw [← Option.some.inj hstep]
      exact h.writeBatch
    · exact absurd hstep (by simp)
  | stop =>
    simp only [ProducerState.step] at hstep
    split at hstep
    · rename_i htask
      rw [Inv, htask] at h
      split at hstep
      · rw [← Option.some.inj hstep]
        exact h.stop nofun
      · exact absurd hstep (by simp)
    · exact absurd hstep (by simp)
  | put =>
    simp only [ProducerState.step] at hstep
    split at hstep
    · rename_i data payload reply htask
      rw [Inv, htask] at h
      obtain ⟨hcore, hpacked, hencode⟩ := h
      split at hstep
      · rename_i queue hqueue
        rw [← Option.some.inj hstep]
        exact hcore.put hpacked hencode hok hqueue
      · exact absurd hstep (by simp)
    · exact absurd hstep (by simp)
  | putFails ulid stored =>
    simp only [ProducerState.step] at hstep
    split at hstep
    · rename_i data payload reply htask
      rw [Inv, htask] at h
      rw [← Option.some.inj hstep]
      have hcore : Core zstd cfg { s with
          store := if stored then update s.store (batchPath cfg ulid) (some payload)
            else s.store } data.notifiers none := by
        split
        · exact h.1.store payload hok
        · exact h.1
      exact hcore.finish nofun nofun
    · exact absurd hstep (by simp)
  | enqueued =>
    simp only [ProducerState.step] at hstep
    split at hstep
    · rename_i data op reply htask
      rw [Inv, htask] at h
      obtain ⟨f, hf, rfl, rfl, hcore⟩ := h
      split at hstep
      · rename_i call reply' hop
        rw [← Option.some.inj hstep, ← append_nil f.data.notifiers]
        refine hcore.finish (fun f' hf' => ?_) fun _ => rfl
        cases hf'
        exact ⟨hf, call, .ok reply', hop, by simp⟩
      · rename_i call e hop
        rw [← Option.some.inj hstep, ← append_nil f.data.notifiers]
        refine hcore.finish (fun f' hf' => ?_) nofun
        cases hf'
        exact ⟨hf, call, .error (.err e), hop, by simp [fail]⟩
      · rename_i call hop
        rw [← Option.some.inj hstep]
        refine hcore.stop fun f' hf' => ?_
        cases hf'
        exact ⟨call, .panic, hop⟩
      · exact absurd hstep (by simp)
    · exact absurd hstep (by simp)
  | queue =>
    simp only [ProducerState.step] at hstep
    split at hstep
    · rename_i queue hqueue
      rw [← Option.some.inj hstep]
      exact h.map rfl rfl fun held waits hcore => hcore.queue (move_of_step hqueue)
    · exact absurd hstep (by simp)

variable {es : List ProducerEvent}

theorem inv_run (hrun : Run (ProducerState.step zstd cfg) (producerAssumptions cfg) init es s) :
    Inv zstd cfg s :=
  hrun.invariant (inv_of_waiting rfl core_init) fun _ _ _ h hok hstep => h.step hok hstep

theorem Inv.core (h : Inv zstd cfg s) :
    ∃ held waits, Core zstd cfg s held waits ∧ (s.task = .stopped → waits = none) := by
  rw [Inv] at h
  split at h
  · exact ⟨_, _, h, fun _ => rfl⟩
  · exact ⟨_, _, h.1, fun _ => rfl⟩
  · rename_i htask
    obtain ⟨f, -, -, -, h⟩ := h
    refine ⟨_, _, h, fun hstopped => ?_⟩
    rw [htask] at hstopped
    exact absurd hstopped (by simp)
  · exact ⟨_, _, h, fun _ => rfl⟩

@[simp]
theorem queue_finish (s : ProducerState) (notifiers : List Produced) (result : Result Unit)
    (reply : Option Nat) : (s.finish notifiers result reply).queue = s.queue := rfl

@[simp]
theorem queue_writeBatch (s : ProducerState) (reply : Option Nat) :
    (s.writeBatch zstd cfg reply).queue = s.queue := by
  rw [writeBatch]
  split
  · rfl
  · split <;> rfl

@[simp]
theorem queue_handle (s : ProducerState) (message : ProduceMessage) :
    (s.handle zstd cfg message).queue = s.queue := by
  cases message with
  | flush => exact queue_writeBatch s _
  | add =>
    rw [handle]
    split
    · rfl
    · dsimp only
      split
      · exact queue_writeBatch _ _
      · rfl

theorem queue_send {sent} (hstep : s.send cfg message sent = some s') : s'.queue = s.queue := by
  rw [send] at hstep
  split at hstep
  · rw [← Option.some.inj hstep]
  · split at hstep
    · rw [← Option.some.inj hstep]
    · exact absurd hstep (by simp)

/-- What a step of the producer is for the queue. -/
def queueLabel (cfg : ProducerConfig) (s : ProducerState) : ProducerEvent → Option Label
  | .put ulid op =>
    match s.task with
    | .putting data _ _ => some (.start op (.enqueue (batchPath cfg ulid) data.metadata))
    | _ => none
  | .queue l => some l
  | _ => none

theorem queue_step {e} (hstep : s.step zstd cfg e = some s') :
    s'.queue = s.queue ∨ ∃ l ∈ s.queueLabel cfg e, s.queue.step l = some s'.queue := by
  cases e with
  | produce | flush => grind [ProducerState.step, queue_send]
  | close reply =>
    simp only [ProducerState.step] at hstep
    split at hstep
    · exact absurd hstep (by simp)
    · obtain ⟨s1, hs1, rfl⟩ := Option.map_eq_some_iff.mp hstep
      have hqueue : s1.queue = s.queue := queue_send hs1
      exact .inl hqueue
  | closed | drop | stop | put | queue => grind [ProducerState.step, queueLabel]
  | receive => grind [ProducerState.step, queue_handle]
  | timer => grind [ProducerState.step, queue_writeBatch]
  | putFails | enqueued => grind [ProducerState.step, queue_finish]

theorem counted_queue {ok : ProducerState → ProducerEvent → Prop}
    (hrun : Run (ProducerState.step zstd cfg) ok init es s) : Counted s.queue := by
  obtain ⟨ls, hls⟩ : ∃ ls, Run State.step anyStep State.init ls s.queue :=
    hrun.project ProducerState.queue fun s e s' _ hstep =>
      (queue_step hstep).imp_right fun ⟨l, _, hl⟩ => ⟨l, trivial, hl⟩
  exact counted_run hls

/-- What is taken for granted, and that every entry which is enqueued fits in its length field. -/
def producerFits (cfg : ProducerConfig) (s : ProducerState) (e : ProducerEvent) : Prop :=
  producerAssumptions cfg s e ∧ ∀ l ∈ s.queueLabel cfg e, enqueueFits s.queue l

instance : DecidablePred Call.BodyFits
  | .enqueue location metadata =>
    inferInstanceAs (Decidable (entryBodyLen location metadata ≤ u32Max))
  | .initializeConsumer _ | .peek _ | .read _ _ | .dequeue _ _ => .isTrue trivial

instance (s : State) : DecidablePred (enqueueFits s)
  | .start _ call => inferInstanceAs (Decidable call.BodyFits)
  | .read _ | .readFails _ _ | .check _ | .put _ | .putFails _ _ | .store _ => .isTrue trivial

instance (cfg : ProducerConfig) (s : ProducerState) (e : ProducerEvent) :
    Decidable (producerFits cfg s e) :=
  inferInstanceAs (Decidable (_ ∧ _))

theorem queue_run (hrun : Run (ProducerState.step zstd cfg) (producerFits cfg) init es s) :
    ∃ ls, Run State.step enqueueFits State.init ls s.queue :=
  hrun.project ProducerState.queue fun _ _ _ hok hstep =>
    (queue_step hstep).imp_right fun ⟨l, hl, hqueue⟩ => ⟨l, hok.2 l hl, hqueue⟩

/-! ### What a watcher says -/

section

variable (h : Written zstd cfg s.store s.queue f)
include h

theorem Written.contributions_ok {call reply} (hcounted : Counted s.queue)
    (hop : s.queue.ops f.op = some ⟨call, .returned (.ok reply)⟩) :
    ∃ e, s.queue.contributions.filter (fun p => p.1 == f.op) = [(f.op, e)] ∧
      e.location = f.path ∧ e.metadata = f.data.metadata := by
  obtain ⟨pc, hop'⟩ := h.called
  obtain rfl : Call.enqueue f.path f.data.metadata = call :=
    (Op.mk.inj (Option.mem_unique hop' hop)).1
  refine filter_contributions (fun call hmem => ?_) ?_
  · obtain ⟨pc, hown⟩ := hcounted.own f.op call hmem
    exact (Op.mk.inj (Option.mem_unique hown hop)).1
  · rw [hcounted.count f.op, hop]
    rfl

theorem Written.decode (hzstd : zstd.RoundTrip) :
    ∃ payload, s.store f.path = some payload ∧ decodeBatch zstd payload = .ok f.data.entries := by
  obtain ⟨payload, hstored, hencode⟩ := h.stored
  exact ⟨payload, hstored, decodeBatch_encodeBatch hzstd h.packed.count h.packed.bytes hencode⟩

theorem Written.delivers {e} (hzstd : zstd.RoundTrip) (hlocation : e.location = f.path)
    (hmetadata : e.metadata = f.data.metadata) (hcall : call ∈ f.data.notifiers) :
    Delivers zstd s.store e call := by
  obtain ⟨payload, hstored, hdecode⟩ := h.decode hzstd
  obtain ⟨before, after, hentries, hlookup⟩ := h.packed.lookup hcall
  refine ⟨payload, before, after, ?_, ?_, fun i hi => ⟨UInt32.ofNat before.length, ?_⟩⟩
  · rw [hlocation, hstored]
  · rw [hdecode, hentries]
  · rw [hmetadata, hlookup i hi]

end

theorem Core.flushes_filter (h : Core zstd cfg s held waits) (hf : f ∈ s.flushes)
    (hcall : call ∈ f.data.notifiers) :
    s.flushes.filter (fun f => call ∈ f.data.notifiers) = [f] := by
  refine filter_eq_singleton_of_nodup_flatMap ?_ hf hcall
  exact (nodup_append.mp (nodup_append.mp h.nodup).1).1

/-- A call that was told an error, or that nobody will tell anything, is in no batch that the queue
accepted. -/
theorem Core.returned_error (h : Core zstd cfg s held waits)
    (hstopped : s.task = .stopped → waits = none) {e} (hf : f ∈ s.flushes)
    (hcall : call ∈ f.data.notifiers) (hvalue : s.awaitDurable call.id = some (.error e)) :
    ∃ call' e', s.queue.ops f.op = some ⟨call', .returned (.error e')⟩ := by
  have hsettled : s.Settled f := by
    refine (h.settled f hf).resolve_left fun hwaits => ?_
    have hnone : s.values call.id = none := by
      refine h.unresolved call (mem_append_left _ (mem_append_left _ ?_))
      rw [hwaits]
      exact hcall
    rw [awaitDurable, hnone] at hvalue
    cases htask : s.task with
    | stopped => exact absurd ((hstopped htask).symm.trans hwaits) (by simp)
    | waiting | putting | enqueueing => simp [htask] at hvalue
  obtain ⟨call', result, hop, hvalues⟩ := hsettled
  cases result with
  | error e' => exact ⟨call', e', hop⟩
  | ok reply =>
    rw [awaitDurable, hvalues reply rfl call hcall] at hvalue
    exact absurd hvalue (by simp)

theorem values_of_awaitDurable {id} (h : s.awaitDurable id = some (.ok ())) :
    s.values id = some (.ok ()) := by
  rw [awaitDurable] at h
  split at h
  · rename_i result hvalue
    rw [hvalue, h]
  · exact absurd h (by simp [fail])
  · exact absurd h (by simp)

end ProducerState

/-- In every run of a producer whose batches have fewer than `2 ^ 32` entries and bytes of entries,
whose batch files get new names and whose entries fit in the queue: the stored manifest decodes to
the entries that were added, but for those that consumers took from its front, and a step adds or
takes no others. A call whose watcher says `Ok` is in one batch, that batch added one entry, and a
consumer of this entry gets the entries of the call with the metadata of the call. A call whose
watcher says `Err` is in no batch that added an entry, and a batch file has no entries but those of
its calls. -/
theorem produced_durable {zstd : Zstd} {cfg : ProducerConfig} {es : List ProducerEvent}
    {s : ProducerState} (hzstd : zstd.RoundTrip)
    (hrun : Run (ProducerState.step zstd cfg) (ProducerState.producerFits cfg) .init es s) :
    (∃ entries, s.queue.entries = .ok entries ∧ entries <:+ s.queue.contributions.map Prod.snd) ∧
    (∀ l queue, enqueueFits s.queue l → s.queue.step l = some queue → QueueStep s.queue l queue) ∧
    (∀ call ∈ s.sent, s.awaitDurable call.id = some (.ok ()) →
      ∃ f e, s.flushes.filter (fun f => call ∈ f.data.notifiers) = [f] ∧
        s.queue.contributions.filter (fun p => p.1 == f.op) = [(f.op, e)] ∧
        e.location = f.path ∧ Delivers zstd s.store e call) ∧
    (∀ call ∈ s.sent, ∀ e, s.awaitDurable call.id = some (.error e) →
      ∀ f ∈ s.flushes, call ∈ f.data.notifiers →
        s.queue.contributions.filter (fun p => p.1 == f.op) = []) ∧
    ∀ f ∈ s.flushes, ∃ payload, s.store f.path = some payload ∧
      decodeBatch zstd payload = .ok (f.data.notifiers.flatMap Produced.entries) := by
  obtain ⟨ls, hqueue⟩ := ProducerState.queue_run hrun
  have hlinearized := linearized_run hqueue
  obtain ⟨held, waits, hcore, hstopped⟩ :=
    (ProducerState.inv_run (hrun.mono fun _ _ hok => hok.1)).core
  have hcounted := ProducerState.counted_queue hrun
  refine ⟨⟨_, hlinearized.entries, after_entries _⟩, fun l queue hok hstep => ?_,
    fun call hcall hvalue => ?_, fun call hcall e hvalue f hf hmem => ?_, fun f hf => ?_⟩
  · exact hlinearized.queueStep (linearized_run (hqueue.snoc hok hstep))
      (allTraced_run hqueue) hstep
  · obtain ⟨f, hf, c, hc, hid, call', reply, hop⟩ :=
      hcore.resolved call.id (ProducerState.values_of_awaitDurable hvalue)
    obtain rfl : c = call := by
      refine hcore.eq_of_id_eq (hcore.order.subset ?_) hcall hid
      refine mem_append_left _ (mem_append_left _ ?_)
      exact mem_flatMap.mpr ⟨f, hf, hc⟩
    have hwritten := hcore.written f hf
    obtain ⟨e, he, hlocation, hmetadata⟩ := hwritten.contributions_ok hcounted hop
    exact ⟨f, e, hcore.flushes_filter hf hc, he, hlocation,
      hwritten.delivers hzstd hlocation hmetadata hc⟩
  · obtain ⟨call', e', hop⟩ := hcore.returned_error hstopped hf hmem hvalue
    refine filter_contributions_nil ?_
    rw [hcounted.count f.op, hop, commitCount_error]
  · have hwritten := hcore.written f hf
    obtain ⟨payload, hstored, hdecode⟩ := hwritten.decode hzstd
    exact ⟨payload, hstored, by rw [hdecode, hwritten.packed.entries]⟩

def twoFlushes : List ProducerEvent :=
  [.produce [[1], [2]] [7] 10, .produce [[3]] [8] 11, .receive, .receive, .flush 0, .receive,
    .put "a" 0, .queue (.read 0), .queue (.put 0), .enqueued, .produce [[4]] [9] 12, .receive,
    .timer, .putFails "b" true "timeout"]

def plainZstd : Zstd := { compress := .ok, decompress := .ok }

theorem plainZstd_roundTrip : plainZstd.RoundTrip := by
  intro data compressed h
  exact congrArg Except.ok (Except.ok.inj h).symm

def smallBatches : ProducerConfig :=
  { dataPathPrefix := "p", flushSizeBytes := 100, maxBufferedInputs := 4,
    batchCompression := .zstd }

theorem produced_durable_twoFlushes : ∃ s,
      Run (ProducerState.step plainZstd smallBatches)
        (ProducerState.producerFits smallBatches) .init
        twoFlushes s ∧
      (s.sent.map fun call => s.awaitDurable call.id) =
        [some (.ok ()), some (.ok ()), some (fail (.storage "timeout"))] ∧
      ∀ call ∈ s.sent, s.awaitDurable call.id = some (.ok ()) →
        ∃ e, e ∈ s.queue.contributions ∧ Delivers plainZstd s.store e.2 call := by
  obtain ⟨s, hrun, hvalues⟩ : ∃ s, Run (ProducerState.step plainZstd smallBatches)
      (ProducerState.producerFits smallBatches) .init twoFlushes s ∧
      (s.sent.map fun call => s.awaitDurable call.id) =
        [some (.ok ()), some (.ok ()), some (fail (.storage "timeout"))] :=
    Run.exists_of_check (by decide +kernel)
  refine ⟨s, hrun, hvalues, fun call hcall hok => ?_⟩
  obtain ⟨f, e, -, hfilter, -, hdelivers⟩ :=
    (produced_durable plainZstd_roundTrip hrun).2.2.1 call hcall hok
  refine ⟨(f.op, e), ?_, hdelivers⟩
  exact (mem_filter.mp (hfilter ▸ mem_singleton.mpr rfl)).1

/-! ### Metadata that do not fit -/

theorem run_oversizedMetadata {metadata : Bytes} (hlen : metadata.length = 2 ^ 32 - 39) : ∃ s,
    Run (ProducerState.step plainZstd smallBatches) (producerAssumptions smallBatches) .init
      [.produce [[1]] metadata 0, .receive, .put "a" 0, .queue (.read 0), .queue (.put 0),
        .enqueued] s ∧
      (s.sent.map fun call => s.awaitDurable call.id) = [some (.ok ())] ∧
      ∃ err, s.queue.entries = .error (.err err) := by
  let call : Produced := ⟨0, [[1]], metadata, 0⟩
  let data : DataAndNotifiers := ⟨[[1]], [⟨0, 0, metadata⟩], [call]⟩
  have hpayload : ∀ m ∈ data.metadata, m.payload.length ≤ u32Max := by
    intro m hm
    rw [mem_singleton.mp hm, hlen]
    decide
  have hlaid : Laid State.init.object [] 0 0 0 := ⟨rfl, rfl, rfl, rfl⟩
  obtain ⟨q1, q2, q3, hstart, hread, -, hput, hops, -, hobject⟩ :=
    enqueue_steps (s := State.init) (show State.init.ops 0 = none from rfl) hlaid (by decide)
      (show QueueEntry.new "p/a.batch" data.metadata = .ok ⟨0, "p/a.batch", data.metadata⟩ from rfl)
      hpayload
  have hpath : (asBytes "p/a.batch").length = 9 := by decide +kernel
  have hlow : entryBodyLen "p/a.batch" data.metadata % 2 ^ 32
      < sequenceSize + locationLenSize + (asBytes "p/a.batch").length + metadataCountSize := by
    simp only [entryBodyLen, metadataSize, metadataItemSize, data, map_cons, map_nil, sum_cons,
      sum_nil, hlen, hpath, sequenceSize, locationLenSize, metadataCountSize, startIndexSize,
      ingestionTimeMsSize, metadataLenSize]
    decide
  -- The message is sent, the batch is full and goes to the store, and the queue takes the entry.
  obtain ⟨payload, hencode⟩ : ∃ payload, encodeBatch plainZstd [[1]] .zstd = .ok payload := ⟨_, rfl⟩
  let s1 : ProducerState := { ProducerState.init with channel := [.add call], sent := [call] }
  let s2 : ProducerState := { s1 with channel := [], task := .putting data payload none }
  let s3 (queue : State) : ProducerState :=
    { s2 with
      queue
      store := Function.update s2.store "p/a.batch" (some payload)
      task := .enqueueing data 0 none
      flushes := [⟨"p/a.batch", data, 0⟩] }
  have hstep1 : ProducerState.init.step plainZstd smallBatches (.produce [[1]] metadata 0) =
      some s1 := by
    have hcheck : ProducerState.checkProduce [[1]] metadata = .ok () := by
      rw [ProducerState.checkProduce, hlen]
      rfl
    simp only [ProducerState.step, hcheck]
    rfl
  have hstep2 : s1.step plainZstd smallBatches .receive = some s2 := by
    have hadd : Batch.new.add call = (.ok (), ⟨data, 1 + metadata.length⟩) := by
      simp [Batch.add, Batch.new, DataAndNotifiers.add, DataAndNotifiers.empty, call, data, u32Max]
    have hfull : 1 + metadata.length ≥ smallBatches.flushSizeBytes := by
      rw [hlen]
      decide
    simp only [ProducerState.step, s1, ProducerState.init, ProducerState.handle, hadd, if_pos hfull,
      ProducerState.writeBatch]
    rw [if_neg (by simp [data, DataAndNotifiers.isEmpty]),
      show encodeBatch plainZstd data.entries smallBatches.batchCompression = .ok payload
        from hencode]
    rfl
  have hstep3 : s2.step plainZstd smallBatches (.put "a" 0) = some (s3 q1) := by
    have hqueue : s2.queue.step (.start 0 (.enqueue (batchPath smallBatches "a") data.metadata)) =
      some q1 := hstart
    simp only [ProducerState.step, s2, hqueue]
    rfl
  have hstep4 : (s3 q1).step plainZstd smallBatches (.queue (.read 0)) = some (s3 q2) := by
    simp only [ProducerState.step, s3, hread]
  have hstep5 : (s3 q2).step plainZstd smallBatches (.queue (.put 0)) = some (s3 q3) := by
    simp only [ProducerState.step, s3, hput]
  have hstep6 : (s3 q3).step plainZstd smallBatches .enqueued =
      some ((s3 q3).finish [call] (.ok ()) none) := by
    simp only [ProducerState.step, s3, hops, Function.update_self]
    rfl
  have hreceive : producerAssumptions smallBatches s1 .receive := by
    intro call' channel hchannel
    cases hchannel
    exact fun _ => show [[(1 : UInt8)]].length < 2 ^ 32 ∧ ([[(1 : UInt8)]].map length).sum < 2 ^ 32
      by decide
  have hnew : producerAssumptions smallBatches s2 (.put "a" 0) := rfl
  have hrun := ((Run.nil.snoc trivial hstep1).snoc hreceive hstep2).snoc hnew hstep3
  refine ⟨_, ((hrun.snoc ?_ hstep4).snoc ?_ hstep5).snoc ?_ hstep6, rfl, ?_⟩
  · trivial
  · trivial
  · trivial
  · exact entries_truncated (show (asBytes "p/a.batch").length ≤ u16Max by rw [hpath]; decide) hlow
      hobject

/-- Metadata with which the body of the entry has exactly `2 ^ 32` bytes: the watcher says `Ok`, and
no reader of the manifest gets an entry. -/
theorem oversized_metadata_undecodable : ∃ s,
    Run (ProducerState.step plainZstd smallBatches) (producerAssumptions smallBatches) .init
      [.produce [[1]] (replicate (2 ^ 32 - 39) 0) 0, .receive, .put "a" 0, .queue (.read 0),
        .queue (.put 0), .enqueued] s ∧
      (s.sent.map fun call => s.awaitDurable call.id) = [some (.ok ())] ∧
      ∃ err, s.queue.entries = .error (.err err) := by
  have hlen : (replicate (2 ^ 32 - 39) (0 : UInt8)).length = 2 ^ 32 - 39 := length_replicate
  generalize replicate (2 ^ 32 - 39) (0 : UInt8) = metadata at hlen ⊢
  exact run_oversizedMetadata hlen

end OpenData.Buffer

import OpenData.Buffer.Spec
import OpenData.Proofs.Buffer.Codec

/-!
# The byte edits refine the queue operations

`Represents m q` relates a manifest in memory to the queue it stands for, and `Stored b q` the
bytes of a manifest object to that queue. Each operation of `Manifest` has one lemma here that
carries the relation to the queue operation of the same name.
-/

namespace OpenData.Buffer

open Lib List Manifest

/-! ### The footer -/

def Footed (b : Bytes) (nextSequence epoch : UInt64) : Prop :=
  ∃ body count, b = body ++ footer count nextSequence epoch

variable (body : Bytes) (count : Nat) (n e : UInt64)

theorem footer_count :
    ((body ++ footer count n e).drop ((body ++ footer count n e).length - footerSize)).take
      entriesCountSize = toLe entriesCountSize count := by
  have hlen : (body ++ footer count n e).length - footerSize = body.length := by simp
  rw [hlen, drop_left, footer, append_assoc, append_assoc]
  exact take_left' (by simp)

theorem footer_nextSequence : ((body ++ footer count n e).drop
      ((body ++ footer count n e).length - versionSize - epochSize - sequenceSize)).take
        sequenceSize = toLe sequenceSize n.toNat := by
  have hlen : (body ++ footer count n e).length - versionSize - epochSize - sequenceSize
      = (body ++ toLe entriesCountSize count).length := by
    simp only [length_append, length_footer, footerSize, length_toLe]
    omega
  have hsplit : body ++ footer count n e
      = (body ++ toLe entriesCountSize count) ++ (toLe sequenceSize n.toNat
        ++ (toLe epochSize e.toNat ++ toLe versionSize manifestVersion)) := by
    simp only [footer, append_assoc]
  rw [hlen, hsplit, drop_left]
  exact take_left' (by simp)

theorem footer_epoch_split : ∃ left, body ++ footer count n e
        = left ++ toLe epochSize e.toNat ++ toLe versionSize manifestVersion
      ∧ (body ++ footer count n e).length - versionSize - epochSize = left.length
      ∧ ∀ e' : UInt64, left ++ toLe epochSize e'.toNat ++ toLe versionSize manifestVersion
          = body ++ footer count n e' := by
  refine ⟨body ++ toLe entriesCountSize count ++ toLe sequenceSize n.toNat, ?_, ?_, ?_⟩
  · simp only [footer, append_assoc]
  · simp only [length_append, length_footer, footerSize, length_toLe]
    omega
  · intro e'
    simp only [footer, append_assoc]

theorem fromBytes_footer : ∃ m, fromBytes (body ++ footer count n e) = .ok m
      ∧ m.data = body ++ footer count n e ∧ m.appended = [] ∧ m.appendedCount = 0
      ∧ m.nextSequence = n ∧ m.epoch = e := by
  have hne : body ++ footer count n e ≠ [] := by
    intro h
    have hlen := congrArg List.length h
    simp [footerSize, entriesCountSize] at hlen
  have hlong : ¬ (body ++ footer count n e).length < footerSize := by simp
  obtain ⟨left, hsplit, hleft, -⟩ := footer_epoch_split body count n e
  have hver : ofLe ((body ++ footer count n e).drop
      ((body ++ footer count n e).length - versionSize)) = manifestVersion := by
    have hpos : (body ++ footer count n e).length - versionSize
        = (left ++ toLe epochSize e.toNat).length := by
      rw [hsplit]
      simp only [length_append, length_toLe]
      omega
    rw [hpos, hsplit, drop_left]
    exact ofLe_toLe_of_lt (by decide)
  have hepoch : ((body ++ footer count n e).drop
      ((body ++ footer count n e).length - versionSize - epochSize)).take epochSize
        = toLe epochSize e.toNat := by
    rw [hleft, hsplit, append_assoc, drop_left]
    exact take_left' (by simp)
  have hnext := footer_nextSequence body count n e
  refine ⟨⟨body ++ footer count n e, [], 0, n, e, Nat.le_of_not_lt hlong⟩, ?_, rfl, rfl, rfl, rfl,
    rfl⟩
  rw [fromBytes, if_neg hne, dif_neg hlong]
  simp only [hver, hepoch, hnext]
  rw [if_neg (by simp), sequenceSize, epochSize, ofLe_toLe_uint64, ofLe_toLe_uint64]

section
variable {m : Manifest} {body : Bytes} {count : Nat} {n e : UInt64}

theorem data_ne_nil (m : Manifest) : m.data ≠ [] := by
  intro h
  have hle := m.footer_le
  simp [h, footerSize, entriesCountSize] at hle

section

variable (h : m.data = body ++ footer count n e)
include h

theorem entriesEnd_eq : m.entriesEnd = body.length := by
  rw [entriesEnd, if_neg (data_ne_nil m), h]
  simp

theorem existingEntriesCount_eq (hcount : count < 2 ^ 32) : m.existingEntriesCount = count := by
  rw [existingEntriesCount, if_neg (data_ne_nil m), h, footer_count]
  exact ofLe_toLe_of_lt (by simpa [entriesCountSize] using hcount)

theorem setEpoch_data (e' : UInt64) : (m.setEpoch e').data = body ++ footer count n e' := by
  obtain ⟨left, hsplit, hleft, hnew⟩ := footer_epoch_split body count n e
  show patch m.data (m.data.length - versionSize - epochSize) (toLe epochSize e'.toNat) = _
  rw [h, hleft, hsplit, patch_append _ _ _ _ (by simp), hnew]

end

variable {b : Bytes}

theorem toBytes_cases (hb : m.toBytes = .ok b) : (m.appended = [] ∧ b = m.data) ∨
    (m.appended ≠ [] ∧ m.existingEntriesCount + m.appendedCount % 2 ^ 32 ≤ u32Max ∧
      b = m.data.take m.entriesEnd ++ m.appended
        ++ footer (m.existingEntriesCount + m.appendedCount % 2 ^ 32) m.nextSequence m.epoch) := by
  rw [toBytes] at hb
  by_cases happ : m.appended = []
  · rw [if_pos happ] at hb
    exact Or.inl ⟨happ, (Except.ok.inj hb).symm⟩
  · rw [if_neg happ] at hb
    simp only at hb
    split at hb
    · simp [fail] at hb
    · exact Or.inr ⟨happ, by omega, (Except.ok.inj hb).symm⟩

/-- The footer of `data` holds the epoch of the manifest, and its sequence number unless
something was appended since. -/
def Manifest.Footed (m : Manifest) : Prop :=
  ∃ body count n, m.data = body ++ footer count n m.epoch ∧
    (m.appended = [] → n = m.nextSequence)

theorem footed_of_toBytes (h : m.Footed) (hb : m.toBytes = .ok b) :
    OpenData.Buffer.Footed b m.nextSequence m.epoch := by
  obtain ⟨body, count, n, hdata, hn⟩ := h
  rcases toBytes_cases hb with ⟨happ, rfl⟩ | ⟨-, -, rfl⟩
  · rw [hn happ] at hdata
    exact ⟨body, count, hdata⟩
  · exact ⟨_, _, rfl⟩

theorem footed_empty : empty.Footed := ⟨[], 0, 0, rfl, fun _ => rfl⟩

theorem footed_fromBytes (h : OpenData.Buffer.Footed b n e) :
    ∃ m, fromBytes b = .ok m ∧ m.Footed ∧ m.nextSequence = n ∧ m.epoch = e := by
  obtain ⟨body, count, rfl⟩ := h
  obtain ⟨m, hm, hdata, -, -, rfl, rfl⟩ := fromBytes_footer body count n e
  exact ⟨m, hm, ⟨body, count, _, hdata, fun _ => rfl⟩, rfl, rfl⟩

theorem footed_append {m' entry} (h : m.Footed)
    (hm : m.append entry = .ok m') : m'.Footed ∧ m'.epoch = m.epoch := by
  rw [append] at hm
  cases henc : encodeEntry (entry.cloneWithSequence m.nextSequence) with
  | error => simp [henc, bind, Except.bind] at hm
  | ok bytes =>
    obtain ⟨body, count, n, hdata, -⟩ := h
    simp only [henc, bind, Except.bind, Except.ok.injEq] at hm
    subst hm
    refine ⟨⟨body, count, n, hdata, ?_⟩, rfl⟩
    intro hnil
    have hbytes : bytes = [] := (append_eq_nil_iff.mp hnil).2
    exact absurd (encodeEntry_ok henc ▸ hbytes) (entryBytes_ne_nil _)

theorem footed_dequeue {m' throughSequence removed}
    (hm : m.dequeue throughSequence = .ok (removed, m')) : m'.Footed ∧ m'.epoch = m.epoch := by
  simp only [dequeue, bind, Except.bind] at hm
  split at hm
  · cases hm
  · split at hm
    · cases hm
    · split at hm
      · cases hm
      · split at hm
        · cases hm
        · obtain ⟨-, rfl⟩ := Prod.mk.inj (Except.ok.inj hm)
          exact ⟨⟨_, _, _, rfl, fun _ => rfl⟩, rfl⟩

theorem footed_setEpoch (h : m.Footed) (e' : UInt64) : (m.setEpoch e').Footed := by
  obtain ⟨body, count, n, hdata, hn⟩ := h
  exact ⟨body, count, n, setEpoch_data hdata e', hn⟩

end

/-! ### The represented queue -/

/-- The bytes are the encoding of the queue. -/
structure Stored (b : Bytes) (q : Queue) : Prop where
  bytes : b = encodeEntries q.entries ++ footer q.entries.length q.nextSequence q.epoch
  fit : AllFit q.entries
  count : q.entries.length < 2 ^ 32

/-- The manifest `m` in memory stands for the queue `q`: `data` holds the entries `base` and
`appended` the entries `added` behind them. -/
structure Represents (m : Manifest) (q : Queue) (base added : List QueueEntry) : Prop where
  entries : q.entries = base ++ added
  data : ∃ n, m.data = encodeEntries base ++ footer base.length n m.epoch ∧
    (added = [] → n = m.nextSequence)
  appended : m.appended = encodeEntries added
  appendedCount : m.appendedCount = added.length
  nextSequence : m.nextSequence = q.nextSequence
  epoch : m.epoch = q.epoch
  fit : AllFit q.entries
  count : base.length < 2 ^ 32

section
variable {m : Manifest} {q : Queue} {base added : List QueueEntry} {b : Bytes}

theorem represents_empty : Represents empty Queue.empty [] [] where
  entries := rfl
  data := ⟨0, rfl, fun _ => rfl⟩
  appended := rfl
  appendedCount := rfl
  nextSequence := rfl
  epoch := rfl
  fit := by intro e he; cases he
  count := by simp

theorem represents_fromBytes (h : Stored b q) :
    ∃ m, fromBytes b = .ok m ∧ Represents m q q.entries [] := by
  obtain ⟨m, hm, hdata, happ, hcount, hnext, hepoch⟩ :=
    fromBytes_footer (encodeEntries q.entries) q.entries.length q.nextSequence q.epoch
  refine ⟨m, ?_, ?_⟩
  · rw [h.bytes, hm]
  · exact {
      entries := (append_nil _).symm
      data := ⟨q.nextSequence, by rw [hdata, hepoch], fun _ => hnext.symm⟩
      appended := happ
      appendedCount := hcount
      nextSequence := hnext
      epoch := hepoch
      fit := h.fit
      count := h.count }

theorem encodeEntries_eq_nil {es} : encodeEntries es = [] ↔ es = [] := by
  constructor
  · intro h
    have hle := length_le_encodeEntries es
    rw [h] at hle
    exact length_eq_zero_iff.mp (Nat.le_zero.mp hle)
  · rintro rfl
    rfl

namespace Represents

section

variable (h : Represents m q base added)
include h

theorem entriesEnd_eq : m.entriesEnd = (encodeEntries base).length := by
  obtain ⟨n, hdata, -⟩ := h.data
  exact OpenData.Buffer.entriesEnd_eq hdata

theorem existingEntriesCount_eq : m.existingEntriesCount = base.length := by
  obtain ⟨n, hdata, -⟩ := h.data
  exact OpenData.Buffer.existingEntriesCount_eq hdata h.count

theorem append (entry : QueueEntry)
    (hfit : Fits entry.location entry.metadata) : ∃ m' e, m.append entry = .ok m' ∧
      Represents m' (q.append entry.location entry.metadata) base (added ++ [e]) := by
  have henc := encodeEntry_eq (entry.cloneWithSequence m.nextSequence) hfit.payload_le
  obtain ⟨n, hdata, -⟩ := h.data
  refine ⟨{ m with
      appended := m.appended ++ entryBytes (entry.cloneWithSequence m.nextSequence)
      nextSequence := m.nextSequence + 1
      appendedCount := m.appendedCount + 1 },
    entry.cloneWithSequence m.nextSequence, ?_, ?_⟩
  · rw [Manifest.append, henc]
    rfl
  · exact {
      entries := by
        simp only [Queue.append, h.entries, ← h.nextSequence, append_assoc]
        rfl
      data := ⟨n, hdata, by simp⟩
      appended := by
        show m.appended ++ _ = _
        rw [h.appended, encodeEntries_append]
        simp [encodeEntries]
      appendedCount := by
        show m.appendedCount + 1 = _
        rw [h.appendedCount]
        simp
      nextSequence := by
        show m.nextSequence + 1 = q.nextSequence + 1
        rw [h.nextSequence]
      epoch := h.epoch
      fit := by
        refine AllFit.append h.fit ?_
        intro e he
        rw [mem_singleton] at he
        subst he
        exact hfit
      count := h.count }

theorem setEpoch (e' : UInt64) : Represents (m.setEpoch e') (q.setEpoch e') base added := by
  obtain ⟨n, hdata, hn⟩ := h.data
  exact {
    __ := h
    data := ⟨n, setEpoch_data hdata e', hn⟩
    epoch := rfl
    count := h.count }

/-- `dequeue` on the bytes cuts the two buffers one by one: it returns the leading entries of
each and copies the bytes of the others into one entry area. -/
theorem dequeue_split (hcount : base.length + added.length < 2 ^ 32) (throughSequence : UInt64) :
    ∃ m', m.dequeue throughSequence = .ok (base.takeWhile (·.sequence ≤ throughSequence)
            ++ added.takeWhile (·.sequence ≤ throughSequence), m') ∧
      Represents m'
        { q with entries := base.dropWhile (·.sequence ≤ throughSequence)
                  ++ added.dropWhile (·.sequence ≤ throughSequence) }
        (base.dropWhile (·.sequence ≤ throughSequence)
          ++ added.dropWhile (·.sequence ≤ throughSequence)) [] := by
  obtain ⟨n, hdata, -⟩ := h.data
  have hfit := h.fit
  rw [h.entries] at hfit
  have hfitBase : AllFit base := fun e he => hfit e (by simp [he])
  have hfitAdded : AllFit added := fun e he => hfit e (by simp [he])
  obtain ⟨start, hsplit, hslice⟩ := splitEntries_encodeEntries throughSequence base
    hfitBase h.count _ hdata h.entriesEnd_eq.symm
  have happended : m.appended = encodeEntries added ++ [] := by rw [h.appended, append_nil]
  obtain ⟨start', hsplit', hslice'⟩ := splitEntries_encodeEntries throughSequence added
    hfitAdded (by omega) [] happended (congrArg List.length h.appended.symm)
  have hsuffix : base.dropWhile (·.sequence ≤ throughSequence) <:+ base := dropWhile_suffix _
  have hsuffix' : added.dropWhile (·.sequence ≤ throughSequence) <:+ added := dropWhile_suffix _
  refine ⟨{
      data := encodeEntries (base.dropWhile (·.sequence ≤ throughSequence))
        ++ encodeEntries (added.dropWhile (·.sequence ≤ throughSequence))
        ++ footer ((base.dropWhile (·.sequence ≤ throughSequence)).length
          + (added.dropWhile (·.sequence ≤ throughSequence)).length) m.nextSequence m.epoch
      appended := []
      appendedCount := 0
      nextSequence := m.nextSequence
      epoch := m.epoch
      footer_le := by simp only [length_append, length_footer]; omega }, ?_, ?_⟩
  · rw [dequeue, h.existingEntriesCount_eq, hsplit, h.appendedCount]
    simp only [bind, Except.bind, hsplit', hslice, hslice']
  · exact {
      entries := (append_nil _).symm
      data := ⟨m.nextSequence, by simp only [encodeEntries_append, length_append], fun _ => rfl⟩
      appended := rfl
      appendedCount := rfl
      __ := h
      fit := AllFit.append (fun e he => hfitBase e (hsuffix.subset he))
        (fun e he => hfitAdded e (hsuffix'.subset he))
      count := by
        rw [length_append]
        exact Nat.lt_of_le_of_lt (Nat.add_le_add hsuffix.length_le hsuffix'.length_le) hcount }

end

/-- `dequeue` on the bytes of a manifest with nothing appended is `dequeue` on the queue: it
returns the leading entries and copies the bytes of the others. -/
theorem dequeue (h : Represents m q base []) (throughSequence : UInt64) :
    ∃ m', m.dequeue throughSequence = .ok (q.removed throughSequence, m') ∧
      Represents m' (q.dequeue throughSequence) (q.dequeue throughSequence).entries [] := by
  have hentries : q.entries = base := by rw [h.entries, append_nil]
  subst hentries
  obtain ⟨m', hm, hrep⟩ := h.dequeue_split (by simpa using h.count) throughSequence
  rw [takeWhile_nil, append_nil] at hm
  rw [dropWhile_nil, append_nil] at hrep
  exact ⟨m', hm, hrep⟩

/-- What `to_bytes` writes holds the queue. An entry count that does not fit in its field is an
error, so it is never written. -/
theorem stored_of_toBytes (h : Represents m q base added) (hadded : added.length < 2 ^ 32)
    (hb : m.toBytes = .ok b) : Stored b q := by
  obtain ⟨n, hdata, hn⟩ := h.data
  have hmod : m.appendedCount % 2 ^ 32 = added.length := by
    rw [h.appendedCount, Nat.mod_eq_of_lt hadded]
  rcases toBytes_cases hb with ⟨happ, rfl⟩ | ⟨-, hcount, rfl⟩
  · -- Nothing was appended: the object is `data` itself.
    have hnil : added = [] := encodeEntries_eq_nil.mp (h.appended ▸ happ)
    subst hnil
    have hbase : q.entries = base := by rw [h.entries, append_nil]
    subst hbase
    refine ⟨?_, h.fit, h.count⟩
    rw [hdata, hn rfl, h.nextSequence, h.epoch]
  · rw [h.existingEntriesCount_eq, hmod] at hcount ⊢
    have hlen : q.entries.length = base.length + added.length := by
      rw [h.entries, length_append]
    refine ⟨?_, h.fit, by rw [hlen]; rw [u32Max] at hcount; omega⟩
    rw [h.entriesEnd_eq, hdata, take_left, h.appended, hlen, h.entries,
      encodeEntries_append, h.nextSequence, h.epoch]

end Represents

end

/-! ### The iterator -/

namespace ManifestIter

theorem take_succ_of_decode {it : ManifestIter} {item : Result QueueEntry} {off n fuel : Nat}
    (hrem : it.remaining = n + 1)
    (hdec : runAt (decodeEntry it.data it.entriesEnd) it.offset = (item, off)) :
    it.take (fuel + 1) = item :: take fuel { it with remaining := n, offset := off } := by
  have hpos : 0 < it.remaining := by omega
  have hpred : it.remaining - 1 = n := by omega
  rw [take, next, if_pos hpos, hdec]
  simp only [hpred]

/-- An iterator in front of encoded entries gives these entries, first the base, then the
appended ones. Induction on the base, then on the appended entries. -/
theorem take_encodeEntries (base added : List QueueEntry) (hbase : AllFit base)
    (hadded : AllFit added) (it : ManifestIter) (rest : Bytes) (fuel : Nat)
    (hoff : it.offset ≤ it.data.length)
    (hdrop : it.data.drop it.offset = encodeEntries base ++ rest)
    (hend : it.offset + (encodeEntries base).length = it.entriesEnd)
    (happoff : it.appendedOffset ≤ it.appended.length)
    (happ : it.appended.drop it.appendedOffset = encodeEntries added)
    (hrem : it.remaining = base.length) (happrem : it.appendedRemaining = added.length)
    (hfuel : base.length + added.length ≤ fuel) : it.take (fuel + 1) = (base ++ added).map .ok := by
  induction base generalizing it fuel with
  | cons e es ih =>
    rw [encodeEntries, append_assoc] at hdrop
    rw [encodeEntries, length_append] at hend
    have hdec := parses_decodeEntry e (hbase e (by simp)) it.offset _ hoff hdrop
      (show _ ≤ it.entriesEnd by omega)
    rw [length_cons] at hfuel hrem
    cases fuel with
    | zero => omega
    | succ fuel =>
      rw [take_succ_of_decode hrem hdec, cons_append, map_cons]
      refine congrArg _ (ih hbase.tail _ fuel (add_length_le_of_drop hoff hdrop)
        (drop_add_length hdrop) ?_ happoff happ rfl happrem (by omega))
      show it.offset + _ + _ = it.entriesEnd
      omega
  | nil =>
    have hzero : ¬ 0 < it.remaining := by rw [hrem]; simp
    have hdone : it.offset = it.entriesEnd := by simpa [encodeEntries] using hend
    clear hdrop hend hrem hoff
    induction added generalizing it fuel with
    | nil =>
      have happzero : ¬ 0 < it.appendedRemaining := by rw [happrem]; simp
      rw [take, next, if_neg hzero, if_neg happzero, if_neg (by simp [hdone])]
      rfl
    | cons e es ih =>
      rw [encodeEntries] at happ
      have hlen := add_length_le_of_drop happoff happ
      have hall : it.appendedOffset + (entryBytes e ++ encodeEntries es).length
          = it.appended.length := by
        have hl := congrArg List.length happ
        rw [length_drop] at hl
        omega
      rw [length_append] at hall
      have hdec := parses_decodeEntry e (hadded e (by simp)) it.appendedOffset _ happoff happ
        (show _ ≤ it.appended.length by omega)
      have happpos : 0 < it.appendedRemaining := by rw [happrem]; simp
      rw [length_cons] at hfuel happrem
      cases fuel with
      | zero => omega
      | succ fuel =>
        rw [take, next, if_neg hzero, if_pos happpos, hdec]
        simp only [nil_append, map_cons]
        refine congrArg _ (ih hadded.tail _ fuel hlen (drop_add_length happ) ?_
          (by omega) hzero hdone)
        show it.appendedRemaining - 1 = es.length
        omega

end ManifestIter

variable {m : Manifest} {q : Queue} {base added : List QueueEntry}

theorem Represents.items_eq (h : Represents m q base added) : m.items = q.entries.map .ok := by
  obtain ⟨n, hdata, -⟩ := h.data
  have hfit := h.fit
  rw [h.entries] at hfit ⊢
  refine ManifestIter.take_encodeEntries base added (fun e he => hfit e (by simp [he]))
    (fun e he => hfit e (by simp [he])) m.iter _ _ (Nat.zero_le _) hdata ?_ (Nat.zero_le _)
    h.appended h.existingEntriesCount_eq h.appendedCount ?_
  · show 0 + _ = m.entriesEnd
    rw [h.entriesEnd_eq, Nat.zero_add]
  · show _ ≤ m.existingEntriesCount + m.appendedCount
    rw [h.existingEntriesCount_eq, h.appendedCount]

theorem mapM_id_map_ok (es : List QueueEntry) :
    (es.map (Except.ok (ε := Fault Error))).mapM id = .ok es := by
  induction es with
  | nil => rfl
  | cons e es ih => simp [mapM_cons, ih, bind, Except.bind, pure, Except.pure]

theorem Represents.entries_eq (h : Represents m q base added) : m.entries = .ok q.entries := by
  rw [Manifest.entries, h.items_eq, mapM_id_map_ok]

end OpenData.Buffer

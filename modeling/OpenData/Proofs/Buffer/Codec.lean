import Mathlib.Algebra.Order.BigOperators.Group.List
import OpenData.Buffer.Manifest

/-!
# What the entry decoder reads back

`encodeEntry` writes the entry length as a `u32` without checking that the body fits.
`Fits location metadata` is the condition that it does (the `debug_assert!`s of `encode_entry`).
-/

namespace OpenData.Buffer

open Lib List

/-! ### The encoding as one byte string -/

def metadataItemBytes (m : Metadata) : Bytes :=
  toLe startIndexSize m.startIndex.toNat
    ++ (toLe ingestionTimeMsSize m.ingestionTimeMs.toUInt64.toNat
    ++ (toLe metadataLenSize m.payload.length ++ m.payload))

def metadataBytes : List Metadata → Bytes
  | [] => []
  | m :: ms => metadataItemBytes m ++ metadataBytes ms

def entryBody (e : QueueEntry) : Bytes :=
  toLe sequenceSize e.sequence.toNat
    ++ (toLe locationLenSize (asBytes e.location).length ++ (asBytes e.location
    ++ (toLe metadataCountSize e.metadata.length ++ metadataBytes e.metadata)))

/-- The front of `entryBody`, in front of the metadata. -/
def headerBytes (sequence : UInt64) (location : String) (count : Nat) : Bytes :=
  toLe sequenceSize sequence.toNat ++ (toLe locationLenSize (asBytes location).length
    ++ (asBytes location ++ toLe metadataCountSize count))

def entryBytes (e : QueueEntry) : Bytes :=
  toLe entryLenSize (entryBodyLen e.location e.metadata) ++ entryBody e

def encodeEntries : List QueueEntry → Bytes
  | [] => []
  | e :: es => entryBytes e ++ encodeEntries es

/-- The length fields of the entry hold the lengths they stand for. The second field is the
assertion `entry_body_len <= u32::MAX` of `encode_entry`. -/
structure Fits (location : String) (metadata : List Metadata) : Prop where
  location_le : (asBytes location).length ≤ u16Max
  body_le : entryBodyLen location metadata ≤ u32Max

@[simp] theorem length_metadataItemBytes (m : Metadata) :
    (metadataItemBytes m).length = metadataItemSize m := by
  simp only [metadataItemBytes, metadataItemSize, length_append, length_toLe]
  omega

variable (ms : List Metadata)

theorem length_metadataBytes : metadataCountSize + (metadataBytes ms).length = metadataSize ms := by
  induction ms with
  | nil => rfl
  | cons m ms ih =>
    simp only [metadataSize, metadataBytes, map_cons, sum_cons, length_append,
      length_metadataItemBytes] at ih ⊢
    omega

theorem length_headerBytes (sequence : UInt64) (location : String) (count : Nat) :
    (headerBytes sequence location count).length
      = sequenceSize + locationLenSize + (asBytes location).length + metadataCountSize := by
  simp only [headerBytes, length_append, length_toLe]
  omega

variable (e : QueueEntry)

theorem entryBody_eq : entryBody e
    = headerBytes e.sequence e.location e.metadata.length ++ metadataBytes e.metadata := by
  simp only [entryBody, headerBytes, append_assoc]

theorem length_entryBody : (entryBody e).length = entryBodyLen e.location e.metadata := by
  have h := length_metadataBytes e.metadata
  simp only [entryBody, entryBodyLen, length_append, length_toLe]
  omega

theorem length_entryBytes :
    (entryBytes e).length = entryLenSize + entryBodyLen e.location e.metadata := by
  rw [entryBytes, length_append, length_toLe, length_entryBody]

theorem entryBytes_ne_nil : entryBytes e ≠ [] := by
  intro h
  have hlen := length_entryBytes e
  rw [h, entryLenSize, length_nil] at hlen
  omega

theorem encodeEntries_append (es es' : List QueueEntry) :
    encodeEntries (es ++ es') = encodeEntries es ++ encodeEntries es' := by
  induction es with
  | nil => rfl
  | cons e es ih => rw [cons_append, encodeEntries, encodeEntries, ih, append_assoc]

theorem encodeMetadata_eq (h : ∀ m ∈ ms, m.payload.length ≤ u32Max) :
    encodeMetadata ms = .ok (metadataBytes ms) := by
  induction ms with
  | nil => rfl
  | cons m ms ih =>
    have hm : ¬ m.payload.length > u32Max := Nat.not_lt.mpr (h m (by simp))
    rw [encodeMetadata, if_neg hm, ih (fun m' hm' => h m' (by simp [hm']))]
    simp only [bind, Except.bind, metadataBytes, metadataItemBytes, append_assoc]

theorem encodeMetadata_ok {ms bs} (h : encodeMetadata ms = .ok bs) :
    ∀ m ∈ ms, m.payload.length ≤ u32Max := by
  induction ms generalizing bs with
  | nil => simp
  | cons m ms ih =>
    rw [encodeMetadata] at h
    split at h
    · simp [fail] at h
    · rename_i hm
      cases hrest : encodeMetadata ms with
      | error => simp [hrest, bind, Except.bind] at h
      | ok =>
        intro m' hm'
        rcases mem_cons.mp hm' with rfl | hm'
        · exact Nat.not_lt.mp hm
        · exact ih hrest m' hm'

theorem encodeEntry_eq (h : ∀ m ∈ e.metadata, m.payload.length ≤ u32Max) :
    encodeEntry e = .ok (entryBytes e) := by
  rw [encodeEntry, encodeMetadata_eq e.metadata h]
  simp only [bind, Except.bind, entryBytes, entryBody, append_assoc]

theorem encodeEntry_ok {e bs} (h : encodeEntry e = .ok bs) : bs = entryBytes e := by
  cases hm : encodeMetadata e.metadata with
  | error => simp [encodeEntry, hm, bind, Except.bind] at h
  | ok =>
    have heq := encodeEntry_eq e (encodeMetadata_ok hm)
    rw [h] at heq
    exact Except.ok.inj heq

/-! ### Reading an entry back -/

theorem payload_le_metadataSize {ms m} (hm : m ∈ ms) : m.payload.length ≤ metadataSize ms := by
  have hle : metadataItemSize m ≤ (ms.map metadataItemSize).sum :=
    single_le_sum (by simp) _ (mem_map_of_mem hm)
  simp only [metadataItemSize] at hle
  simp only [metadataSize]
  omega

theorem length_le_metadataSize : ms.length ≤ metadataSize ms := by
  induction ms with
  | nil => simp
  | cons m ms ih =>
    simp only [metadataSize, map_cons, sum_cons, length_cons, metadataItemSize,
      startIndexSize] at ih ⊢
    omega

variable {metadata : List Metadata} {location : String}

theorem Fits.payload_le
    (h : Fits location metadata) : ∀ m ∈ metadata, m.payload.length ≤ u32Max := by
  intro m hm
  have h1 := payload_le_metadataSize hm
  have h2 := h.body_le
  rw [entryBodyLen] at h2
  omega

theorem Fits.count_le (h : Fits location metadata) : metadata.length ≤ u32Max := by
  have h1 := length_le_metadataSize metadata
  have h2 := h.body_le
  rw [entryBodyLen] at h2
  omega

section
variable {data : Bytes} {limit : Nat}

/-- The metadata loop reads the list back. Induction on the list: each round reads the four
fields of one range. -/
theorem parses_decodeMetadata (h : ∀ m ∈ ms, m.payload.length ≤ u32Max) :
    Parses data limit (decodeMetadata data limit ms.length) (metadataBytes ms) ms := by
  induction ms with
  | nil => exact Parses.pure []
  | cons m ms ih =>
    have hm : m.payload.length < 256 ^ metadataLenSize := by
      have hle := h m (by simp)
      rw [u32Max] at hle
      simp only [metadataLenSize]
      omega
    have hrest := ih (fun m' hm' => h m' (by simp [hm']))
    have hidx : m.startIndex.toNat < 256 ^ startIndexSize := m.startIndex.toNat_lt
    have htime : m.ingestionTimeMs.toUInt64.toNat < 256 ^ ingestionTimeMsSize :=
      m.ingestionTimeMs.toUInt64.toNat_lt
    rw [length_cons, decodeMetadata, metadataBytes, metadataItemBytes]
    simp only [append_assoc]
    refine parses_require (by simp) (Parses.bind (parses_readLe hidx) ?_)
    refine parses_require (by simp) (Parses.bind (parses_readLe htime) ?_)
    refine parses_require (by simp) (Parses.bind (parses_readLe hm) ?_)
    refine parses_require (by simp) (parses_sliceHere rfl ?_)
    intro off rest hoff hdrop hlim
    rw [append_assoc] at hdrop
    rw [length_append] at hlim ⊢
    have hloop := hrest (off + m.payload.length) rest (add_length_le_of_drop hoff hdrop)
      (drop_add_length hdrop) (by omega)
    rw [runAt_bind_ok (runAt_skip _ _), runAt_bind_ok hloop, runAt_pure, Nat.add_assoc]
    simp

variable {off : Nat} {rest : Bytes}

theorem drop_toLe {w n} (hoff : off ≤ data.length) (h : data.drop off = toLe w n ++ rest) :
    data.drop (off + w) = rest ∧ off + w ≤ data.length := by
  have hdrop := drop_add_length h
  have hle := add_length_le_of_drop hoff h
  rw [length_toLe] at hdrop hle
  exact ⟨hdrop, hle⟩

/-- The length field of an encoded entry keeps the low bytes of the length. -/
theorem entryBytes_eq : entryBytes e =
    toLe entryLenSize (entryBodyLen e.location e.metadata % 2 ^ 32) ++ entryBody e :=
  congrArg (· ++ entryBody e) (toLe_mod entryLenSize _).symm

/-- The buffer holds, at `off`, a length field with the value `len` and the fields of an entry in
front of its metadata, and they pass the checks of `decode_entry`. -/
structure Headed (data : Bytes) (limit off len : Nat) (sequence : UInt64) (location : String)
    (count : Nat) : Prop where
  front : ∃ rest, data.drop off
    = toLe entryLenSize len ++ (headerBytes sequence location count ++ rest)
  len_lt : len < 2 ^ 32
  location_le : (asBytes location).length ≤ u16Max
  count_le : count ≤ u32Max
  low : sequenceSize + locationLenSize + (asBytes location).length + metadataCountSize ≤ len
  len_le : off + entryLenSize + len ≤ limit

theorem Headed.decode {len sequence location count}
    (h : Headed data limit off len sequence location count) (hoff : off ≤ data.length) :
    runAt (decodeHeader data limit) off
      = (.ok ⟨off + entryLenSize + len, sequence, location, count⟩,
        off + entryLenSize + (headerBytes sequence location count).length) := by
  obtain ⟨rest, hdrop⟩ := h.front
  have hlenField : len < 256 ^ entryLenSize := h.len_lt
  have hseqField : sequence.toNat < 256 ^ sequenceSize := sequence.toNat_lt
  have hlocField : (asBytes location).length < 256 ^ locationLenSize := by
    have := h.location_le
    simp only [locationLenSize, u16Max] at this ⊢
    omega
  have hcountField : count < 256 ^ metadataCountSize := by
    have := h.count_le
    simp only [metadataCountSize, u32Max] at this ⊢
    omega
  have hlow := h.low
  have hlim := h.len_le
  -- What the buffer holds after each field.
  simp only [headerBytes, append_assoc] at hdrop
  obtain ⟨hd1, ho1⟩ := drop_toLe hoff hdrop
  obtain ⟨hd2, ho2⟩ := drop_toLe ho1 hd1
  obtain ⟨hd3, ho3⟩ := drop_toLe ho2 hd2
  have hd4 := drop_add_length hd3
  have ho4 := add_length_le_of_drop ho3 hd3
  rw [decodeHeader, runAt_bind_ok (runAt_require_of_le _ (by omega)),
    runAt_bind_ok (runAt_readLe hlenField hoff hdrop),
    runAt_bind_ok (runAt_require_of_le _ (by omega)), runAt_bind_ok (runAt_get _),
    runAt_bind_ok (runAt_readLe hseqField ho1 hd1),
    runAt_bind_ok (runAt_readLe hlocField ho2 hd2), if_neg (by omega)]
  beta_reduce
  rw [runAt_bind_ok (runAt_sliceHere_of_drop ho3 hd3 rfl)]
  simp only [fromUtf8_asBytes]
  rw [runAt_bind_ok (runAt_skip _ _), runAt_bind_ok (runAt_readLe hcountField ho4 hd4), runAt_pure,
    UInt64.ofNat_toNat, length_headerBytes]
  simp only [Nat.add_assoc]

theorem runAt_withCapacity {grants : Nat → Bool} {n : Nat} (h : grants n = true) :
    runAt (withCapacity grants n) off = (.ok (), off) := by
  rw [withCapacity, if_pos h]
  rfl

section

variable (hloc : (asBytes e.location).length ≤ u16Max) (hcount : e.metadata.length ≤ u32Max)
  (hpayload : ∀ m ∈ e.metadata, m.payload.length ≤ u32Max)
include hloc hcount hpayload

/-- The decoder reads an entry back whose length field counts at least the fields that every
entry has. It goes on where the length field says, which may be behind the entry or inside it. -/
theorem decodeEntry_declared {len} (hlen : len < 2 ^ 32)
    (hlow : sequenceSize + locationLenSize + (asBytes e.location).length + metadataCountSize ≤ len)
    (hoff : off ≤ data.length)
    (hdrop : data.drop off = toLe entryLenSize len ++ (entryBody e ++ rest))
    (hlim : off + entryLenSize + len ≤ limit)
    (hbody : off + entryLenSize + (entryBody e).length ≤ limit) :
    runAt (decodeEntry data limit) off = (.ok e, off + (entryLenSize + len)) := by
  rw [entryBody_eq, length_append] at hbody
  rw [entryBody_eq, append_assoc] at hdrop
  have hheaded : Headed data limit off len e.sequence e.location e.metadata.length :=
    ⟨⟨_, hdrop⟩, hlen, hloc, hcount, hlow, hlim⟩
  obtain ⟨hd1, ho1⟩ := drop_toLe hoff hdrop
  have hloop := parses_decodeMetadata e.metadata hpayload _ rest (add_length_le_of_drop ho1 hd1)
    (drop_add_length hd1) (show _ ≤ limit by omega)
  rw [decodeEntry, runAt_bind_ok (hheaded.decode hoff), runAt_bind_ok (runAt_withCapacity rfl),
    runAt_bind_ok hloop, runAt_bind_ok (runAt_set _ _), runAt_pure, Nat.add_assoc]

/-- The decoder may go on inside an entry whose length does not fit its field. -/
theorem decodeEntry_wrapped
    (hlow : sequenceSize + locationLenSize + (asBytes e.location).length + metadataCountSize
      ≤ entryBodyLen e.location e.metadata % 2 ^ 32)
    (hoff : off ≤ data.length)
    (hdrop : data.drop off = entryBytes e ++ rest) (hlim : off + (entryBytes e).length ≤ limit) :
    runAt (decodeEntry data limit) off
      = (.ok e, off + (entryLenSize + entryBodyLen e.location e.metadata % 2 ^ 32)) := by
  have hmod : entryBodyLen e.location e.metadata % 2 ^ 32
      ≤ entryBodyLen e.location e.metadata := Nat.mod_le _ _
  rw [length_entryBytes] at hlim
  rw [entryBytes_eq, append_assoc] at hdrop
  exact decodeEntry_declared e hloc hcount hpayload (Nat.mod_lt _ (by decide)) hlow hoff hdrop
    (by omega) (by rw [length_entryBody]; omega)

end

theorem parses_decodeEntry (h : Fits e.location e.metadata) :
    Parses data limit (decodeEntry data limit) (entryBytes e) e := by
  intro off rest hoff hdrop hlim
  have hbody : entryBodyLen e.location e.metadata % 2 ^ 32
      = entryBodyLen e.location e.metadata := by
    refine Nat.mod_eq_of_lt ?_
    have hle := h.body_le
    rw [u32Max] at hle
    omega
  have hlow : sequenceSize + locationLenSize + (asBytes e.location).length + metadataCountSize
      ≤ entryBodyLen e.location e.metadata % 2 ^ 32 := by
    rw [hbody, entryBodyLen, metadataSize]
    omega
  rw [decodeEntry_wrapped e h.location_le h.count_le h.payload_le hlow hoff hdrop hlim, hbody,
    length_entryBytes]

/-- The length field of a longer body keeps the low bytes of its length. When they count less
than the fields that every entry has, the decoder rejects the entry. -/
theorem decodeEntry_truncated (hloc : (asBytes e.location).length ≤ u16Max)
    (hlow : entryBodyLen e.location e.metadata % 2 ^ 32
      < sequenceSize + locationLenSize + (asBytes e.location).length + metadataCountSize)
    (hoff : off ≤ data.length)
    (hdrop : data.drop off = entryBytes e ++ rest) (hlim : off + (entryBytes e).length ≤ limit) :
    ∃ err off', runAt (decodeEntry data limit) off = (.error (.err err), off') := by
  rw [u16Max] at hloc
  have hlenField : entryBodyLen e.location e.metadata % 2 ^ 32 < 256 ^ entryLenSize :=
    Nat.mod_lt _ (by decide)
  have hlocField : (asBytes e.location).length < 256 ^ locationLenSize := by
    simp only [locationLenSize]
    omega
  have hseqField : e.sequence.toNat < 256 ^ sequenceSize := e.sequence.toNat_lt
  have hlow' : entryBodyLen e.location e.metadata % 2 ^ 32
      ≤ entryBodyLen e.location e.metadata := Nat.mod_le _ _
  rw [length_entryBytes] at hlim
  simp only [entryBytes_eq, entryBody, append_assoc] at hdrop
  obtain ⟨hd1, ho1⟩ := drop_toLe hoff hdrop
  obtain ⟨hd2, ho2⟩ := drop_toLe ho1 hd1
  have hheader : ∃ err off', runAt (decodeHeader data limit) off = (.error (.err err), off') := by
    rw [decodeHeader, runAt_bind_ok (runAt_require_of_le _ (by omega)),
      runAt_bind_ok (runAt_readLe hlenField hoff hdrop),
      runAt_bind_ok (runAt_require_of_le _ (by omega)), runAt_bind_ok (runAt_get _),
      runAt_bind_ok (runAt_readLe hseqField ho1 hd1),
      runAt_bind_ok (runAt_readLe hlocField ho2 hd2), if_pos hlow]
    exact ⟨_, _, rfl⟩
  obtain ⟨err, off', hrun⟩ := hheader
  exact ⟨err, off', runAt_bind_error hrun⟩

end

/-! ### The entry area -/

def AllFit (es : List QueueEntry) : Prop := ∀ e ∈ es, Fits e.location e.metadata

theorem AllFit.tail {e es} (h : AllFit (e :: es)) : AllFit es := fun e' he' => h e' (by simp [he'])

theorem AllFit.append {es es'} (h : AllFit es) (h' : AllFit es') : AllFit (es ++ es') := by
  intro e he
  rcases mem_append.mp he with he | he
  · exact h e he
  · exact h' e he

theorem length_le_encodeEntries (es : List QueueEntry) : es.length ≤ (encodeEntries es).length := by
  induction es with
  | nil => simp
  | cons =>
    rw [encodeEntries, length_append, length_entryBytes, length_cons, entryLenSize]
    omega

variable {data : Bytes} {limit : Nat} (throughSequence : UInt64)

/-- The loop of `split_entries` at an entry boundary: it removes the leading entries with
sequence at most `throughSequence`, and stops in front of the bytes of the others. Induction on
the entries that are left. -/
theorem splitEntriesFrom_encodeEntries (es : List QueueEntry) (hfit : AllFit es)
    (hcount : es.length < 2 ^ 32) (off : Nat) (rest : Bytes) (hoff : off ≤ data.length)
    (hdrop : data.drop off = encodeEntries es ++ rest)
    (hlim : off + (encodeEntries es).length = limit) :
    ∃ start, splitEntriesFrom data limit throughSequence es.length off
        = .ok (es.takeWhile (·.sequence ≤ throughSequence), start,
            (es.dropWhile (·.sequence ≤ throughSequence)).length)
      ∧ start ≤ limit ∧ limit ≤ data.length ∧ (data.drop start).take (limit - start)
          = encodeEntries (es.dropWhile (·.sequence ≤ throughSequence)) := by
  induction es generalizing off with
  | nil =>
    have hle := add_length_le_of_drop hoff hdrop
    refine ⟨limit, rfl, Nat.le_refl _, by omega, ?_⟩
    simp [encodeEntries]
  | cons e es ih =>
    have hbound := add_length_le_of_drop hoff hdrop
    have hdrop' := hdrop
    rw [encodeEntries, append_assoc] at hdrop'
    rw [encodeEntries, length_append] at hlim
    have hdec := parses_decodeEntry e (hfit e (by simp)) off _ hoff hdrop' (show _ ≤ limit by omega)
    rw [length_cons, splitEntriesFrom, hdec]
    by_cases hle : e.sequence ≤ throughSequence
    · -- The entry is removed, and the loop goes on behind it.
      obtain ⟨start, hsplit, hstart, hlen, hbytes⟩ := ih hfit.tail
        (by rw [length_cons] at hcount; omega) (off + (entryBytes e).length)
        (add_length_le_of_drop hoff hdrop') (drop_add_length hdrop') (by omega)
      refine ⟨start, ?_, hstart, hlen, ?_⟩
      · simp [hle, hsplit, bind, Except.bind]
      · rw [hbytes]
        simp [hle]
    · -- The entry stays, and with it everything behind it.
      refine ⟨off, ?_, by omega, ?_, ?_⟩
      · have hlt : es.length + 1 < 4294967296 := by simpa using hcount
        simp [hle, hlt]
      · rw [encodeEntries, length_append] at hbound
        omega
      · have hlen : limit - off = (encodeEntries (e :: es)).length := by
          rw [encodeEntries, length_append]
          omega
        rw [hdrop, hlen, take_left]
        simp [hle]

theorem splitEntries_encodeEntries (es : List QueueEntry) (hfit : AllFit es)
    (hcount : es.length < 2 ^ 32) (rest : Bytes) (hdata : data = encodeEntries es ++ rest)
    (hlim : (encodeEntries es).length = limit) :
    ∃ start, splitEntries data es.length limit throughSequence
        = .ok (es.takeWhile (·.sequence ≤ throughSequence), start,
            (es.dropWhile (·.sequence ≤ throughSequence)).length)
      ∧ slice (ε := Error) data start limit
          = .ok (encodeEntries (es.dropWhile (·.sequence ≤ throughSequence))) := by
  obtain ⟨start, hsplit, hstart, hlen, hbytes⟩ :=
    splitEntriesFrom_encodeEntries throughSequence es hfit hcount 0 rest (Nat.zero_le _)
      (by simpa using hdata) (by simpa using hlim)
  refine ⟨start, hsplit, ?_⟩
  rw [slice, if_pos ⟨hstart, hlen⟩, hbytes]

end OpenData.Buffer

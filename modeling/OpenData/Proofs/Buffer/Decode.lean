import OpenData.Lib.Monadic
import OpenData.Proofs.Buffer.Manifest

/-!
# Decoding arbitrary bytes

Whatever stands in the entry area of an accepted manifest, the decoder reads inside the buffer, and
an entry that it returns is spelled out by the bytes that it read (`ensures_decodeEntry`): the
buffer holds a length field with the value `len` and then the encoding of the entry (`Spelled`). Two
things may go wrong (`spilled_metadata`). The check of the metadata against the end of the entry
area does not keep the encoding inside the `len` bytes that the entry declares, and the vector for
the metadata is allocated for the stored count, whatever it is. `decoded_own_bytes` says that
nothing else does: an iteration and a dequeue are safe exactly when every header that the iterator
meets counts metadata that the allocator has room for (`Headed`), and every encoding that it meets
is inside its declared length. There the entry is a function of its declared bytes
(`Spelled.ownBytes_iff`).
-/

namespace OpenData.Buffer

open Lib List Manifest

section
variable {data : Bytes} {limit : Nat}

/-! ### One entry -/

theorem ensures_decodeMetadata (hlimit : limit ≤ data.length) (n off : Nat) (hoff : off ≤ limit) :
    Ensures (decodeMetadata data limit n) off fun ms off' =>
      ms.length = n ∧ off' = off + (metadataBytes ms).length ∧ off' ≤ limit ∧
      data.drop off = metadataBytes ms ++ data.drop off' ∧ ∀ m ∈ ms, m.payload.length ≤ u32Max := by
  induction n generalizing off with
  | zero => exact Ensures.pure ⟨rfl, rfl, hoff, rfl, by simp⟩
  | succ n ih =>
    rw [decodeMetadata]
    refine Ensures.bind (ensures_require _) ?_
    rintro _ _ ⟨rfl, hfit1⟩
    refine Ensures.bind (ensures_readLe (by omega)) ?_
    rintro startIndex _ ⟨rfl, hidx, hd1⟩
    refine Ensures.bind (ensures_require _) ?_
    rintro _ _ ⟨rfl, hfit2⟩
    refine Ensures.bind (ensures_readLe (by omega)) ?_
    rintro time _ ⟨rfl, htime, hd2⟩
    refine Ensures.bind (ensures_require _) ?_
    rintro _ _ ⟨rfl, hfit3⟩
    refine Ensures.bind (ensures_readLe (by omega)) ?_
    rintro mLen _ ⟨rfl, hmLen, hd3⟩
    refine Ensures.bind (ensures_require _) ?_
    rintro _ _ ⟨rfl, hfit4⟩
    refine Ensures.bind (ensures_sliceHere (by omega)) ?_
    rintro payload _ ⟨rfl, hpayload, hd4⟩
    refine Ensures.bind (ensures_skip _) ?_
    rintro _ _ rfl
    refine Ensures.bind (ih _ hfit4) ?_
    rintro ms off' ⟨hlen, hoff', hle, hd5, hsmall⟩
    have hidx' : (UInt32.ofNat startIndex).toNat = startIndex := UInt32.toNat_ofNat_of_lt' hidx
    have htime' : (UInt64.ofNat time).toInt64.toUInt64.toNat = time := by
      rw [UInt64.toUInt64_toInt64]
      exact UInt64.toNat_ofNat_of_lt' htime
    have hbytes : metadataItemBytes ⟨UInt32.ofNat startIndex, (UInt64.ofNat time).toInt64, payload⟩
        = toLe startIndexSize startIndex ++ (toLe ingestionTimeMsSize time
          ++ (toLe metadataLenSize mLen ++ payload)) := by
      rw [metadataItemBytes, hidx', htime', hpayload]
    refine Ensures.pure ⟨by simp [hlen], ?_, hle, ?_, ?_⟩
    · rw [hoff', metadataBytes, hbytes]
      simp only [length_append, length_toLe, hpayload]
      omega
    · rw [metadataBytes, hbytes, hd1, hd2, hd3, hd4, hd5]
      simp only [append_assoc]
    · intro m hm
      rcases mem_cons.mp hm with rfl | hm
      · show payload.length ≤ u32Max
        rw [hpayload, u32Max]
        simp only [metadataLenSize] at hmLen
        omega
      · exact hsmall m hm

/-- The fields in front of the location are read before the length field is checked against them,
so the reads may go into the footer. -/
theorem ensures_decodeHeader (hlimit : limit + footerSize ≤ data.length) (off : Nat) :
    Ensures (decodeHeader data limit) off fun h off' => ∃ len,
      h.entryEnd = off + entryLenSize + len ∧
      off' = off + entryLenSize + (headerBytes h.sequence h.location h.metadataCount).length ∧
      Headed data limit off len h.sequence h.location h.metadataCount := by
  simp only [footerSize, entriesCountSize, epochSize, versionSize] at hlimit
  rw [decodeHeader]
  refine Ensures.bind (ensures_require _) ?_
  rintro _ off ⟨rfl, hfit1⟩
  refine Ensures.bind (ensures_readLe (by omega)) ?_
  rintro len _ ⟨rfl, hlen, hd1⟩
  refine Ensures.bind (ensures_require _) ?_
  rintro _ _ ⟨rfl, hfit2⟩
  refine Ensures.bind ensures_get ?_
  rintro here _ ⟨rfl, rfl⟩
  refine Ensures.bind (ensures_readLe (by simp only [sequenceSize] at hlimit ⊢; omega)) ?_
  rintro sequence _ ⟨rfl, hseq, hd2⟩
  refine Ensures.bind
    (ensures_readLe (by simp only [sequenceSize, locationLenSize] at hlimit ⊢; omega)) ?_
  rintro locationLen _ ⟨rfl, hlocationLen, hd3⟩
  dsimp only
  split
  · exact Ensures.bind (Q := fun _ _ => False) (ensures_throw _) (fun _ _ h => h.elim)
  · rename_i hlow
    have hroom := Nat.le_of_not_lt hlow
    refine Ensures.bind (ensures_sliceHere (by omega)) ?_
    rintro raw _ ⟨rfl, hraw, hd4⟩
    split
    · exact ensures_throw _
    · rename_i location hutf
      have hlocation : asBytes location = raw := asBytes_of_fromUtf8 hutf
      refine Ensures.bind (ensures_skip _) ?_
      rintro _ _ rfl
      refine Ensures.bind (ensures_readLe (by omega)) ?_
      rintro count _ ⟨rfl, hcount, hd5⟩
      have hseq' : (UInt64.ofNat sequence).toNat = sequence := UInt64.toNat_ofNat_of_lt' hseq
      refine Ensures.pure ⟨len, rfl, ?_, ?_⟩
      · rw [length_headerBytes, hlocation, hraw]
        omega
      exact {
        front := by
          refine ⟨data.drop (off + entryLenSize + sequenceSize + locationLenSize + locationLen
            + metadataCountSize), ?_⟩
          rw [headerBytes, hseq', hlocation, hraw, hd1, hd2, hd3, hd4, hd5]
          simp only [append_assoc]
        len_lt := hlen
        location_le := by
          rw [hlocation, hraw, u16Max]
          simp only [locationLenSize] at hlocationLen
          omega
        count_le := by
          simp only [metadataCountSize, u32Max] at hcount ⊢
          omega
        low := by rw [hlocation, hraw]; exact hroom
        len_le := hfit2 }

/-- The buffer holds, at `off`, a length field with the value `len` and then the encoding of `e`,
which ends in the entry area, but maybe behind the `len` bytes. -/
structure Spelled (data : Bytes) (limit off len : Nat) (e : QueueEntry) : Prop
    extends Headed data limit off len e.sequence e.location e.metadata.length where
  bytes : ∃ rest, data.drop off = toLe entryLenSize len ++ (entryBody e ++ rest)
  payload_le : ∀ m ∈ e.metadata, m.payload.length ≤ u32Max
  body_le : off + entryLenSize + (entryBody e).length ≤ limit

/-- At any offset of a buffer with a footer behind its entry area, the decoder does not panic when
the allocator has room. An entry that it returns is spelled out at the offset, and the length field
says where the decoder goes on. -/
theorem ensures_decodeEntry (hlimit : limit + footerSize ≤ data.length) (off : Nat) :
    Ensures (decodeEntry data limit) off fun e off' =>
      ∃ len, off' = off + (entryLenSize + len) ∧ Spelled data limit off len e := by
  rw [decodeEntry]
  refine Ensures.bind (ensures_decodeHeader hlimit off) ?_
  rintro header _ ⟨len, hend, rfl, hheaded⟩
  have hlow := hheaded.low
  have hle := hheaded.len_le
  obtain ⟨rest, hfront⟩ := hheaded.front
  have hoff : off ≤ data.length := by omega
  refine Ensures.bind (ensures_of_runAt_ok (Q := fun _ off' => off' = _)
    (runAt_withCapacity rfl) rfl) ?_
  rintro _ _ rfl
  refine Ensures.bind (ensures_decodeMetadata (by omega) header.metadataCount _
    (by rw [length_headerBytes]; omega)) ?_
  rintro ms off' ⟨hms, hoff', hend', hdrop, hsmall⟩
  refine Ensures.bind (ensures_set _) ?_
  rintro _ _ rfl
  have hrest : rest = metadataBytes ms ++ data.drop off' := by
    rw [← hdrop, ← drop_add_length (drop_toLe hoff hfront).1]
  refine Ensures.pure ⟨len, by rw [hend, Nat.add_assoc], ?_⟩
  exact {
    toHeaded := by rw [hms]; exact hheaded
    bytes := by
      refine ⟨data.drop off', ?_⟩
      rw [hfront, entryBody_eq, hms, hrest, append_assoc]
    payload_le := hsmall
    body_le := by
      simp only [entryBody_eq, length_append, hms]
      omega }

theorem Spelled.run {off len e} (h : Spelled data limit off len e) (hoff : off ≤ data.length) :
    runAt (decodeEntry data limit) off = (.ok e, off + (entryLenSize + len)) := by
  obtain ⟨rest, hbytes⟩ := h.bytes
  exact decodeEntry_declared e h.location_le h.count_le h.payload_le h.len_lt h.low hoff hbytes
    h.len_le h.body_le

section
variable {grants : Nat → Bool} {off : Nat}

theorem decodeEntry_granted (hlimit : limit + footerSize ≤ data.length)
    (hgrants : ∀ len sequence location count,
      Headed data limit off len sequence location count → grants count = true) :
    runAt (decodeEntry data limit grants) off = runAt (decodeEntry data limit) off := by
  cases hrun : runAt (decodeHeader data limit) off with
  | mk r off' =>
    cases r with
    | error =>
      rw [decodeEntry, runAt_bind_error hrun, decodeEntry, runAt_bind_error hrun]
    | ok header =>
      obtain ⟨len, -, -, hheaded⟩ := (ensures_decodeHeader hlimit off).2 header off' hrun
      rw [decodeEntry, runAt_bind_ok hrun,
        runAt_bind_ok (runAt_withCapacity (hgrants _ _ _ _ hheaded)), decodeEntry,
        runAt_bind_ok hrun, runAt_bind_ok (runAt_withCapacity rfl)]

theorem Headed.refused {len sequence location count}
    (h : Headed data limit off len sequence location count) (hoff : off ≤ data.length)
    (hrefused : grants count = false) :
    (runAt (decodeEntry data limit grants) off).1 = .error .panic := by
  have hcapacity (off' : Nat) :
      runAt (withCapacity grants count) off' = (.error .panic, off') := by
    rw [withCapacity, if_neg (by simp [hrefused])]
    rfl
  rw [decodeEntry, runAt_bind_ok (h.decode hoff), runAt_bind_error (hcapacity _)]

end

/-- An entry inside its declared length is a function of the declared bytes: any buffer that
holds the same bytes anywhere in its entry area gives the same entry. -/
theorem Spelled.decode {off len e} (h : Spelled data limit off len e)
    (hinside : (entryBody e).length ≤ len) {data' limit' pos}
    (hlimit : limit' ≤ data'.length) (hpos : pos + entryLenSize + len ≤ limit')
    (hsame : (data'.drop pos).take (entryLenSize + len)
      = (data.drop off).take (entryLenSize + len)) :
    runAt (decodeEntry data' limit') pos = (.ok e, pos + (entryLenSize + len)) := by
  obtain ⟨rest, hbytes⟩ := h.bytes
  have hfront : (data.drop off).take (entryLenSize + len)
      = toLe entryLenSize len ++ (entryBody e ++ rest.take (len - (entryBody e).length)) := by
    rw [hbytes, take_append, take_append, length_toLe, Nat.add_sub_cancel_left,
      take_of_length_le (by simp), take_of_length_le hinside]
  have hdrop : data'.drop pos = toLe entryLenSize len ++ (entryBody e
      ++ (rest.take (len - (entryBody e).length)
        ++ (data'.drop pos).drop (entryLenSize + len))) := by
    calc data'.drop pos = (data'.drop pos).take (entryLenSize + len)
          ++ (data'.drop pos).drop (entryLenSize + len) := (take_append_drop _ _).symm
      _ = _ := by
          rw [hsame, hfront]
          simp only [append_assoc]
  exact decodeEntry_declared e h.location_le h.count_le h.payload_le h.len_lt h.low (by omega)
    hdrop hpos (by omega)

/-- The entry is a function of the bytes from `off` to `off'`: any buffer that holds the same bytes
anywhere in its entry area gives the same entry there. -/
def OwnBytes (b : Bytes) (off off' : Nat) (e : QueueEntry) : Prop :=
  ∀ data limit pos, limit ≤ data.length → pos + (off' - off) ≤ limit →
    (data.drop pos).take (off' - off) = (b.drop off).take (off' - off) →
    runAt (decodeEntry data limit) pos = (.ok e, pos + (off' - off))

theorem Spelled.ownBytes_iff {off len e} (h : Spelled data limit off len e)
    (hlimit : limit ≤ data.length) :
    OwnBytes data off (off + (entryLenSize + len)) e ↔ (entryBody e).length ≤ len := by
  have hdeclared : off + (entryLenSize + len) - off = entryLenSize + len := by omega
  rw [OwnBytes, hdeclared]
  constructor
  · -- The declared bytes with nothing but a footer behind them.
    intro hown
    have hle := h.len_le
    let front := (data.drop off).take (entryLenSize + len)
    have hfront : front.length = entryLenSize + len := by
      simp only [front, length_take, length_drop]
      omega
    have hrun := hown (front ++ footer 0 0 0) (entryLenSize + len) 0 (by simp [hfront]) (by omega)
      (by rw [drop_zero, take_left' hfront])
    obtain ⟨_, -, hspelled⟩ := (ensures_decodeEntry (by simp [hfront]) 0).2 e _ hrun
    have hbody := hspelled.body_le
    omega
  · intro hinside data' limit' pos hlimit' hpos hsame
    exact h.decode hinside hlimit' (by omega) hsame

/-! ### The iterator and `dequeue` -/

/-- One step of an iteration. -/
def ManifestIter.Advances (grants : Nat → Bool) (it it' : ManifestIter) : Prop :=
  ∃ item, it.next grants = some (item, it')

/-- The states of an iteration over the manifest. -/
def Manifest.Reaches (m : Manifest) (grants : Nat → Bool) : ManifestIter → Prop :=
  Relation.ReflTransGen (ManifestIter.Advances grants) m.iter

/-- The iterator is one over the bytes of the manifest, behind the appended entries. -/
structure ManifestIter.Walks (m : Manifest) (it : ManifestIter) : Prop where
  data : it.data = m.data
  entriesEnd : it.entriesEnd = m.entriesEnd
  appendedRemaining : it.appendedRemaining = 0

/-- What the decoder meets at an offset: room for the metadata that the next header counts, and no
encoding that goes on behind the length that its entry declares. -/
structure Manifest.CleanAt (m : Manifest) (grants : Nat → Bool) (off : Nat) : Prop where
  granted : ∀ len sequence location count,
    Headed m.data m.entriesEnd off len sequence location count → grants count = true
  inside : ∀ len e, Spelled m.data m.entriesEnd off len e → (entryBody e).length ≤ len

end

section
variable {m : Manifest} {grants : Nat → Bool}

theorem entriesEnd_add_footerSize (m : Manifest) : m.entriesEnd + footerSize ≤ m.data.length := by
  rw [entriesEnd, if_neg (data_ne_nil m)]
  have h := m.footer_le
  omega

theorem entriesEnd_le (m : Manifest) : m.entriesEnd ≤ m.data.length :=
  Nat.le_of_add_right_le (entriesEnd_add_footerSize m)

theorem fromBytes_ok {b} (hm : fromBytes b = .ok m) : m.data = b ∧ m.appendedCount = 0 := by
  rw [fromBytes] at hm
  split at hm
  · cases hm
  · split at hm
    · cases hm
    · dsimp only at hm
      split at hm
      · cases hm
      · rw [Except.ok.injEq] at hm
        subst hm
        exact ⟨rfl, rfl⟩

namespace ManifestIter.Walks

variable {it it' : ManifestIter} {item : Result QueueEntry}

theorem next_of_pos (h : Walks m it) (hpos : 0 < it.remaining) : it.next grants
    = some ((runAt (decodeEntry m.data m.entriesEnd grants) it.offset).1,
      { it with
        remaining := it.remaining - 1
        offset := (runAt (decodeEntry m.data m.entriesEnd grants) it.offset).2 }) := by
  rw [ManifestIter.next, if_pos hpos, h.data, h.entriesEnd]

/-- Behind the last entry there is at most the complaint about bytes that are left. -/
theorem next_of_zero (h : Walks m it) (hzero : it.remaining = 0)
    (hnext : it.next grants = some (item, it')) :
    Walks m it' ∧ it'.remaining = 0 ∧ ∃ msg, item = fail (.serialization msg) := by
  rw [ManifestIter.next, h.appendedRemaining, hzero, if_neg (Nat.lt_irrefl 0),
    if_neg (Nat.lt_irrefl 0)] at hnext
  split at hnext
  · cases hnext
    exact ⟨⟨h.data, h.entriesEnd, rfl⟩, rfl, _, rfl⟩
  · cases hnext

theorem advance (h : Walks m it) (hstep : Advances grants it it') : Walks m it' := by
  obtain ⟨item, hnext⟩ := hstep
  rcases Nat.eq_zero_or_pos it.remaining with hzero | hpos
  · exact (h.next_of_zero hzero hnext).1
  · rw [h.next_of_pos hpos] at hnext
    cases hnext
    exact ⟨h.data, h.entriesEnd, h.appendedRemaining⟩

theorem reaches (h : Walks m it) (hreach : Relation.ReflTransGen (Advances grants) it it') :
    Walks m it' := by
  induction hreach with
  | refl => exact h
  | tail _ hstep ih => exact ih.advance hstep

/-- One step from a clean offset: it does not panic, and an entry that it gives is a function of
the bytes that the iterator moves over. -/
theorem next (h : Walks m it) (hclean : 0 < it.remaining → m.CleanAt grants it.offset)
    (hnext : it.next grants = some (item, it')) :
    item ≠ .error .panic ∧ ∀ e, item = .ok e → OwnBytes m.data it.offset it'.offset e := by
  rcases Nat.eq_zero_or_pos it.remaining with hzero | hpos
  · obtain ⟨-, -, msg, rfl⟩ := h.next_of_zero hzero hnext
    exact ⟨by simp [fail], by simp [fail]⟩
  · have hdecode := ensures_decodeEntry (entriesEnd_add_footerSize m) it.offset
    rw [h.next_of_pos hpos, decodeEntry_granted (entriesEnd_add_footerSize m)
      (hclean hpos).granted] at hnext
    cases hnext
    refine ⟨hdecode.1, ?_⟩
    intro e he
    obtain ⟨len, hoff, hspelled⟩ := hdecode.2 e _ (Prod.ext he rfl)
    have hown := (hspelled.ownBytes_iff (entriesEnd_le m)).mpr
      ((hclean hpos).inside len e hspelled)
    rwa [← hoff] at hown

/-- Only a clean offset gives such a step. -/
theorem cleanAt_of_next (h : Walks m it) (hpos : 0 < it.remaining)
    (hnext : ∀ item it', it.next grants = some (item, it') →
      item ≠ .error .panic ∧ ∀ e, item = .ok e → OwnBytes m.data it.offset it'.offset e) :
    m.CleanAt grants it.offset := by
  obtain ⟨hpanic, hown⟩ := hnext _ _ (h.next_of_pos hpos)
  have hend := entriesEnd_le m
  have hgranted : ∀ len sequence location count,
      Headed m.data m.entriesEnd it.offset len sequence location count → grants count = true := by
    intro len sequence location count hheaded
    by_contra hrefused
    have hlen := hheaded.len_le
    exact hpanic (hheaded.refused (by omega) (by simpa using hrefused))
  refine ⟨hgranted, ?_⟩
  intro len e hspelled
  have hlen := hspelled.len_le
  have hrun : runAt (decodeEntry m.data m.entriesEnd grants) it.offset
      = (.ok e, it.offset + (entryLenSize + len)) := by
    rw [decodeEntry_granted (entriesEnd_add_footerSize m) hgranted, hspelled.run (by omega)]
  rw [hrun] at hown
  exact (hspelled.ownBytes_iff hend).mp (hown e rfl)

/-- The loop of `split_entries` takes the same steps as the iterator until it stops: it does not
panic, it stops inside the entry area, and the iteration gives every entry that it removes. -/
theorem splitEntriesFrom (h : Walks m it) (throughSequence : UInt64) {n} (hn : it.remaining = n)
    (hclean : ∀ it', Relation.ReflTransGen (Advances grants) it it' → 0 < it'.remaining →
      m.CleanAt grants it'.offset) :
    OpenData.Buffer.splitEntriesFrom m.data m.entriesEnd throughSequence n it.offset grants
        ≠ .error .panic ∧ ∀ removed start count,
        OpenData.Buffer.splitEntriesFrom m.data m.entriesEnd throughSequence n it.offset grants
          = .ok (removed, start, count) →
        start ≤ m.entriesEnd ∧ ∀ e ∈ removed, ∃ it₁ it₂,
          Relation.ReflTransGen (Advances grants) it it₁ ∧ it₁.next grants = some (.ok e, it₂) := by
  induction n generalizing it with
  | zero =>
    refine ⟨by simp [OpenData.Buffer.splitEntriesFrom], ?_⟩
    intro removed start count hsplit
    simp only [OpenData.Buffer.splitEntriesFrom, Except.ok.injEq, Prod.mk.injEq] at hsplit
    obtain ⟨rfl, rfl, -⟩ := hsplit
    exact ⟨Nat.le_refl _, by simp⟩
  | succ n ih =>
    have hpos : 0 < it.remaining := by omega
    have hstep : it.next grants = _ := h.next_of_pos hpos
    have hdecode := ensures_decodeEntry (entriesEnd_add_footerSize m) it.offset
    have hgranted := decodeEntry_granted (entriesEnd_add_footerSize m)
      (hclean it .refl hpos).granted
    rw [OpenData.Buffer.splitEntriesFrom]
    rw [hgranted] at hstep ⊢
    cases hrun : runAt (decodeEntry m.data m.entriesEnd) it.offset with
    | mk r off =>
      rw [hrun] at hstep
      cases r with
      | error e =>
        have he : e ≠ .panic := by
          rintro rfl
          exact hdecode.1 (by rw [hrun])
        exact ⟨by simpa using he, by simp⟩
      | ok e =>
        have hadvance : Advances grants it _ := ⟨_, hstep⟩
        obtain ⟨hne, hrest⟩ := ih (h.advance hadvance) (by simp [hn])
          fun it' hreach => hclean it' (.head hadvance hreach)
        dsimp only at hne hrest ⊢
        split
        · -- The entry is removed and the loop goes on behind it.
          constructor
          · cases hsplit : OpenData.Buffer.splitEntriesFrom m.data m.entriesEnd
                throughSequence n off grants with
            | error =>
              rw [hsplit] at hne
              exact hne
            | ok => simp [bind, Except.bind]
          · intro removed start count hsplit
            obtain ⟨p, hp, hout⟩ := exists_of_bind_eq_ok hsplit
            obtain ⟨removed', start', count'⟩ := p
            simp only [Except.ok.injEq, Prod.mk.injEq] at hout
            obtain ⟨rfl, rfl, -⟩ := hout
            obtain ⟨hstart, hremoved⟩ := hrest removed' start' count' hp
            refine ⟨hstart, ?_⟩
            intro e' he'
            rcases mem_cons.mp he' with rfl | he'
            · exact ⟨it, _, .refl, hstep⟩
            · obtain ⟨it₁, it₂, hreach, hnext⟩ := hremoved e' he'
              exact ⟨it₁, it₂, .head hadvance hreach, hnext⟩
        · -- The entry stays: the loop stops in front of it.
          refine ⟨by simp, ?_⟩
          intro removed start count hsplit
          simp only [Except.ok.injEq, Prod.mk.injEq] at hsplit
          obtain ⟨rfl, rfl, -⟩ := hsplit
          obtain ⟨len, -, hspelled⟩ := hdecode.2 e off hrun
          exact ⟨by have := hspelled.len_le; omega, by simp⟩

end ManifestIter.Walks

theorem walks_iter (hcount : m.appendedCount = 0) : ManifestIter.Walks m m.iter :=
  ⟨rfl, rfl, hcount⟩

/-- What reading a manifest is to guarantee: neither the iterator nor `dequeue` panics, `dequeue`
removes entries that the iterator gives, and each of these is a function of its own bytes. -/
structure Manifest.ReadsSafely (m : Manifest) (grants : Nat → Bool) : Prop where
  next_ne_panic : ∀ it item it', m.Reaches grants it → it.next grants = some (item, it') →
    item ≠ .error .panic
  dequeue_ne_panic : ∀ throughSequence, m.dequeue throughSequence grants ≠ .error .panic
  removed : ∀ throughSequence removed m', m.dequeue throughSequence grants = .ok (removed, m') →
    ∀ e ∈ removed, ∃ it it', m.Reaches grants it ∧ it.next grants = some (.ok e, it')
  ownBytes : ∀ it it' e, m.Reaches grants it → it.next grants = some (.ok e, it') →
    OwnBytes m.data it.offset it'.offset e

theorem dequeue_walks (hcount : m.appendedCount = 0) (throughSequence : UInt64)
    (hclean : ∀ it, m.Reaches grants it → 0 < it.remaining → m.CleanAt grants it.offset) :
    m.dequeue throughSequence grants ≠ .error .panic ∧
      ∀ removed m', m.dequeue throughSequence grants = .ok (removed, m') →
        ∀ e ∈ removed, ∃ it it', m.Reaches grants it ∧ it.next grants = some (.ok e, it') := by
  obtain ⟨hne, hok⟩ := (walks_iter hcount).splitEntriesFrom throughSequence rfl hclean
  have hend := entriesEnd_le m
  rw [dequeue, splitEntries]
  cases hsplit : splitEntriesFrom m.data m.entriesEnd throughSequence m.existingEntriesCount 0
      grants with
  | error f =>
    have hf : f ≠ .panic := by
      rintro rfl
      exact hne hsplit
    exact ⟨by simpa [bind, Except.bind] using hf, by simp [bind, Except.bind]⟩
  | ok p =>
    obtain ⟨removed, start, count⟩ := p
    obtain ⟨hstart, hremoved⟩ := hok removed start count hsplit
    have hslice : slice (ε := Error) m.data start m.entriesEnd
        = .ok ((m.data.drop start).take (m.entriesEnd - start)) := by
      rw [slice, if_pos ⟨hstart, hend⟩]
    have hsliceApp : slice (ε := Error) m.appended m.appended.length m.appended.length
        = .ok [] := by
      rw [slice, if_pos ⟨Nat.le_refl _, Nat.le_refl _⟩, Nat.sub_self, take_zero]
    simp only [bind, Except.bind, splitEntries, hcount, OpenData.Buffer.splitEntriesFrom, hslice,
      hsliceApp, Except.ok.injEq, Prod.mk.injEq, append_nil]
    refine ⟨by simp, ?_⟩
    rintro _ m' ⟨rfl, -⟩
    exact hremoved

/-- Reading accepted bytes, however corrupt their entry area and count, is safe under an allocator
exactly when the iterator meets clean offsets only. -/
theorem decoded_own_bytes {b : Bytes} (hm : fromBytes b = .ok m) (grants : Nat → Bool) :
    m.data = b ∧ (m.ReadsSafely grants ↔
      ∀ it, m.Reaches grants it → 0 < it.remaining → m.CleanAt grants it.offset) := by
  obtain ⟨hdata, hcount⟩ := fromBytes_ok hm
  refine ⟨hdata, ?_, ?_⟩
  · intro hsafe it hreach hpos
    refine ((walks_iter hcount).reaches hreach).cleanAt_of_next hpos ?_
    intro item it' hnext
    refine ⟨hsafe.next_ne_panic it item it' hreach hnext, ?_⟩
    rintro e rfl
    exact hsafe.ownBytes it it' e hreach hnext
  · intro hclean
    have hstep := fun it item it' (hreach : m.Reaches grants it)
        (hnext : it.next grants = some (item, it')) =>
      ((walks_iter hcount).reaches hreach).next (hclean it hreach) hnext
    exact {
      next_ne_panic := fun it item it' hreach hnext => (hstep it item it' hreach hnext).1
      dequeue_ne_panic := fun t => (dequeue_walks hcount t hclean).1
      removed := fun t => (dequeue_walks hcount t hclean).2
      ownBytes := fun it it' e hreach hnext => (hstep it _ it' hreach hnext).2 e rfl }

end

/-- A manifest of two entries. The first declares 14 bytes and one metadata range, of which no
byte is among the 14. The second is an empty entry with the given sequence number. -/
def spill (sequence : UInt64) : Bytes :=
  toLe entryLenSize 14 ++ toLe sequenceSize 0 ++ toLe locationLenSize 0 ++ toLe metadataCountSize 1
    ++ entryBytes { sequence, location := "", metadata := [] } ++ footer 2 2 0

/-- A manifest of 40 bytes whose only entry counts as many metadata ranges as the field can. -/
def hugeCount : Bytes :=
  toLe entryLenSize 14 ++ toLe sequenceSize 0 ++ toLe locationLenSize 0
    ++ toLe metadataCountSize u32Max ++ footer 1 1 0

/-- An allocator with 64 GiB. A `Metadata` has 48 bytes. -/
def sixtyFourGib (n : Nat) : Bool := n * 48 ≤ 2 ^ 36

/-- The first entry of `spill n` takes its metadata from the bytes of the second: two manifests
with the same bytes in the first entry give different first entries, and neither is rejected. The
entry of `hugeCount` is not rejected either: the program is aborted. -/
theorem spilled_metadata : (spill 1).take 18 = (spill 2).take 18 ∧
    (fromBytes (spill 1)).toOption.map items = some [.ok ⟨0, "", [⟨14, 1, []⟩]⟩, .ok ⟨1, "", []⟩] ∧
    (fromBytes (spill 2)).toOption.map items
      = some [.ok ⟨0, "", [⟨14, 2, []⟩]⟩, .ok ⟨2, "", []⟩] ∧
    hugeCount.length = 40 ∧
    (fromBytes hugeCount).toOption.bind (fun m => (m.iter.next sixtyFourGib).map Prod.fst)
      = some (.error .panic) ∧
    (fromBytes hugeCount).toOption.map (fun m => (m.dequeue 0 sixtyFourGib).map Prod.fst)
      = some (.error .panic) := by
  decide +kernel

def inside : Bytes :=
  entryBytes { sequence := 0, location := "a", metadata := [⟨0, 5, [7]⟩] } ++ footer 1 1 0

theorem decoded_own_bytes_inside : ∃ m, fromBytes inside = .ok m ∧ m.ReadsSafely sixtyFourGib := by
  have hfirst : (fromBytes inside).toOption.any (fun m =>
      decide (m.iter.remaining = 1 ∧
        runAt (decodeHeader m.data m.entriesEnd) 0 = (.ok ⟨36, 0, "a", 1⟩, 19) ∧
        runAt (decodeEntry m.data m.entriesEnd) 0 = (.ok ⟨0, "a", [⟨0, 5, [7]⟩]⟩, 36))) = true := by
    decide +kernel
  simp only [Option.any_eq_true, decide_eq_true_eq] at hfirst
  obtain ⟨m, hm, hone, hheader, hentry⟩ := hfirst
  rw [toOption_eq_some] at hm
  refine ⟨m, hm, (decoded_own_bytes hm sixtyFourGib).2.mpr ?_⟩
  have hwalks := walks_iter (fromBytes_ok hm).2
  -- After the only entry no other follows.
  have hlast : ∀ it, m.Reaches sixtyFourGib it → it = m.iter ∨ it.remaining = 0 := by
    intro it hreach
    induction hreach with
    | refl => exact .inl rfl
    | tail hreach hstep ih =>
      obtain ⟨item, hnext⟩ := hstep
      rcases ih with rfl | hzero
      · rw [hwalks.next_of_pos (by omega)] at hnext
        cases hnext
        exact .inr (by simp [hone])
      · exact .inr ((hwalks.reaches hreach).next_of_zero hzero hnext).2.1
  intro it hreach hpos
  obtain rfl : it = m.iter := (hlast it hreach).resolve_right (by omega)
  show m.CleanAt sixtyFourGib 0
  constructor
  · intro len sequence location count hheaded
    have hrun := hheaded.decode (Nat.zero_le _)
    rw [hheader] at hrun
    simp only [Prod.mk.injEq, Except.ok.injEq, EntryHeader.mk.injEq] at hrun
    obtain ⟨⟨-, -, -, rfl⟩, -⟩ := hrun
    rfl
  · intro len e hspelled
    have hrun := hspelled.run (Nat.zero_le _)
    rw [hentry] at hrun
    simp only [Prod.mk.injEq, Except.ok.injEq] at hrun
    obtain ⟨rfl, hlen⟩ := hrun
    rw [length_entryBody, show entryBodyLen "a" [⟨0, 5, [7]⟩] = 32 by decide]
    simp only [entryLenSize] at hlen
    omega

end OpenData.Buffer

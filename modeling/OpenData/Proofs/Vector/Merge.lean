import Mathlib.Combinatorics.Colex
import OpenData.Lib.Regroup
import OpenData.Proofs.Vector.Postings
import OpenData.Proofs.Vector.Serde
import OpenData.Vector.Merge

/-!
# The merge operator of the vector store may regroup its operands

The store combines the operands of a key when it likes: consecutive operands may be merged on their
own, and the result into the value later. Each kind of record has a specification of its merge in
terms of what the bytes stand for, and `regroup` lifts it to groups (`mergeBatch_groups`).
-/

namespace OpenData.Vector

open Lib Common List VectorId Int32

/-! ### Posting lists: the bytes of a merge -/

variable {u : PostingUpdate Floats} {sources : List (List (PostingUpdate Floats))}
  {values : List (PostingListValue Floats)}

section

variable {dimensions : Nat}

def FitsPosting (dimensions : Nat) (u : PostingUpdate Floats) : Prop :=
  ∀ v ∈ u.value?, v.length = dimensions

def encodePostings (updates : List (PostingUpdate Floats)) : Bytes := updates.flatMap encodePosting

theorem encodePostings_cons (u : PostingUpdate Floats) (updates : List (PostingUpdate Floats)) :
    encodePostings (u :: updates) = encodePosting u ++ encodePostings updates := rfl

theorem length_encode (id : VectorId) : id.encode.length = 8 := length_toBe 8 _

theorem decode_encode_append (id : VectorId) (rest : Bytes) :
    decode (id.encode ++ rest) = .ok (id, rest) := by
  obtain ⟨bytes, hencode, hdecode⟩ := id.roundTrips
  obtain rfl : id.encode = bytes := Except.ok.inj hencode
  exact hdecode rest

theorem peekEntry_encode (hu : FitsPosting dimensions u) (rest : Bytes) :
    peekEntry dimensions (encodePosting u ++ rest) =
      .ok (some (u.key, (encodePosting u).length)) := by
  cases u with
  | append id v =>
    have hlen : v.length = dimensions := hu v rfl
    show peekEntry dimensions (appendByte :: (id.encode ++ v.flatMap encodeFloat ++ rest)) = _
    rw [peekEntry, if_neg (by simp [length_encode]), append_assoc, decode_encode_append]
    have hsize : entrySize dimensions appendByte = (encodePosting (.append id v)).length := by
      simp [entrySize, encodePosting, length_encode, length_flatMap, encodeFloat, length_toLe, hlen]
      omega
    simp only [hsize, Update.key]
  | delete id =>
    show peekEntry dimensions (deleteByte :: (id.encode ++ rest)) = _
    rw [peekEntry, if_neg (by simp [length_encode]), decode_encode_append]
    simp [entrySize, encodePosting, length_encode, appendByte, deleteByte, Update.key]

theorem takeEntry_append (entry rest : Bytes) :
    takeEntry entry.length (entry ++ rest) = .ok (entry, rest) := by
  rw [takeEntry, if_neg (by simp), take_left, drop_left]

theorem popEntry_encode (hfits : ∀ s ∈ sources, ∀ u ∈ s, FitsPosting dimensions u) :
    popEntry dimensions (sources.map encodePostings) =
      .ok ((popMin (fun u => u.key.id) sources).map fun p =>
        (p.1.key, encodePosting p.1, p.2.map encodePostings)) := by
  induction sources with
  | nil => rfl
  | cons s sources ih =>
    obtain ⟨hs, hsources⟩ := forall_mem_cons.mp hfits
    rw [map_cons, popEntry, ih hsources]
    cases s with
    | nil =>
      show Except.ok _ = _
      rw [popMin, Option.map_map, Option.map_map]
      rfl
    | cons u s =>
      have hpeek := peekEntry_encode (hs u mem_cons_self) (encodePostings s)
      have htake := takeEntry_append (encodePosting u) (encodePostings s)
      rw [encodePostings_cons, popMin]
      cases hpop : popMin (fun u : PostingUpdate Floats => u.key.id) sources with
      | none =>
        simp only [Option.map_none, hpeek, htake, bind, Except.bind]
        rfl
      | some popped =>
        obtain ⟨b, rest⟩ := popped
        simp only [Option.map_some, hpeek, htake, bind, Except.bind]
        split <;> rfl

def Mergeable (dimensions : Nat) (sources : List (List (PostingUpdate Floats))) : Prop :=
  ∀ s ∈ sources, s.Pairwise (fun u u' => u.key.id < u'.key.id) ∧ ∀ u ∈ s, FitsPosting dimensions u

theorem Mergeable.popMin {rest}
    (h : Mergeable dimensions sources)
    (hpop : popMin (fun u => u.key.id) sources = some (u, rest)) :
    Mergeable dimensions rest := by
  have hpopped := popped_of_popMin (fun s hs => (h s hs).1) hpop
  intro s hs
  refine ⟨hpopped.sorted s hs, fun b hb => ?_⟩
  obtain ⟨t, ht, hbt⟩ := hpopped.subset s hs b hb
  exact (h t ht).2 b hbt

theorem Mergeable.without (h : Mergeable dimensions sources) (k : Nat) :
    Mergeable dimensions (without (fun u => u.key.id) k sources) := by
  intro s hs
  obtain ⟨t, ht, rfl⟩ := mem_map.mp hs
  exact ⟨(h t ht).1.filter _, fun u hu => (h t ht).2 u (mem_of_mem_filter hu)⟩

theorem skipEntries_encode (fuel : Nat) (h : Mergeable dimensions sources) (id : VectorId) :
    skipEntries dimensions id fuel (sources.map encodePostings) =
      .ok ((skipEqual (fun u => u.key.id) id.id fuel sources).map encodePostings) := by
  induction fuel generalizing sources with
  | zero => rfl
  | succ fuel ih =>
    rw [skipEntries, popEntry_encode fun s hs => (h s hs).2, skipEqual]
    cases hpop : popMin (fun u : PostingUpdate Floats => u.key.id) sources with
    | none => rfl
    | some popped =>
      obtain ⟨u, rest⟩ := popped
      show (if u.key = id then skipEntries dimensions id fuel (rest.map encodePostings) else _) =
        Except.ok ((if u.key.id = id.id then _ else _ : List _).map _)
      rw [ih (h.popMin hpop)]
      by_cases hid : u.key = id
      · rw [if_pos hid, if_pos (congrArg VectorId.id hid)]
      · rw [if_neg hid, if_neg fun heq => hid (id_injective heq)]

theorem length_le_length_encodePostings (updates : List (PostingUpdate Floats)) :
    updates.length ≤ (encodePostings updates).length := by
  induction updates with
  | nil => rfl
  | cons u =>
    have hone : 1 ≤ (encodePosting u).length := by cases u <;> simp [encodePosting]
    rw [encodePostings_cons, length_cons, length_append]
    omega

theorem length_flatten_le (sources : List (List (PostingUpdate Floats))) :
    sources.flatten.length ≤ (sources.map encodePostings).flatten.length := by
  induction sources with
  | nil => rfl
  | cons s =>
    have hs := length_le_length_encodePostings s
    simp only [map_cons, flatten_cons, length_append]
    omega

theorem mergeEntries_encode {fuel} (h : Mergeable dimensions sources)
    (hfuel : sources.flatten.length ≤ fuel) :
    mergeEntries dimensions fuel (sources.map encodePostings) =
      .ok (encodePostings (lastWinsMerge (fun u => u.key.id) sources)) := by
  rw [← kWayLoop_eq (fun s hs => (h s hs).1) hfuel]
  induction fuel generalizing sources with
  | zero => rfl
  | succ fuel ih =>
    rw [mergeEntries, popEntry_encode fun s hs => (h s hs).2, kWayLoop]
    cases hpop : popMin (fun u : PostingUpdate Floats => u.key.id) sources with
    | none => rfl
    | some popped =>
      obtain ⟨u, rest⟩ := popped
      have hpopped := popped_of_popMin (fun s hs => (h s hs).1) hpop
      -- Both loops skip all updates with the id, whatever bounds their rounds.
      have hskip : ∀ n, rest.flatten.length ≤ n →
          skipEqual (fun u : PostingUpdate Floats => u.key.id) u.key.id n rest =
            without (fun u => u.key.id) u.key.id rest := by
        intro n hn
        refine skipEqual_eq hpopped.sorted (fun s hs b hb => ?_) hn
        obtain ⟨t, ht, hbt⟩ := hpopped.subset s hs b hb
        exact hpopped.least t ht b hbt
      have hlength : (without (fun u : PostingUpdate Floats => u.key.id) u.key.id
          rest).flatten.length ≤ fuel := by
        have hle := flatten_length_without (fun u : PostingUpdate Floats => u.key.id) u.key.id rest
        have hrest := hpopped.length
        omega
      show (skipEntries dimensions u.key _ (rest.map encodePostings) >>= fun rest =>
        mergeEntries dimensions fuel rest >>= fun result => _) =
        Except.ok (encodePostings (u :: kWayLoop (fun u => u.key.id) fuel
          (skipEqual (fun u => u.key.id) u.key.id rest.flatten.length rest)))
      rw [skipEntries_encode _ (h.popMin hpop), hskip _ (length_flatten_le rest)]
      show (mergeEntries dimensions fuel (List.map encodePostings _) >>= fun result => _) = _
      rw [ih ((h.popMin hpop).without _) hlength, hskip _ le_rfl]
      rfl

namespace PostingListValue

theorem sorted_of_mem_map {s} (hs : s ∈ values.map postings) :
    s.Pairwise fun u u' => u.key.id < u'.key.id := by
  obtain ⟨value, -, rfl⟩ := mem_map.mp hs
  exact value.sorted

theorem postings_mergeBatch (existing : Option (PostingListValue Floats))
    (operands : List (PostingListValue Floats)) : (mergeBatch existing operands).postings =
      lastWinsMerge (fun u => u.key.id) ((existing.toList ++ operands).map postings) := by
  match existing, operands with
  | none, [] => rfl
  | some value, [] => exact (lastWinsMerge_singleton value.sorted).symm
  | none, [operand] => exact (lastWinsMerge_singleton operand.sorted).symm
  | none, _ :: _ :: _ => exact kWayMerge_eq fun s hs => sorted_of_mem_map hs
  | some _, [_] => exact kWayMerge_eq fun s hs => sorted_of_mem_map hs
  | some _, _ :: _ :: _ => exact kWayMerge_eq fun s hs => sorted_of_mem_map hs

/-- All vectors have the dimensions of the collection. -/
def Fits (dimensions : Nat) (value : PostingListValue Floats) : Prop :=
  ∀ u ∈ value.postings, FitsPosting dimensions u

variable {existing : Option (PostingListValue Floats)} {operands : List (PostingListValue Floats)}

theorem fits_mergeBatch (h : ∀ value ∈ existing.toList ++ operands, value.Fits dimensions) :
    (mergeBatch existing operands).Fits dimensions := by
  intro u hu
  rw [postings_mergeBatch] at hu
  obtain ⟨s, hs, hus⟩ := mem_flatten.mp (mem_flatten_of_mem_lastWinsMerge hu)
  obtain ⟨value, hvalue, rfl⟩ := mem_map.mp hs
  exact h value hvalue u hus

theorem mergeEntries_encodeToBytes (h : ∀ value ∈ values, value.Fits dimensions) :
    mergeEntries dimensions
      ((values.map encodeToBytes).filter fun buf => !buf.isEmpty).flatten.length
      ((values.map encodeToBytes).filter fun buf => !buf.isEmpty) =
      .ok (encodePostings (lastWinsMerge (fun u => u.key.id) (values.map postings))) := by
  let sources := (values.filter fun value => !value.encodeToBytes.isEmpty).map postings
  have hbuffers : (values.map encodeToBytes).filter (fun buf => !buf.isEmpty) =
      sources.map encodePostings := by
    rw [filter_map, map_map]
    rfl
  have hmergeable : Mergeable dimensions sources := by
    intro s hs
    obtain ⟨value, hvalue, rfl⟩ := mem_map.mp hs
    exact ⟨value.sorted, h value (mem_of_mem_filter hvalue)⟩
  rw [hbuffers, mergeEntries_encode hmergeable (length_flatten_le sources)]
  refine congrArg (fun updates => Except.ok (encodePostings updates))
    (eq_of_find?_eq (pairwise_lastWinsMerge _) (pairwise_lastWinsMerge _) fun k => ?_)
  rw [find?_lastWinsMerge, find?_lastWinsMerge, lastWins_map_filter]
  intro value hempty
  have hle : value.postings.length ≤ value.encodeToBytes.length :=
    length_le_length_encodePostings value.postings
  have hnil : value.encodeToBytes = [] := by simpa using hempty
  rw [hnil] at hle
  exact length_eq_zero_iff.mp (Nat.le_zero.mp hle)

theorem mergeBatchPostingList_encodeToBytes
    (h : ∀ value ∈ existing.toList ++ operands, value.Fits dimensions) :
    mergeBatchPostingList dimensions (existing.map encodeToBytes) (operands.map encodeToBytes) =
      .ok (mergeBatch existing operands).encodeToBytes := by
  have hmerge := mergeEntries_encodeToBytes h
  rw [← postings_mergeBatch] at hmerge
  match existing, operands with
  | none, [] => rfl
  | some value, [] => rfl
  | none, [operand] => rfl
  | none, _ :: _ :: _ => exact hmerge
  | some _, [_] => exact hmerge
  | some _, _ :: _ :: _ => exact hmerge

end PostingListValue

end

/-! ### The metadata index: the newest say on each id -/

/-- What is serialized is read back. -/
structure BitmapCodec.RoundTrip (codec : BitmapCodec) : Prop where
  total : ∀ ids, ∃ bytes, codec.serialize ids = .ok bytes
  deserialize : ∀ {ids bytes}, codec.serialize ids = .ok bytes → codec.deserialize bytes = .ok ids

variable {value : MetadataIndexValue} {existing : Option Bytes} {e : Option MetadataIndexValue}

namespace MetadataIndexValue

def status (value : MetadataIndexValue) (id : Nat) : Option Bool :=
  if id ∈ value.included then some true else if id ∈ value.excluded then some false else none

@[simp] theorem status_empty (id : Nat) : empty.status id = none := rfl

theorem disjoint_makeMutuallyExclusive (value : MetadataIndexValue) :
    Disjoint value.makeMutuallyExclusive.included value.makeMutuallyExclusive.excluded := by
  rw [Finset.disjoint_left]
  intro id hin hout
  simp only [makeMutuallyExclusive, Finset.mem_sdiff, Finset.mem_inter, not_and] at hin hout
  exact hout.2 hin hout.1

theorem makeMutuallyExclusive_of_disjoint (h : Disjoint value.included value.excluded) :
    value.makeMutuallyExclusive = value := by
  simp [makeMutuallyExclusive, Finset.disjoint_iff_inter_eq_empty.mp h]

theorem status_mergePair (newer older : MetadataIndexValue) (id : Nat) :
    (newer.mergePair older).status id = (newer.status id).or (older.status id) := by
  simp only [mergePair, makeMutuallyExclusive, status, Finset.mem_union, Finset.mem_sdiff,
    Finset.mem_inter]
  by_cases hin : id ∈ newer.included
  · simp [hin]
  · by_cases hout : id ∈ newer.excluded
    · simp [hin, hout]
    · by_cases hin' : id ∈ older.included <;> by_cases hout' : id ∈ older.excluded <;>
        simp [hin, hout, hin', hout']

theorem status_eq_true {id} : value.status id = some true ↔ id ∈ value.included := by
  unfold status
  split
  · simp_all
  · split <;> simp_all

theorem status_eq_false (h : Disjoint value.included value.excluded) {id} :
    value.status id = some false ↔ id ∈ value.excluded := by
  unfold status
  split
  · rename_i hin
    simp [Finset.disjoint_left.mp h hin]
  · split <;> simp_all

theorem eq_of_status_eq {a b : MetadataIndexValue} (ha : Disjoint a.included a.excluded)
    (hb : Disjoint b.included b.excluded) (h : ∀ id, a.status id = b.status id) : a = b := by
  have hin : a.included = b.included := by
    ext id
    rw [← status_eq_true, h, status_eq_true]
  have hout : a.excluded = b.excluded := by
    ext id
    rw [← status_eq_false ha, h, status_eq_false hb]
  cases a
  cases b
  exact congrArg₂ mk hin hout

def mergeAll (existing : Option MetadataIndexValue) (operands : List MetadataIndexValue) :
    MetadataIndexValue :=
  operands.foldl (fun merged newer => newer.mergePair merged) (existing.getD empty)

theorem disjoint_mergeAll {existing : Option MetadataIndexValue}
    (operands : List MetadataIndexValue)
    (h : ∀ value ∈ existing, Disjoint value.included value.excluded) :
    Disjoint (mergeAll existing operands).included (mergeAll existing operands).excluded := by
  rcases eq_nil_or_concat' operands with rfl | ⟨operands, newer, rfl⟩
  · cases existing with
    | none => exact Finset.disjoint_empty_left ∅
    | some value => exact h value rfl
  · rw [mergeAll, foldl_concat]
    exact disjoint_makeMutuallyExclusive _

theorem status_mergeAll (existing : Option MetadataIndexValue) (operands : List MetadataIndexValue)
    (id : Nat) : (mergeAll existing operands).status id =
      (existing.toList ++ operands).reverse.findSome? fun value => value.status id := by
  have hloop : ∀ start : MetadataIndexValue,
      (operands.foldl (fun merged newer => newer.mergePair merged) start).status id =
        (operands.reverse.findSome? fun value => value.status id).or (start.status id) := by
    induction operands with
    | nil => intro start; simp
    | cons newer operands ih =>
      intro start
      rw [foldl_cons, ih, status_mergePair, reverse_cons, List.findSome?_append, Option.or_assoc]
      simp
  rw [mergeAll, hloop, reverse_append, List.findSome?_append]
  cases existing <;> simp

theorem mergeAll_flatten {existing : Option MetadataIndexValue}
    (groups : List (List MetadataIndexValue))
    (h : ∀ value ∈ existing, Disjoint value.included value.excluded) :
    mergeAll existing (groups.map (mergeAll none)) = mergeAll existing groups.flatten := by
  refine eq_of_status_eq (disjoint_mergeAll _ h) (disjoint_mergeAll _ h) fun id => ?_
  have hgroups : (groups.map (mergeAll none)).reverse.findSome? (fun value => value.status id) =
      groups.flatten.reverse.findSome? fun value => value.status id := by
    induction groups with
    | nil => rfl
    | cons g groups ih =>
      rw [map_cons, reverse_cons, List.findSome?_append, ih, flatten_cons,
        reverse_append, List.findSome?_append]
      have hone := status_mergeAll none g id
      simp only [Option.toList_none, nil_append] at hone
      rw [← hone]
      simp
  rw [status_mergeAll, status_mergeAll, reverse_append, reverse_append,
    List.findSome?_append, List.findSome?_append, hgroups]

variable {codec : BitmapCodec} {ids : Finset Nat}

theorem of_encodeBitmap {out} (h : encodeBitmap codec ids = .ok out) :
    ∃ bytes, codec.serialize ids = .ok bytes ∧ bytes.length < 2 ^ 32 ∧
      out = toLe 4 bytes.length ++ bytes := by
  obtain ⟨bytes, hbytes, h⟩ := exists_of_bind_eq_ok h
  split at h
  · rename_i hlen
    refine ⟨bytes, ?_, hlen, (Except.ok.inj h).symm⟩
    cases hserialize : codec.serialize ids with
    | error => simp [hserialize, Except.mapError] at hbytes
    | ok => simpa [hserialize, Except.mapError] using hbytes
  · exact absurd h (by simp)

theorem encodeBitmap_eq_ok {bytes} (h : codec.serialize ids = .ok bytes)
    (hlen : bytes.length < 2 ^ 32) :
    encodeBitmap codec ids = .ok (toLe 4 bytes.length ++ bytes) := by
  rw [encodeBitmap, h]
  show (if bytes.length < 2 ^ 32 then Except.ok _ else _) = _
  rw [if_pos hlen]

theorem decodeFromBytes_append {included excluded bytes bytes'}
    (hincluded : codec.deserialize bytes = .ok included) (hlen : bytes.length < 2 ^ 32)
    (hexcluded : codec.deserialize bytes' = .ok excluded) (hlen' : bytes'.length < 2 ^ 32) :
    decodeFromBytes codec ((toLe 4 bytes.length ++ bytes) ++ (toLe 4 bytes'.length ++ bytes')) =
      .ok (makeMutuallyExclusive { included, excluded }) := by
  have hread : ofLe (((toLe 4 bytes.length ++ bytes) ++ (toLe 4 bytes'.length ++ bytes')).take 4) =
      bytes.length := by
    rw [append_assoc, take_left' (length_toLe 4 _)]
    exact ofLe_toLe_of_lt hlen
  have hbytes : (((toLe 4 bytes.length ++ bytes) ++ (toLe 4 bytes'.length ++ bytes')).drop 4).take
      bytes.length = bytes := by
    rw [append_assoc, drop_left' (length_toLe 4 _), take_left]
  have hrest : ((toLe 4 bytes.length ++ bytes) ++ (toLe 4 bytes'.length ++ bytes')).drop
      (4 + bytes.length) = toLe 4 bytes'.length ++ bytes' :=
    drop_left' (by rw [length_append, length_toLe])
  have hread' : ofLe ((toLe 4 bytes'.length ++ bytes').take 4) = bytes'.length := by
    rw [take_left' (length_toLe 4 _)]
    exact ofLe_toLe_of_lt hlen'
  have hbytes' : ((toLe 4 bytes'.length ++ bytes').drop 4).take bytes'.length = bytes' := by
    rw [drop_left' (length_toLe 4 _), take_length]
  simp only [decodeFromBytes, hread, hbytes, hincluded, bind, Except.bind, hrest, hread', hbytes',
    hexcluded]
  rw [if_neg (by simp [length_toLe]; omega), if_neg (by simp [length_toLe]; omega),
    if_neg (by simp [length_toLe])]

theorem decodeFromBytes_encodeToBytes (hcodec : codec.RoundTrip)
    (hdisjoint : Disjoint value.included value.excluded) {v}
    (h : value.encodeToBytes codec = .ok v) : decodeFromBytes codec v = .ok value := by
  rw [encodeToBytes, makeMutuallyExclusive_of_disjoint hdisjoint] at h
  obtain ⟨included, hincluded, h⟩ := exists_of_bind_eq_ok h
  obtain ⟨excluded, hexcluded, h⟩ := exists_of_bind_eq_ok h
  obtain ⟨bytes, hbytes, hlen, rfl⟩ := of_encodeBitmap hincluded
  obtain ⟨bytes', hbytes', hlen', rfl⟩ := of_encodeBitmap hexcluded
  cases h
  rw [decodeFromBytes_append (hcodec.deserialize hbytes) hlen (hcodec.deserialize hbytes') hlen',
    makeMutuallyExclusive_of_disjoint hdisjoint]

theorem disjoint_of_decodeFromBytes {v} (h : decodeFromBytes codec v = .ok value) :
    Disjoint value.included value.excluded := by
  simp only [decodeFromBytes] at h
  split at h
  · exact absurd h (by simp)
  · split at h
    · exact absurd h (by simp)
    · obtain ⟨included, -, h⟩ := exists_of_bind_eq_ok h
      split at h
      · exact absurd h (by simp)
      · obtain ⟨excluded, -, h⟩ := exists_of_bind_eq_ok h
        rw [← Except.ok.inj h]
        exact disjoint_makeMutuallyExclusive _

theorem disjoint_of_rel (h : Option.Rel (fun v a => decodeFromBytes codec v = .ok a) existing e) :
    ∀ value ∈ e, Disjoint value.included value.excluded := by
  cases h with
  | none => simp
  | some hdecode => simpa using disjoint_of_decodeFromBytes hdecode

end MetadataIndexValue

variable {operands : List Bytes}

theorem mergeBatchMetadataIndex_eq {codec values}
    (hexisting : Option.Rel (fun v a => MetadataIndexValue.decodeFromBytes codec v = .ok a)
      existing e)
    (hoperands : Forall₂ (fun v a => MetadataIndexValue.decodeFromBytes codec v = .ok a)
      operands values) : mergeBatchMetadataIndex codec existing operands =
      (MetadataIndexValue.mergeAll e values).encodeToBytes codec := by
  have hstart : (existing.elim (.ok .empty) (MetadataIndexValue.decodeFromBytes codec)).mapError
      Fault.err = .ok (e.getD .empty) := by
    cases hexisting with
    | none => rfl
    | some h => simp [h, Except.mapError]
  have hloop : ∀ start, operands.foldlM (fun merged operand => do
        let newer ← (MetadataIndexValue.decodeFromBytes codec operand).mapError Fault.err
        Except.ok (newer.mergePair merged)) start =
      .ok (values.foldl (fun merged newer => newer.mergePair merged) start) := by
    induction hoperands with
    | nil => intro start; rfl
    | cons h _ ih =>
      intro start
      rw [foldlM_cons, h]
      exact ih _
  rw [mergeBatchMetadataIndex, hstart]
  show (operands.foldlM _ (e.getD .empty) >>= fun merged => merged.encodeToBytes codec) = _
  rw [hloop]
  rfl

/-! ### Counts -/

variable {counts : List Int} {e : Option Int}

namespace CentroidStatsValue

/-- The bytes hold the count. -/
def Holds (v : Bytes) (n : Int) : Prop :=
  ∃ stats, decodeFromBytes v = .ok stats ∧ stats.numVectors.toInt = n

/-- The count in the bytes. -/
def countOf (v : Bytes) : Int :=
  (decodeFromBytes v).toOption.elim 0 fun stats => stats.numVectors.toInt

theorem eq_map_countOf {values} (h : Forall₂ Holds values counts) :
    counts = values.map countOf := by
  induction h with
  | nil => rfl
  | cons hholds _ ih =>
    obtain ⟨stats, hdecode, rfl⟩ := hholds
    rw [map_cons, ← ih, countOf, hdecode]
    rfl

theorem holds_encodeToBytes {n} (h : FitsI32 n) :
    Holds (encodeToBytes { numVectors := ofInt n }) n := by
  refine ⟨{ numVectors := ofInt n }, ?_, toInt_ofInt_of_le h.1 h.2⟩
  rw [decodeFromBytes, encodeToBytes, takeBytes, if_neg (by simp [length_toLe]),
    take_of_length_le (by simp [length_toLe])]
  show Except.ok _ = _
  rw [ofLe_toLe_uint32, toInt32_toUInt32]

/-- No sum of consecutive counts overflows. -/
def NoOverflow (counts : List Int) : Prop := ∀ part, part <:+: counts → FitsI32 part.sum

theorem checkedAdd_ofInt {a b} (ha : FitsI32 a) (h : FitsI32 (a + b.toInt)) :
    checkedAdd (ofInt a) b = .ok (ofInt (a + b.toInt)) := by
  rw [checkedAdd, toInt_ofInt_of_le ha.1 ha.2, if_pos h, ofInt_add, ofInt_toInt]

theorem mergeBatchCentroidStats_eq (hexisting : Option.Rel Holds existing e)
    (hoperands : Forall₂ Holds operands counts) (h : NoOverflow (e.toList ++ counts)) :
    mergeBatchCentroidStats existing operands =
      .ok (encodeToBytes { numVectors := ofInt (e.getD 0 + counts.sum) }) := by
  have hstart : (existing.elim (.ok { numVectors := 0 }) decodeFromBytes).mapError Fault.err =
      .ok { numVectors := ofInt (e.getD 0) } := by
    cases hexisting with
    | none => rfl
    | some hholds =>
      obtain ⟨stats, hdecode, rfl⟩ := hholds
      simp [hdecode, Except.mapError]
  -- The running total is the sum of a first part of the counts.
  have hloop : ∀ start, (∀ part, part <+: counts → FitsI32 (start + part.sum)) → operands.foldlM
        (fun total operand => do
          let stats ← (decodeFromBytes operand).mapError Fault.err
          checkedAdd total stats.numVectors) (ofInt start) =
        .ok (ofInt (start + counts.sum)) := by
    clear h
    induction hoperands with
    | nil => intro start _; simp; rfl
    | @cons operand n operands counts hholds _ ih =>
      intro start hfits
      obtain ⟨stats, hdecode, rfl⟩ := hholds
      have hstart : FitsI32 start := by simpa using hfits [] nil_prefix
      have hnext : FitsI32 (start + stats.numVectors.toInt) := by
        simpa using hfits [_] (by simp)
      rw [foldlM_cons, hdecode]
      show (checkedAdd (ofInt start) stats.numVectors >>= fun total => _) = _
      rw [checkedAdd_ofInt hstart hnext, sum_cons, ← add_assoc]
      refine ih _ fun part hpart => ?_
      have hpart' := hfits (stats.numVectors.toInt :: part) (cons_prefix_cons.mpr ⟨rfl, hpart⟩)
      rwa [sum_cons, ← add_assoc] at hpart'
  rw [mergeBatchCentroidStats, hstart]
  show (operands.foldlM _ (ofInt (e.getD 0)) >>= fun total =>
    Except.ok (encodeToBytes { numVectors := total })) = _
  rw [hloop]
  · rfl
  · intro part hpart
    have hfits := h (e.toList ++ part) ((prefix_append_right_inj _).mpr hpart).isInfix
    cases e <;> simpa using hfits

end CentroidStatsValue

/-! ### Groups -/

variable {results : List Bytes} {groups : List (List Bytes)}

variable {dimensions : Nat} {codec : BitmapCodec}

namespace PostingListValue

def Holds (dimensions : Nat) (v : Bytes) (value : PostingListValue Floats) : Prop :=
  v = value.encodeToBytes ∧ value.Fits dimensions

theorem of_forall₂_holds (h : Forall₂ (Holds dimensions) operands values) :
    operands = values.map encodeToBytes ∧ ∀ value ∈ values, value.Fits dimensions := by
  induction h with
  | nil => exact ⟨rfl, by simp⟩
  | cons hholds _ ih =>
    exact ⟨congrArg₂ List.cons hholds.1 ih.1, forall_mem_cons.mpr ⟨hholds.2, ih.2⟩⟩

variable {e : Option (PostingListValue Floats)}

theorem mergeBatchPostingList_eq (hexisting : Option.Rel (Holds dimensions) existing e)
    (hoperands : Forall₂ (Holds dimensions) operands values) :
    mergeBatchPostingList dimensions existing operands =
      .ok (mergeBatch e values).encodeToBytes ∧ (mergeBatch e values).Fits dimensions := by
  obtain ⟨rfl, hfits⟩ := of_forall₂_holds hoperands
  obtain ⟨rfl, he⟩ : existing = e.map encodeToBytes ∧
      ∀ value ∈ e.toList, value.Fits dimensions := by
    cases hexisting with
    | none => exact ⟨rfl, by simp⟩
    | some hholds => exact ⟨congrArg some hholds.1, by simpa using hholds.2⟩
  have hall : ∀ value ∈ e.toList ++ values, value.Fits dimensions :=
    fun value hvalue => (mem_append.mp hvalue).elim (he value) (hfits value)
  exact ⟨mergeBatchPostingList_encodeToBytes hall, fits_mergeBatch hall⟩

theorem mergeBatch_flatten (e : Option (PostingListValue Floats))
    (groups : List (List (PostingListValue Floats))) :
    mergeBatch e (groups.map (mergeBatch none)) = mergeBatch e groups.flatten := by
  have hpostings : (mergeBatch e (groups.map (mergeBatch none))).postings =
      (mergeBatch e groups.flatten).postings := by
    have hgroups : (groups.map (mergeBatch none)).map postings =
        (groups.map (List.map postings)).map (lastWinsMerge fun u => u.key.id) := by
      rw [map_map, map_map]
      exact map_congr_left fun g _ => postings_mergeBatch none g
    rw [postings_mergeBatch, postings_mergeBatch, map_append, map_append, hgroups,
      lastWinsMerge_flatten, map_flatten]
  cases h : mergeBatch e (groups.map (mergeBatch none))
  cases h' : mergeBatch e groups.flatten
  simp only [h, h'] at hpostings
  subst hpostings
  rfl

theorem mem_mergeBatch : u ∈ (mergeBatch e values).postings ↔
      ((e.toList ++ values).flatMap postings).reverse.find? (fun u' => u'.key = u.key) =
        some u := by
  have hkey : (fun u' : PostingUpdate Floats => decide (u'.key = u.key)) =
      fun u' => decide (u'.key.id = u.key.id) := by
    funext u'
    exact decide_eq_decide.mpr id_injective.eq_iff.symm
  rw [postings_mergeBatch, mem_lastWinsMerge fun s hs => sorted_of_mem_map hs, hkey, flatMap_def]

end PostingListValue

/-! ### Sums in groups -/

namespace CentroidStatsValue

theorem NoOverflow.of_part {part} (h : NoOverflow counts) (hpart : part <:+: counts) :
    NoOverflow part := fun _ hsub => h _ (hsub.trans hpart)

theorem NoOverflow.map_sum {groups : List (List Int)}
    (h : NoOverflow (e.toList ++ groups.flatten)) :
    NoOverflow (e.toList ++ groups.map List.sum) := by
  have hmap : e.toList ++ groups.map List.sum =
      (e.toList.map (fun n => [n]) ++ groups).map List.sum := by
    cases e <;> simp
  have hflat : e.toList ++ groups.flatten = (e.toList.map (fun n => [n]) ++ groups).flatten := by
    cases e <;> simp
  intro part hpart
  rw [hmap] at hpart
  obtain ⟨parts, hparts, rfl⟩ := infix_map_iff.mp hpart
  rw [← sum_flatten]
  refine h _ ?_
  rw [hflat]
  obtain ⟨before, after, heq⟩ := hparts
  exact ⟨before.flatten, after.flatten, by rw [← heq, flatten_append, flatten_append]⟩

end CentroidStatsValue

/-! ### The operator -/

/-- What the values of a record type are: encodings of posting lists, and bytes that decode. -/
def Valid (dimensions : Nat) (codec : BitmapCodec) : RecordType → Bytes → Prop
  | .postingList, v => ∃ value, PostingListValue.Holds dimensions v value
  | .metadataIndex, v => ∃ value, MetadataIndexValue.decodeFromBytes codec v = .ok value
  | .centroidStats, v => ∃ n, CentroidStatsValue.Holds v n
  | _, _ => True

/-- The record types whose merge is not a replacement. -/
def RecordType.Merged (t : RecordType) : Prop :=
  t = .postingList ∨ t = .metadataIndex ∨ t = .centroidStats

section

variable {key : Bytes} {t : RecordType} (hkey : recordTypeOf key = some t)

include hkey in
theorem mergeBatch_of_not_merged (ht : ¬t.Merged) (existing : Option Bytes)
    (operands : List Bytes) :
    mergeBatch dimensions codec key existing operands = operands.getLast?.or existing := by
  rw [← defaultMergeBatch_eq, mergeBatch, hkey]
  cases t <;> simp_all [RecordType.Merged]

theorem regroup_postingList (hkey : recordTypeOf key = some .postingList)
    (hvalid : ∀ v ∈ existing.toList ++ groups.flatten, Valid dimensions codec .postingList v)
    (hresults : groups.mapM (mergeBatch dimensions codec key none) = some results) :
    mergeBatch dimensions codec key existing results =
      mergeBatch dimensions codec key existing groups.flatten := by
  obtain ⟨e, gs, hexisting, hgroups⟩ := exists_forall₂_groups hvalid
  refine (regroup (fun value : PostingListValue Floats => (· = some value.encodeToBytes))
    PostingListValue.mergeBatch
    (fun _ _ => True) (fun he has _ => ?_) (fun hoperands _ hv => ?_) hexisting hgroups trivial
    (fun _ _ => trivial) trivial (PostingListValue.mergeBatch_flatten e gs) hresults).elim
      fun _ h => h.1.trans h.2.symm
  · rw [mergeBatch, hkey]
    exact toOption_eq_some.mpr (PostingListValue.mergeBatchPostingList_eq he has).1
  · exact ⟨Option.some.inj hv, (PostingListValue.mergeBatchPostingList_eq .none hoperands).2⟩

theorem regroup_metadataIndex (hcodec : codec.RoundTrip)
    (hkey : recordTypeOf key = some .metadataIndex)
    (hvalid : ∀ v ∈ existing.toList ++ groups.flatten, Valid dimensions codec .metadataIndex v)
    (hresults : groups.mapM (mergeBatch dimensions codec key none) = some results) :
    mergeBatch dimensions codec key existing results =
      mergeBatch dimensions codec key existing groups.flatten := by
  obtain ⟨e, gs, hexisting, hgroups⟩ := exists_forall₂_groups hvalid
  refine (regroup (fun value : MetadataIndexValue => (· = (value.encodeToBytes codec).toOption))
    MetadataIndexValue.mergeAll (fun _ _ => True) (fun he has _ => ?_) (fun _ _ hv => ?_) hexisting
    hgroups trivial (fun _ _ => trivial) trivial (MetadataIndexValue.mergeAll_flatten gs
      (MetadataIndexValue.disjoint_of_rel hexisting)) hresults).elim fun _ h => h.1.trans h.2.symm
  · rw [mergeBatch, hkey, ← mergeBatchMetadataIndex_eq he has]
    rfl
  · exact MetadataIndexValue.decodeFromBytes_encodeToBytes hcodec
      (MetadataIndexValue.disjoint_mergeAll _ (by simp)) (toOption_eq_some.mp hv.symm)

theorem regroup_centroidStats (hkey : recordTypeOf key = some .centroidStats)
    (hvalid : ∀ v ∈ existing.toList ++ groups.flatten, Valid dimensions codec .centroidStats v)
    (hcounts : CentroidStatsValue.NoOverflow
      ((existing.toList ++ groups.flatten).map CentroidStatsValue.countOf))
    (hresults : groups.mapM (mergeBatch dimensions codec key none) = some results) :
    mergeBatch dimensions codec key existing results =
      mergeBatch dimensions codec key existing groups.flatten := by
  obtain ⟨e, gs, hexisting, hgroups⟩ := exists_forall₂_groups hvalid
  have hflat : CentroidStatsValue.NoOverflow (e.toList ++ gs.flatten) := by
    rwa [CentroidStatsValue.eq_map_countOf (forall₂_append_of_rel hexisting (rel_flatten hgroups))]
  refine (regroup
    (fun n r => r = some (CentroidStatsValue.encodeToBytes { numVectors := Int32.ofInt n }))
    (fun e as => e.getD 0 + as.sum) (fun e as => CentroidStatsValue.NoOverflow (e.toList ++ as))
    (fun he has hok => ?_) (fun _ hok hv => ?_) hexisting hgroups hflat (fun g hg => ?_) ?_
    ?_ hresults).elim fun _ h => h.1.trans h.2.symm
  · rw [mergeBatch, hkey]
    exact toOption_eq_some.mpr (CentroidStatsValue.mergeBatchCentroidStats_eq he has hok)
  · rw [Option.some.inj hv]
    refine CentroidStatsValue.holds_encodeToBytes ?_
    simpa using hok _ (infix_refl _)
  · exact hflat.of_part ((infix_of_mem_flatten hg).trans (suffix_append _ _).isInfix)
  · simpa using hflat.map_sum
  · simp [sum_flatten]

/-- Sets of ids that occur in the values have bitmaps of less than `2 ^ 32` bytes. -/
def BitmapsFit (codec : BitmapCodec) (values : List Bytes) : Prop :=
  ∀ ids : Finset Nat,
    (∀ id ∈ ids, ∃ v ∈ values, ∃ value,
      MetadataIndexValue.decodeFromBytes codec v = .ok value ∧ value.status id ≠ none) →
    ∀ bytes, codec.serialize ids = .ok bytes → bytes.length < 2 ^ 32

theorem BitmapsFit.of_subset {values values'} (h : BitmapsFit codec values)
    (hsub : ∀ v ∈ values', v ∈ values) : BitmapsFit codec values' := by
  intro ids hids
  refine h ids fun id hid => ?_
  obtain ⟨v, hv, hvalue⟩ := hids id hid
  exact ⟨v, hsub v hv, hvalue⟩

theorem exists_encodeToBytes (hcodec : codec.RoundTrip) {values}
    (hfit : BitmapsFit codec values) (hdisjoint : Disjoint value.included value.excluded)
    (hids : ∀ id, value.status id ≠ none → ∃ v ∈ values, ∃ a,
      MetadataIndexValue.decodeFromBytes codec v = .ok a ∧ a.status id ≠ none) :
    ∃ v, value.encodeToBytes codec = .ok v := by
  obtain ⟨bytes, hbytes⟩ := hcodec.total value.included
  obtain ⟨bytes', hbytes'⟩ := hcodec.total value.excluded
  have hlen : bytes.length < 2 ^ 32 := by
    refine hfit _ (fun id hid => hids id ?_) bytes hbytes
    simp [MetadataIndexValue.status_eq_true.mpr hid]
  have hlen' : bytes'.length < 2 ^ 32 := by
    refine hfit _ (fun id hid => hids id ?_) bytes' hbytes'
    simp [(MetadataIndexValue.status_eq_false hdisjoint).mpr hid]
  refine ⟨(toLe 4 bytes.length ++ bytes) ++ (toLe 4 bytes'.length ++ bytes'), ?_⟩
  rw [MetadataIndexValue.encodeToBytes,
    MetadataIndexValue.makeMutuallyExclusive_of_disjoint hdisjoint]
  simp only [MetadataIndexValue.encodeBitmap_eq_ok hbytes hlen,
    MetadataIndexValue.encodeBitmap_eq_ok hbytes' hlen', bind, Except.bind]

/-- A merge of valid values returns: a replacement needs a value, and the bitmaps of the metadata
index have a length that is stored in four bytes. -/
theorem exists_mergeBatch (hkey : recordTypeOf key = some t) (hcodec : codec.RoundTrip)
    (hvalid : ∀ v ∈ existing.toList ++ operands, Valid dimensions codec t v)
    (hcounts : t = .centroidStats →
      CentroidStatsValue.NoOverflow ((existing.toList ++ operands).map CentroidStatsValue.countOf))
    (hbitmaps : t = .metadataIndex → BitmapsFit codec (existing.toList ++ operands))
    (hsome : ¬t.Merged → existing.toList ++ operands ≠ []) :
    ∃ v, mergeBatch dimensions codec key existing operands = some v := by
  by_cases ht : t.Merged
  · rcases ht with rfl | rfl | rfl
    · obtain ⟨values, hvalues⟩ := exists_forall₂ hvalid
      obtain ⟨e, as, hexisting, hoperands, rfl⟩ := exists_of_forall₂_append hvalues
      rw [mergeBatch, hkey]
      refine ⟨(PostingListValue.mergeBatch e as).encodeToBytes, toOption_eq_some.mpr ?_⟩
      exact (PostingListValue.mergeBatchPostingList_eq hexisting hoperands).1
    · obtain ⟨values, hvalues⟩ := exists_forall₂ hvalid
      obtain ⟨e, as, hexisting, hoperands, rfl⟩ := exists_of_forall₂_append hvalues
      have hdisjoint := MetadataIndexValue.disjoint_of_rel hexisting
      obtain ⟨v, hv⟩ := exists_encodeToBytes hcodec (hbitmaps rfl)
        (MetadataIndexValue.disjoint_mergeAll as hdisjoint) fun id hid => by
          rw [MetadataIndexValue.status_mergeAll, Option.ne_none_iff_exists'] at hid
          obtain ⟨b, hb⟩ := hid
          obtain ⟨value, hmem, hstatus⟩ := exists_of_findSome?_eq_some hb
          obtain ⟨v, hv, hdecode⟩ := exists_of_mem_forall₂ hvalues (mem_reverse.mp hmem)
          exact ⟨v, hv, value, hdecode, by simp [hstatus]⟩
      rw [mergeBatch, hkey]
      refine ⟨v, toOption_eq_some.mpr ?_⟩
      rw [mergeBatchMetadataIndex_eq hexisting hoperands, hv]
    · obtain ⟨values, hvalues⟩ := exists_forall₂ hvalid
      obtain ⟨e, as, hexisting, hoperands, rfl⟩ := exists_of_forall₂_append hvalues
      have hsum := CentroidStatsValue.mergeBatchCentroidStats_eq hexisting hoperands
        (by rw [CentroidStatsValue.eq_map_countOf hvalues]; exact hcounts rfl)
      rw [mergeBatch, hkey]
      exact ⟨_, toOption_eq_some.mpr hsum⟩
  · rw [mergeBatch_of_not_merged hkey ht]
    have hne := hsome ht
    cases hlast : operands.getLast? with
    | some v => exact ⟨v, rfl⟩
    | none =>
      obtain rfl := List.getLast?_eq_none_iff.mp hlast
      cases existing with
      | none => exact absurd rfl hne
      | some v => exact ⟨v, rfl⟩

/-- One merge of all operands is the merge of the results of any groups of them, for every key. A
posting list has the newest update of each id, in the order of the ids, and a value of the metadata
index what is said last about each id. Both ways return where a replacement has a value to take and
the bitmaps are not too long for their length field. -/
theorem mergeBatch_groups (hcodec : codec.RoundTrip) (hkey : recordTypeOf key = some t)
    (existing : Option Bytes) (groups : List (List Bytes))
    (hvalid : ∀ v ∈ existing.toList ++ groups.flatten, Valid dimensions codec t v)
    (hcounts : t = .centroidStats → CentroidStatsValue.NoOverflow
      ((existing.toList ++ groups.flatten).map CentroidStatsValue.countOf)) :
    (∀ results, groups.mapM (mergeBatch dimensions codec key none) = some results →
      mergeBatch dimensions codec key existing results =
        mergeBatch dimensions codec key existing groups.flatten) ∧ (t = .postingList → ∀ values,
      Forall₂ (PostingListValue.Holds dimensions) (existing.toList ++ groups.flatten) values →
      ∃ value : PostingListValue Floats,
        mergeBatch dimensions codec key existing groups.flatten = some value.encodeToBytes ∧
        value.Fits dimensions ∧
        ∀ u, u ∈ value.postings ↔ (values.flatMap PostingListValue.postings).reverse.find?
          (fun u' => u'.key = u.key) = some u) ∧ (t = .metadataIndex → ∀ values v,
      Forall₂ (fun v value => MetadataIndexValue.decodeFromBytes codec v = .ok value)
        (existing.toList ++ groups.flatten) values →
      mergeBatch dimensions codec key existing groups.flatten = some v →
      ∃ value, MetadataIndexValue.decodeFromBytes codec v = .ok value ∧
        Disjoint value.included value.excluded ∧
        ∀ id, value.status id = values.reverse.findSome? fun a => a.status id) ∧
    ((t = .metadataIndex → BitmapsFit codec (existing.toList ++ groups.flatten)) →
      (¬t.Merged → existing.toList ++ groups.flatten ≠ [] ∧ ∀ g ∈ groups, g ≠ []) →
      ∃ results v, groups.mapM (mergeBatch dimensions codec key none) = some results ∧
        mergeBatch dimensions codec key existing groups.flatten = some v) := by
  refine ⟨fun results hresults => ?_, ?_, ?_, fun hbitmaps hsome => ?_⟩
  · by_cases ht : t.Merged
    · rcases ht with rfl | rfl | rfl
      · exact regroup_postingList hkey hvalid hresults
      · exact regroup_metadataIndex hcodec hkey hvalid hresults
      · exact regroup_centroidStats hkey hvalid (hcounts rfl) hresults
    · have hlast : mergeBatch dimensions codec key none = List.getLast? := by
        funext g
        rw [mergeBatch_of_not_merged hkey ht, Option.or_none]
      rw [hlast] at hresults
      rw [mergeBatch_of_not_merged hkey ht, mergeBatch_of_not_merged hkey ht,
        getLast?_of_mapM_getLast? hresults]
  · rintro rfl values hvalues
    obtain ⟨e, as, hexisting, hoperands, rfl⟩ := exists_of_forall₂_append hvalues
    obtain ⟨hmerge, hfits⟩ := PostingListValue.mergeBatchPostingList_eq hexisting hoperands
    refine ⟨PostingListValue.mergeBatch e as, ?_, hfits, fun u => PostingListValue.mem_mergeBatch⟩
    rw [mergeBatch, hkey]
    exact toOption_eq_some.mpr hmerge
  · rintro rfl values v hvalues hv
    obtain ⟨e, as, hexisting, hoperands, rfl⟩ := exists_of_forall₂_append hvalues
    have hdisjoint := MetadataIndexValue.disjoint_mergeAll as
      (MetadataIndexValue.disjoint_of_rel hexisting)
    rw [mergeBatch, hkey] at hv
    have hencode := toOption_eq_some.mp hv
    rw [mergeBatchMetadataIndex_eq hexisting hoperands] at hencode
    exact ⟨_, MetadataIndexValue.decodeFromBytes_encodeToBytes hcodec hdisjoint hencode, hdisjoint,
      MetadataIndexValue.status_mergeAll e as⟩
  · have hgroup : ∀ g ∈ groups, ∃ v, mergeBatch dimensions codec key none g = some v := by
      intro g hg
      have hpart : g <:+: existing.toList ++ groups.flatten :=
        (infix_of_mem_flatten hg).trans (suffix_append _ _).isInfix
      exact exists_mergeBatch hkey hcodec (fun v hv => hvalid v (hpart.subset hv))
        (fun ht => (hcounts ht).of_part (hpart.map _))
        (fun ht => (hbitmaps ht).of_subset fun v hv => hpart.subset hv)
        fun ht => (hsome ht).2 g hg
    obtain ⟨v, hv⟩ := exists_mergeBatch hkey hcodec hvalid hcounts hbitmaps fun ht => (hsome ht).1
    refine ⟨groups.map fun g => (mergeBatch dimensions codec key none g).getD [], v,
      mapM_eq_pure fun g hg => ?_, hv⟩
    obtain ⟨w, hw⟩ := hgroup g hg
    rw [hw]
    rfl

def countingCodec : BitmapCodec where
  serialize ids := .ok (replicate (Finset.equivBitIndices.symm ids) 0)
  deserialize bytes := .ok (Finset.equivBitIndices bytes.length)

theorem countingCodec_roundTrip : countingCodec.RoundTrip where
  total ids := ⟨_, rfl⟩
  deserialize := by
    rintro ids bytes h
    cases h
    show Except.ok (Finset.equivBitIndices (replicate _ _).length) = _
    rw [length_replicate, Equiv.apply_symm_apply]

def postingListOf (u : PostingUpdate Floats) : PostingListValue Floats :=
  { postings := [u], sorted := pairwise_singleton _ _ }

/-- Three operands in two groups: the vector of the value is deleted and appended again. -/
theorem mergeBatch_groups_appended_again : ∃ results v,
      [[(postingListOf (.append root [6])).encodeToBytes,
          (postingListOf (.delete root)).encodeToBytes],
        [(postingListOf (.append root [7])).encodeToBytes]].mapM
          (mergeBatch 1 countingCodec [0x02, 0x01, 0x40] none) = some results ∧
      mergeBatch 1 countingCodec [0x02, 0x01, 0x40]
        (some (postingListOf (.append root [5])).encodeToBytes)
        [(postingListOf (.append root [6])).encodeToBytes,
          (postingListOf (.delete root)).encodeToBytes,
          (postingListOf (.append root [7])).encodeToBytes] = some v ∧
      mergeBatch 1 countingCodec [0x02, 0x01, 0x40]
        (some (postingListOf (.append root [5])).encodeToBytes) results = some v := by
  have happend : ∀ x, Valid 1 countingCodec .postingList
      (postingListOf (.append root [x])).encodeToBytes := by
    intro x
    refine ⟨_, rfl, fun u hu => ?_⟩
    obtain rfl := mem_singleton.mp hu
    rintro v ⟨⟩
    rfl
  have hdelete : Valid 1 countingCodec .postingList
      (postingListOf (.delete root)).encodeToBytes := by
    refine ⟨_, rfl, fun u hu => ?_⟩
    obtain rfl := mem_singleton.mp hu
    rintro v ⟨⟩
  have hvalid : ∀ v ∈ [(postingListOf (.append root [5])).encodeToBytes,
      (postingListOf (.append root [6])).encodeToBytes,
      (postingListOf (.delete root)).encodeToBytes,
      (postingListOf (.append root [7])).encodeToBytes],
      Valid 1 countingCodec .postingList v := by
    simp [happend, hdelete]
  have hkey : recordTypeOf [0x02, 0x01, 0x40] = some .postingList := by decide +kernel
  obtain ⟨hregroup, -, -, hreturns⟩ := mergeBatch_groups countingCodec_roundTrip hkey
    (some (postingListOf (.append root [5])).encodeToBytes)
    [[(postingListOf (.append root [6])).encodeToBytes,
        (postingListOf (.delete root)).encodeToBytes],
      [(postingListOf (.append root [7])).encodeToBytes]]
    hvalid (by simp)
  obtain ⟨results, v, hresults, hv⟩ := hreturns (by simp) fun h => absurd (.inl rfl) h
  exact ⟨results, v, hresults, hv, (hregroup results hresults).trans hv⟩

end

end OpenData.Vector

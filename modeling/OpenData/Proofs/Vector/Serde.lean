import OpenData.Lib.Monadic
import OpenData.Proofs.Common.Serde
import OpenData.Vector.Serde

/-!
# Stored vectors are read back, and what the checks do not ask

An accepted vector is stored and read back exactly when its attributes are `Encodable`
(`accepted_write_round_trip`). The checks of `prepareVectorWrite` do not ask for all of it. A vector
with a second attribute that is a vector of another length is accepted, and its record cannot be
read; one with a string of 65536 bytes is accepted, and the flush panics
(`accepted_write_unreadable`).
-/

namespace OpenData.Vector

open Lib Common List VectorDataValue

/-! ### Round trips -/

def RoundTrips {α ε ε' : Type} (encode : α → Except ε Bytes)
    (decode : Bytes → Except ε' (α × Bytes)) (a : α) : Prop :=
  ∃ bytes, encode a = .ok bytes ∧ ∀ rest, decode (bytes ++ rest) = .ok (a, rest)

theorem takeBytes_append {bytes n} (hlen : bytes.length = n) (message : String)
    (rest : Bytes) : takeBytes n message (bytes ++ rest) = .ok (bytes, rest) := by
  subst hlen
  rw [takeBytes, if_neg (by simp), take_left, drop_left]

theorem roundTrips_utf8 {s} (h : FitsUtf8 s) : RoundTrips encodeUtf8 decodeUtf8 s :=
  ⟨_, encodeUtf8_of_fits h, decodeUtf8_append h⟩

section

variable {α : Type} {decode : Bytes → Except EncodingError (α × Bytes)}
  {encode : α → Except (Fault EncodingError) Bytes} {items : List α}

theorem roundTrips_many (h : ∀ a ∈ items, RoundTrips encode decode a) :
    ∃ parts, items.mapM encode = .ok parts ∧
      ∀ rest, decodeMany decode items.length (parts.flatten ++ rest) = .ok (items, rest) := by
  induction items with
  | nil => exact ⟨[], rfl, fun rest => rfl⟩
  | cons a items ih =>
    obtain ⟨⟨bytes, hencode, hdecode⟩, hitems⟩ := forall_mem_cons.mp h
    obtain ⟨parts, hparts, hmany⟩ := ih hitems
    refine ⟨bytes :: parts, ?_, fun rest => ?_⟩
    · rw [mapM_cons, hencode, hparts]
      rfl
    · rw [length_cons, flatten_cons, append_assoc, decodeMany, hdecode]
      show (decodeMany decode items.length (parts.flatten ++ rest) >>= fun x => _) = _
      rw [hmany]
      rfl

theorem roundTrips_counted (hlen : items.length < 2 ^ 16)
    (h : ∀ a ∈ items, RoundTrips encode decode a) (message : String) :
    RoundTrips (encodeCounted encode) (decodeCounted message decode) items := by
  obtain ⟨parts, hparts, hmany⟩ := roundTrips_many h
  refine ⟨toLe 2 items.length ++ parts.flatten, ?_, fun rest => ?_⟩
  · rw [encodeCounted, if_neg (Nat.not_lt.mpr (Nat.le_sub_one_of_lt hlen)), hparts]
    rfl
  · rw [decodeCounted, append_assoc, takeBytes_append (length_toLe 2 _)]
    show decodeMany decode (ofLe (toLe 2 items.length)) (parts.flatten ++ rest) = _
    rw [ofLe_toLe_of_lt hlen, hmany]

end

/-! ### Fields -/

variable {dimensions : Nat}

namespace FieldValue

def Fits (dimensions : Nat) : FieldValue Floats → Prop
  | .string s => FitsUtf8 s
  | .vector v => v.length = dimensions
  | _ => True

theorem decodeVector_append (v : Floats) (rest : Bytes) :
    decodeVector v.length (v.flatMap encodeFloat ++ rest) = .ok (v, rest) := by
  have hlen : (v.flatMap encodeFloat).length = v.length * 4 := by
    simp [length_flatMap, encodeFloat, length_toLe]
  have hfloat : ∀ x ∈ v, RoundTrips (ε := Fault EncodingError) (fun x => .ok (encodeFloat x))
      decodeFloat x := by
    intro x _
    refine ⟨_, rfl, fun rest => ?_⟩
    rw [decodeFloat, encodeFloat, takeBytes_append (length_toLe 4 _)]
    show Except.ok (UInt32.ofNat (ofLe (toLe 4 x.toNat)), rest) = _
    rw [ofLe_toLe_uint32]
  obtain ⟨parts, hparts, hmany⟩ := roundTrips_many hfloat
  have hmap : v.mapM (fun x => (.ok (encodeFloat x) : Except (Fault EncodingError) Bytes)) =
      .ok (v.map encodeFloat) := mapM_eq_pure fun _ _ => rfl
  obtain rfl := Except.ok.inj (hmap.symm.trans hparts)
  have hflat := hmany []
  rw [← flatMap_def, append_nil] at hflat
  rw [decodeVector, takeBytes_append hlen]
  show (decodeFixedElementArray decodeFloat 4 (v.flatMap encodeFloat) >>= fun vector =>
    Except.ok (vector, rest)) = _
  rw [decodeFixedElementArray, hlen, if_neg (by simp), Nat.mul_div_cancel _ (by decide), hflat]
  rfl

variable {value : FieldValue Floats}

theorem roundTrips_withDimensions (h : value.Fits dimensions) :
    RoundTrips encode (decodeWithDimensions dimensions) value := by
  cases value with
  | string =>
    obtain ⟨bytes, hencode, hdecode⟩ := roundTrips_utf8 h
    refine ⟨FieldType.string.toByte :: bytes, ?_, fun rest => ?_⟩
    · rw [encode, hencode]
      rfl
    · show (decodeUtf8 (bytes ++ rest) >>= fun x => _) = _
      rw [hdecode]
      rfl
  | int64 i =>
    refine ⟨_, rfl, fun rest => ?_⟩
    show (takeBytes 8 "Buffer too short for Int64 value" (toLe 8 i.toUInt64.toNat ++ rest) >>=
      fun x => _) = _
    rw [takeBytes_append (length_toLe 8 _)]
    show Except.ok (FieldValue.int64 (UInt64.ofNat (ofLe (toLe 8 i.toUInt64.toNat))).toInt64,
      rest) = _
    rw [ofLe_toLe_uint64]
    rfl
  | float64 bits =>
    refine ⟨_, rfl, fun rest => ?_⟩
    show (takeBytes 8 "Buffer too short for Float64 value" (toLe 8 bits.toNat ++ rest) >>=
      fun x => _) = _
    rw [takeBytes_append (length_toLe 8 _)]
    show Except.ok (FieldValue.float64 (UInt64.ofNat (ofLe (toLe 8 bits.toNat))), rest) = _
    rw [ofLe_toLe_uint64]
  | bool b => exact ⟨_, rfl, fun rest => by cases b <;> rfl⟩
  | vector v =>
    obtain rfl : v.length = dimensions := h
    refine ⟨_, rfl, fun rest => ?_⟩
    show (decodeVector v.length (v.flatMap encodeFloat ++ rest) >>= fun x => _) = _
    rw [decodeVector_append]
    rfl

theorem decode_eq_of_ne_vector (h : value.fieldType ≠ .vector)
    (dimensions : Nat) {bytes} (hencode : value.encode = .ok bytes) (rest : Bytes) :
    decode (bytes ++ rest) = decodeWithDimensions dimensions (bytes ++ rest) := by
  cases value with
  | string =>
    obtain ⟨bytes, -, hbytes⟩ := exists_of_bind_eq_ok hencode
    cases hbytes
    rfl
  | int64 | float64 | bool => obtain rfl := Except.ok.inj hencode; rfl
  | vector v => exact absurd rfl h

end FieldValue

variable {field : Field Floats}

namespace Field

def Fits (dimensions : Nat) (field : Field Floats) : Prop :=
  FitsUtf8 field.fieldName ∧ field.value.Fits dimensions ∧
    (field.fieldName = vectorFieldName → field.value.fieldType = .vector)

theorem roundTrips_with {decodeValue : Bytes → Except EncodingError (FieldValue Floats × Bytes)}
    (hname : FitsUtf8 field.fieldName)
    (hvalue : RoundTrips FieldValue.encode decodeValue field.value)
    (htype : field.fieldName = vectorFieldName → field.value.fieldType = .vector) :
    RoundTrips encode (decodeWith decodeValue) field := by
  obtain ⟨name, hname, hreadName⟩ := roundTrips_utf8 hname
  obtain ⟨value, hvalue, hreadValue⟩ := hvalue
  refine ⟨name ++ value, ?_, fun rest => ?_⟩
  · rw [encode, hname, hvalue]
    rfl
  · rw [decodeWith, append_assoc, hreadName]
    show (decodeValue (value ++ rest) >>= fun x => _) = _
    rw [hreadValue]
    exact if_neg fun h => h.2 (htype h.1)

theorem roundTrips_withDimensions (h : field.Fits dimensions) :
    RoundTrips encode (decodeWithDimensions dimensions) field :=
  roundTrips_with h.1 (FieldValue.roundTrips_withDimensions h.2.1) h.2.2

theorem roundTrips_decode (h : field.Fits dimensions) (htype : field.value.fieldType ≠ .vector) :
    RoundTrips encode decode field := by
  refine roundTrips_with h.1 ?_ h.2.2
  obtain ⟨bytes, hencode, hdecode⟩ := FieldValue.roundTrips_withDimensions h.2.1
  refine ⟨bytes, hencode, fun rest => ?_⟩
  rw [FieldValue.decode_eq_of_ne_vector htype dimensions hencode, hdecode]

end Field

/-! ### Stored values -/

theorem mem_sortFields {V : Type} {fields} {field : Field V} :
    field ∈ sortFields fields ↔ field ∈ fields := mem_sortBy _

theorem length_sortFields {V : Type} (fields : List (Field V)) :
    (sortFields fields).length = fields.length := (perm_sortBy _ fields).length_eq

theorem VectorDataValue.decodeFromBytes_encodeToBytes {value}
    (hid : FitsUtf8 value.externalId) (hlen : value.fields.length < 2 ^ 16)
    (hfields : ∀ f ∈ value.fields, f.Fits dimensions) :
    ∃ bytes, value.encodeToBytes = .ok bytes ∧ decodeFromBytes bytes dimensions = .ok value := by
  obtain ⟨id, hencodeId, hdecodeId⟩ := roundTrips_utf8 hid
  obtain ⟨fields, hencode, hdecode⟩ := roundTrips_counted hlen
    (fun f hf => Field.roundTrips_withDimensions (hfields f hf)) "Buffer too short for field count"
  refine ⟨id ++ fields, ?_, ?_⟩
  · rw [encodeToBytes, hencodeId, hencode]
    rfl
  · rw [decodeFromBytes, hdecodeId]
    show (decodeCounted _ (Field.decodeWithDimensions dimensions) fields >>= fun x => _) = _
    have hread := hdecode []
    rw [append_nil] at hread
    rw [hread]
    rfl

theorem VectorId.roundTrips (x : VectorId) :
    RoundTrips (ε := Fault EncodingError) (fun x => .ok x.encode) decode x := by
  refine ⟨_, rfl, fun rest => ?_⟩
  have hlt : x.id < 256 ^ 8 := by
    have hlevel := x.level_lt
    have hnumber := x.number_lt
    rw [VectorId.id]
    omega
  have hlevel : x.id / 2 ^ 56 % 2 ^ 8 = x.level := by
    have hlevel := x.level_lt
    have hnumber := x.number_lt
    rw [VectorId.id]
    omega
  have hnumber : x.id % 2 ^ 56 = x.number := by
    have hnumber := x.number_lt
    rw [VectorId.id]
    omega
  rw [decode, encode, takeBytes_append (length_toBe 8 _)]
  show Except.ok (_, rest) = _
  simp only [ofBe_toBe_of_lt hlt, hlevel, hnumber]

theorem VectorIndexDataValue.decodeFromBytes_encodeToBytes (value : VectorIndexDataValue Floats)
    (hpostings : value.postings.length < 2 ^ 16)
    (hcentroids : ∀ posting ∈ value.postings, posting.isCentroid)
    (hlen : value.indexedFields.length < 2 ^ 16)
    (hfields : ∀ f ∈ value.indexedFields, f.Fits dimensions ∧ f.value.fieldType ≠ .vector ∧
      f.fieldName ≠ vectorFieldName) :
    ∃ bytes, value.encodeToBytes = .ok bytes ∧ decodeFromBytes bytes = .ok value := by
  have hposting : ∀ posting ∈ value.postings, RoundTrips (ε := Fault EncodingError)
      (fun posting => .ok posting.encode) decodePosting posting := by
    intro posting hmem
    obtain ⟨bytes, hencode, hdecode⟩ := VectorId.roundTrips posting
    refine ⟨bytes, hencode, fun rest => ?_⟩
    rw [decodePosting, hdecode]
    exact if_pos (hcentroids posting hmem)
  have hfield : ∀ f ∈ value.indexedFields, RoundTrips Field.encode decodeIndexedField f := by
    intro f hf
    obtain ⟨hfits, htype, hname⟩ := hfields f hf
    obtain ⟨bytes, hencode, hdecode⟩ := Field.roundTrips_decode hfits htype
    refine ⟨bytes, hencode, fun rest => ?_⟩
    rw [decodeIndexedField, hdecode]
    exact if_neg hname
  obtain ⟨postings, hencode, hdecode⟩ := roundTrips_counted hpostings hposting
    "Buffer too short for VectorIndexDataValue count"
  obtain ⟨fields, hencode', hdecode'⟩ := roundTrips_counted hlen hfield
    "Buffer too short for VectorIndexDataValue field count"
  refine ⟨postings ++ fields, ?_, ?_⟩
  · rw [encodeToBytes, hencode, hencode']
    rfl
  · rw [decodeFromBytes, hdecode]
    show (decodeCounted _ decodeIndexedField fields >>= fun x => _) = _
    have hread := hdecode' []
    rw [append_nil] at hread
    rw [hread]
    rfl

/-! ### What is decoded, and what is encoded -/

section

variable {α : Type} {decode : Bytes → Except EncodingError (α × Bytes)} {P : α → Prop}

theorem forall_of_decodeMany (hdecode : ∀ buf a rest, decode buf = .ok (a, rest) → P a)
    {n buf items} {rest : Bytes} (h : decodeMany decode n buf = .ok (items, rest)) :
    items.length = n ∧ ∀ a ∈ items, P a := by
  induction n generalizing buf items rest with
  | zero =>
    cases h
    exact ⟨rfl, by simp⟩
  | succ n ih =>
    obtain ⟨⟨a, buf'⟩, ha, h⟩ := exists_of_bind_eq_ok h
    obtain ⟨⟨others, rest'⟩, hothers, h⟩ := exists_of_bind_eq_ok h
    obtain ⟨hlen, hall⟩ := ih hothers
    cases h
    exact ⟨congrArg (· + 1) hlen, forall_mem_cons.mpr ⟨hdecode _ _ _ ha, hall⟩⟩

theorem forall_of_decodeCounted (hdecode : ∀ buf a rest, decode buf = .ok (a, rest) → P a) {message}
    {buf items} {rest : Bytes} (h : decodeCounted message decode buf = .ok (items, rest)) :
    ∀ a ∈ items, P a := by
  obtain ⟨_, -, h⟩ := exists_of_bind_eq_ok h
  exact (forall_of_decodeMany hdecode h).2

theorem forall_of_encodeCounted {encode : α → Except (Fault EncodingError) Bytes} {items bytes}
    (h : encodeCounted encode items = .ok bytes) :
    items.length < 2 ^ 16 ∧ ∀ a ∈ items, ∃ b, encode a = .ok b := by
  rw [encodeCounted] at h
  split at h
  next => cases h
  next hlen =>
    obtain ⟨parts, hparts, -⟩ := exists_of_bind_eq_ok h
    refine ⟨by omega, ?_⟩
    exact ((forall₂_and_left _ _).mp ((forall₂_of_mapM_eq_ok hparts).imp
      fun a b hab => ⟨⟨b, hab⟩, hab⟩)).1

end

namespace FieldValue

variable {value : FieldValue Floats}

/-- A vector that is decoded comes from the decoder of vectors. -/
theorem exists_of_decodeWith {readVector : Bytes → Except EncodingError (Floats × Bytes)}
    {buf rest v} (h : decodeWith readVector buf = .ok (.vector v, rest)) :
    ∃ buf' rest', readVector buf' = .ok (v, rest') := by
  cases buf with
  | nil => cases h
  | cons byte buf =>
    obtain ⟨fieldType, -, h⟩ := exists_of_bind_eq_ok h
    cases fieldType with
    | vector =>
      obtain ⟨⟨v', rest'⟩, hv, h⟩ := exists_of_bind_eq_ok h
      cases h
      exact ⟨_, _, hv⟩
    | bool =>
      cases buf with
      | nil => cases h
      | cons => cases h
    | string | int64 | float64 =>
      obtain ⟨_, -, h⟩ := exists_of_bind_eq_ok h
      cases h

theorem length_of_decodeVector {buf rest v} (h : decodeVector dimensions buf = .ok (v, rest)) :
    v.length = dimensions := by
  obtain ⟨⟨bytes, rest'⟩, hbytes, h⟩ := exists_of_bind_eq_ok h
  obtain ⟨vector, hvector, h⟩ := exists_of_bind_eq_ok h
  cases h
  have hlen : bytes.length = dimensions * 4 := by
    rw [takeBytes] at hbytes
    split at hbytes
    next => cases hbytes
    next hle =>
      cases hbytes
      rw [length_take]
      omega
  rw [decodeFixedElementArray, if_neg (by simp [hlen])] at hvector
  obtain ⟨⟨items, _⟩, hitems, hvector⟩ := exists_of_bind_eq_ok hvector
  cases hvector
  have hcount := (forall_of_decodeMany (P := fun _ => True) (fun _ _ _ _ => trivial) hitems).1
  rw [hcount, hlen, Nat.mul_div_cancel _ (by decide)]

theorem fits_of_encode_decode {bytes buf rest} (hencode : value.encode = .ok bytes)
    (hdecode : decodeWithDimensions dimensions buf = .ok (value, rest)) :
    value.Fits dimensions := by
  cases value with
  | string s =>
    obtain ⟨_, hs, -⟩ := exists_of_bind_eq_ok hencode
    exact (fits_of_encodeUtf8 hs).1
  | vector v =>
    obtain ⟨_, _, hv⟩ := exists_of_decodeWith hdecode
    exact length_of_decodeVector hv
  | int64 | float64 | bool => trivial

theorem ne_vector_of_decode {buf rest} (h : decode buf = .ok (value, rest)) :
    value.fieldType ≠ .vector := by
  cases value with
  | vector v =>
    obtain ⟨_, _, hv⟩ := exists_of_decodeWith h
    cases hv
  | _ => simp [fieldType]

end FieldValue

theorem Field.exists_of_decodeWith
    {readValue : Bytes → Except EncodingError (FieldValue Floats × Bytes)}
    {buf rest} (h : decodeWith readValue buf = .ok (field, rest)) :
    ∃ buf' rest', readValue buf' = .ok (field.value, rest') := by
  obtain ⟨⟨name, buf'⟩, -, h⟩ := exists_of_bind_eq_ok h
  obtain ⟨⟨value, rest'⟩, hvalue, h⟩ := exists_of_bind_eq_ok h
  dsimp only at h
  split at h
  next => cases h
  next =>
    cases h
    exact ⟨_, _, hvalue⟩

/-- Fields that are encoded and read back fit. -/
theorem VectorDataValue.fits_of_round_trip {value value' : VectorDataValue Floats} {bytes}
    (hencode : value.encodeToBytes = .ok bytes)
    (hdecode : decodeFromBytes bytes dimensions = .ok value')
    (hsame : value'.fields = value.fields) : value.fields.length < 2 ^ 16 ∧
      ∀ f ∈ value.fields, FitsUtf8 f.fieldName ∧ f.value.Fits dimensions := by
  obtain ⟨_, -, hencode⟩ := exists_of_bind_eq_ok hencode
  obtain ⟨_, hfields, -⟩ := exists_of_bind_eq_ok hencode
  obtain ⟨hlen, hencoded⟩ := forall_of_encodeCounted hfields
  obtain ⟨⟨_, _⟩, -, hdecode⟩ := exists_of_bind_eq_ok hdecode
  obtain ⟨⟨fields, _⟩, hread, hdecode⟩ := exists_of_bind_eq_ok hdecode
  cases hdecode
  refine ⟨hlen, fun f hf => ?_⟩
  obtain ⟨b, hb⟩ := hencoded f hf
  obtain ⟨_, hname, hb⟩ := exists_of_bind_eq_ok hb
  obtain ⟨_, hvalue, -⟩ := exists_of_bind_eq_ok hb
  have hdecoded := forall_of_decodeCounted (P := fun f => ∃ buf rest,
      FieldValue.decodeWithDimensions dimensions buf = .ok (f.value, rest))
    (fun _ _ _ h => Field.exists_of_decodeWith h) hread
  obtain ⟨_, _, hvalue'⟩ := hdecoded f ((show fields = value.fields from hsame) ▸ hf)
  exact ⟨(fits_of_encodeUtf8 hname).1, FieldValue.fits_of_encode_decode hvalue hvalue'⟩

theorem VectorIndexDataValue.ne_vector_of_decodeFromBytes {bytes}
    {value : VectorIndexDataValue Floats}
    (h : decodeFromBytes bytes = .ok value) :
    ∀ f ∈ value.indexedFields, f.value.fieldType ≠ .vector := by
  obtain ⟨⟨_, _⟩, -, h⟩ := exists_of_bind_eq_ok h
  obtain ⟨⟨fields, _⟩, hread, h⟩ := exists_of_bind_eq_ok h
  cases h
  refine forall_of_decodeCounted (fun _ f _ hf => ?_) hread
  obtain ⟨⟨field, _⟩, hfield, hf⟩ := exists_of_bind_eq_ok hf
  dsimp only at hf
  split at hf
  next => cases hf
  next =>
    cases hf
    obtain ⟨_, _, hvalue⟩ := Field.exists_of_decodeWith hfield
    exact FieldValue.ne_vector_of_decode hvalue

/-! ### Accepted writes -/

section

variable {config : Config} {order : Choices Floats} {site : List Nat} {vector : ApiVector}
  {write : VectorWrite Floats}

theorem of_prepareVectorWrite (h : prepareVectorWrite config order site vector = .ok write) :
    (asBytes vector.id).length ≤ 64 ∧
      (∃ values, (attributesToMap vector.attributes).lookup vectorFieldName =
        some (.vector values) ∧ values.length = config.dimensions.toNat) ∧
      write.externalId = vector.id ∧
      write.attributes = order.shuffle site (mapFields (attributesToMap vector.attributes)) := by
  by_cases hid : (asBytes vector.id).length > 64
  · simp [prepareVectorWrite, hid] at h
  · cases hvalue : (attributesToMap vector.attributes).lookup vectorFieldName with
    | none => simp [prepareVectorWrite, hid, hvalue] at h
    | some value =>
      cases value with
      | vector values =>
        by_cases hdimensions : values.length = config.dimensions.toNat
        · simp only [prepareVectorWrite, hid, hvalue, hdimensions, ne_eq, not_true_eq_false,
            if_false] at h
          obtain ⟨-, -, h⟩ := exists_of_bind_eq_ok h
          cases h
          exact ⟨Nat.not_lt.mp hid, ⟨values, rfl, hdimensions⟩, rfl, rfl⟩
        · simp [prepareVectorWrite, hid, hvalue, hdimensions] at h
      | _ => simp [prepareVectorWrite, hid, hvalue] at h

/-- The vector has a record: its lengths fit, and no indexed attribute is a vector. -/
structure Encodable (config : Config) (vector : ApiVector) : Prop where
  count : (attributesToMap vector.attributes).entries.length < 2 ^ 16
  fits : ∀ name value, (attributesToMap vector.attributes).lookup name = some value →
    FitsUtf8 name ∧ value.Fits config.dimensions.toNat
  indexed : ∀ name value, (attributesToMap vector.attributes).lookup name = some value →
    name ≠ vectorFieldName → name ∈ config.indexedFields → value.fieldType ≠ .vector

theorem mem_mapFields {map} :
    field ∈ mapFields map ↔ map.lookup field.fieldName = some field.value := by
  rw [mapFields, mem_map]
  constructor
  · rintro ⟨e, he, rfl⟩
    exact AList.mem_lookup_iff.mpr he
  · exact fun h => ⟨_, AList.mem_lookup_iff.mp h, rfl⟩

/-- The flush of the write encodes the data and the index data without a panic, and both are decoded
to what they were. -/
structure ReadBack (dimensions : Nat) (opts : IndexerOpts) (postings : List VectorId)
    (write : VectorWrite Floats) : Prop where
  data : ∃ bytes, (new write.externalId write.attributes).encodeToBytes = .ok bytes ∧
    decodeFromBytes bytes dimensions =
      .ok { externalId := write.externalId, fields := sortFields write.attributes }
  index : ∃ value bytes,
    VectorIndexDataValue.new postings (collectIndexedFields opts write.attributes) = .ok value ∧
    value.encodeToBytes = .ok bytes ∧ VectorIndexDataValue.decodeFromBytes bytes = .ok value

theorem new_indexData {opts : IndexerOpts} {postings : List VectorId}
    (hcentroids : ∀ posting ∈ postings, posting.isCentroid) (fields : List (Field Floats)) :
    VectorIndexDataValue.new postings (collectIndexedFields opts fields) =
      .ok { postings, indexedFields := sortFields (collectIndexedFields opts fields) } := by
  have hnames : ∀ f ∈ collectIndexedFields opts fields, f.fieldName ≠ vectorFieldName := by
    intro f hf
    exact (of_decide_eq_true (mem_filter.mp hf).2).1
  rw [VectorIndexDataValue.new, ensure, if_pos hcentroids, ensure, if_pos hnames]
  rfl

theorem encodable_of_readBack {opts : IndexerOpts} {postings : List VectorId}
    (hperm : write.attributes.Perm (mapFields (attributesToMap vector.attributes)))
    (hopts : opts.indexedFields = config.indexedFields)
    (hcentroids : ∀ posting ∈ postings, posting.isCentroid)
    (h : ReadBack config.dimensions.toNat opts postings write) : Encodable config vector := by
  obtain ⟨⟨bytes, hencode, hdecode⟩, value, indexBytes, hnew, -, hindex⟩ := h
  obtain ⟨hlen, hfits⟩ := VectorDataValue.fits_of_round_trip hencode hdecode rfl
  have hlookup : ∀ name value, (attributesToMap vector.attributes).lookup name = some value →
      ({ fieldName := name, value } : Field Floats) ∈ write.attributes :=
    fun name value hvalue => hperm.mem_iff.mpr (mem_mapFields.mpr hvalue)
  refine ⟨?_, fun name value hvalue => ?_, fun name value hvalue hname hindexed => ?_⟩
  · have hcount : (sortFields write.attributes).length < 2 ^ 16 := hlen
    rwa [length_sortFields, hperm.length_eq, mapFields, length_map] at hcount
  · exact hfits _ (mem_sortFields.mpr (hlookup name value hvalue))
  · obtain rfl := Except.ok.inj ((new_indexData hcentroids _).symm.trans hnew)
    refine VectorIndexDataValue.ne_vector_of_decodeFromBytes hindex ⟨name, value⟩ ?_
    refine mem_sortFields.mpr (mem_filter.mpr ⟨hlookup name value hvalue, decide_eq_true ?_⟩)
    exact ⟨hname, hopts ▸ hindexed⟩

/-- An accepted vector is stored and read back exactly when the encodings fit it. -/
theorem accepted_write_round_trip (h : prepareVectorWrite config order site vector = .ok write)
    (opts : IndexerOpts) (hopts : opts.indexedFields = config.indexedFields)
    (postings : List VectorId) (hpostings : postings.length < 2 ^ 16)
    (hcentroids : ∀ posting ∈ postings, posting.isCentroid) :
    write.externalId = vector.id ∧
      write.attributes.Perm (mapFields (attributesToMap vector.attributes)) ∧
      (ReadBack config.dimensions.toNat opts postings write ↔ Encodable config vector) := by
  obtain ⟨hid, ⟨values, hvalues, -⟩, hexternalId, hattributes⟩ := of_prepareVectorWrite h
  have hperm : write.attributes.Perm (mapFields (attributesToMap vector.attributes)) := by
    rw [hattributes]
    exact Choices.perm_shuffle order site _
  refine ⟨hexternalId, hperm, encodable_of_readBack hperm hopts hcentroids, fun hencodable => ?_⟩
  have hlen : write.attributes.length < 2 ^ 16 := by
    rw [hperm.length_eq, mapFields, length_map]
    exact hencodable.count
  have hlookup : ∀ f ∈ write.attributes,
      (attributesToMap vector.attributes).lookup f.fieldName = some f.value :=
    fun f hf => mem_mapFields.mp (hperm.mem_iff.mp hf)
  have hfits : ∀ f ∈ write.attributes, f.Fits config.dimensions.toNat := by
    intro f hf
    obtain ⟨hname, hvalue⟩ := hencodable.fits _ _ (hlookup f hf)
    refine ⟨hname, hvalue, fun hvector => ?_⟩
    -- The checks have seen that the attribute `vector` is a vector.
    have hsame := hlookup f hf
    rw [hvector, hvalues] at hsame
    rw [← Option.some.inj hsame]
    rfl
  constructor
  · refine decodeFromBytes_encodeToBytes ?_ ?_ ?_
    · show FitsUtf8 write.externalId
      rw [hexternalId]
      exact Nat.lt_of_le_of_lt hid (by decide)
    · show (sortFields write.attributes).length < 2 ^ 16
      rwa [length_sortFields]
    · exact fun f hf => hfits f (mem_sortFields.mp hf)
  · have hshort : (sortFields (collectIndexedFields opts write.attributes)).length < 2 ^ 16 := by
      rw [length_sortFields]
      exact Nat.lt_of_le_of_lt (length_filter_le _ _) hlen
    have hfields : ∀ f ∈ sortFields (collectIndexedFields opts write.attributes),
        f.Fits config.dimensions.toNat ∧ f.value.fieldType ≠ .vector ∧
          f.fieldName ≠ vectorFieldName := by
      intro f hf
      obtain ⟨hmem, hf⟩ := mem_filter.mp (mem_sortFields.mp hf)
      obtain ⟨hname, hindex⟩ := of_decide_eq_true hf
      exact ⟨hfits f hmem, hencodable.indexed _ _ (hlookup f hmem) hname (hopts ▸ hindex), hname⟩
    obtain ⟨bytes, hencode, hdecode⟩ := VectorIndexDataValue.decodeFromBytes_encodeToBytes
      ⟨postings, sortFields (collectIndexedFields opts write.attributes)⟩ hpostings
        hcentroids hshort
      hfields
    exact ⟨_, bytes, new_indexData hcentroids _, hencode, hdecode⟩

end

def entryOrder : Choices Floats where
  order := fun _ n => List.range n
  order_perm := fun _ _ => List.Perm.refl _
  twoMeans := fun _ _ => ([], [])

def openConfig : Config := { dimensions := 1, normalizeIfNeeded := id, metadataFields := [] }

/-- A string attribute and the vector. -/
theorem accepted_write_round_trip_tagged :
    ∃ write, prepareVectorWrite openConfig entryOrder []
        { id := "a", attributes := [⟨"vector", .vector [7]⟩, ⟨"tag", .string "x"⟩] } = .ok write ∧
      ReadBack 1 ⟨0, 0, 0, 0, []⟩ [] write := by
  have hwrite : prepareVectorWrite openConfig entryOrder []
      { id := "a", attributes := [⟨"vector", .vector [7]⟩, ⟨"tag", .string "x"⟩] } = .ok _ := rfl
  refine ⟨_, hwrite, (accepted_write_round_trip hwrite ⟨0, 0, 0, 0, []⟩ rfl [] (by decide)
    (by simp)).2.2.mpr ⟨by decide, fun name value hvalue => ?_, fun name value _ _ hindexed => ?_⟩⟩
  · have hmem := (@mem_mapFields ⟨name, value⟩ _).mpr hvalue
    rw [show mapFields (attributesToMap [⟨"vector", .vector [7]⟩, ⟨"tag", .string "x"⟩]) =
      [⟨"tag", .string "x"⟩, ⟨"vector", .vector [7]⟩] from rfl] at hmem
    simp only [mem_cons, not_mem_nil, or_false, Field.mk.injEq] at hmem
    rcases hmem with ⟨rfl, rfl⟩ | ⟨rfl, rfl⟩
    · exact ⟨by decide, by show FitsUtf8 "x"; decide⟩
    · exact ⟨by decide, rfl⟩
  · cases hindexed

theorem encodeToBytes_panics_of_long {note} (hlong : ¬FitsUtf8 note) :
    ∃ write, prepareVectorWrite openConfig entryOrder []
        { id := "a", attributes := [⟨"vector", .vector [7]⟩, ⟨"note", .string note⟩] } = .ok write ∧
      (new write.externalId write.attributes).encodeToBytes = .error .panic := by
  refine ⟨{ externalId := "a", values := [7]
            attributes := [⟨"note", .string note⟩, ⟨"vector", .vector [7]⟩] }, rfl, ?_⟩
  have hnote : Field.encode ⟨"note", .string note⟩ = .error .panic := by
    rw [Field.encode, FieldValue.encode, encodeUtf8_of_not_fits hlong]
    rfl
  have hfields : encodeCounted Field.encode [⟨"note", .string note⟩, ⟨"vector", .vector [7]⟩] =
      .error .panic := by
    rw [encodeCounted, if_neg (by simp), mapM_cons, hnote]
    rfl
  show (encodeUtf8 "a" >>= fun _ =>
    encodeCounted Field.encode [⟨"note", .string note⟩, ⟨"vector", .vector [7]⟩] >>= _) = _
  rw [hfields]
  rfl

/-- A second attribute that is a vector of another length, and a string of 65536 bytes. -/
theorem accepted_write_unreadable : (∃ write bytes e, prepareVectorWrite openConfig entryOrder []
        { id := "a", attributes := [⟨"vector", .vector [7]⟩, ⟨"extra", .vector []⟩] } = .ok write ∧
      (new write.externalId write.attributes).encodeToBytes = .ok bytes ∧
      decodeFromBytes bytes 1 = .error e) ∧
    ∃ write, prepareVectorWrite openConfig entryOrder []
        { id := "a", attributes := [⟨"vector", .vector [7]⟩,
            ⟨"note", .string (String.ofList (List.replicate 65536 'x'))⟩] } = .ok write ∧
      (new write.externalId write.attributes).encodeToBytes = .error .panic := by
  refine ⟨⟨_, _, _, rfl, rfl, rfl⟩, encodeToBytes_panics_of_long ?_⟩
  rw [FitsUtf8, length_asBytes_replicate]
  decide

end OpenData.Vector

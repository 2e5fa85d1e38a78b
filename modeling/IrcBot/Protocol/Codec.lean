import IrcBot.Protocol.Schema
import IrcBot.Wire.Reader

/-! What is serialized is parsed back, member by member of the `oneof`; and a message that
was parsed from a byte string has no longer encoding than this string, as long as it is
one a bot sends. -/
namespace IrcBot.PluginProtocol

theorem proper_optional {k : ℕ} (hk : 0 < k ∧ k < 2 ^ 29) (w : Option Bytes) :
    ∀ f ∈ optional k w, f.Proper := by
  intro f hf
  cases w with
  | none => simp [optional] at hf
  | some w =>
    rw [show f = ⟨k, .block .delimited w⟩ by simpa [optional] using hf]
    exact ⟨hk.1, hk.2, trivial⟩

theorem proper_optionalEnum {α : Type} {k : ℕ} (hk : 0 < k ∧ k < 2 ^ 29) {value : α → ℕ}
    (hv : ∀ x, value x < 2 ^ 64) (x : Option α) : ∀ f ∈ optionalEnum k value x, f.Proper := by
  intro f hf
  cases x with
  | none => simp [optionalEnum] at hf
  | some x =>
    rw [show f = ⟨k, .varint (value x)⟩ by simpa [optionalEnum] using hf]
    exact ⟨hk.1, hk.2, hv x⟩

theorem proper_optionalInt32 {k : ℕ} (hk : 0 < k ∧ k < 2 ^ 29) (x : Option (BitVec 32)) :
    ∀ f ∈ optionalInt32 k x, f.Proper := by
  intro f hf
  cases x with
  | none => simp [optionalInt32] at hf
  | some x =>
    rw [show f = ⟨k, .varint (x.signExtend 64).toNat⟩ by simpa [optionalInt32] using hf]
    exact ⟨hk.1, hk.2, BitVec.isLt _⟩

theorem mergeFrom_encode {M : Type} {readField : M → Wire.Field → M} {m₀ m : M}
    {fs : List Wire.Field} (hfs : ∀ f ∈ fs, f.Proper) (hlen : (Wire.encode fs).length < 2 ^ 31)
    (hfold : fs.foldl readField m₀ = m) : mergeFrom readField m₀ (Wire.encode fs) = some m := by
  rw [mergeFrom, Wire.fields_encode_of_length hfs hlen, Option.map_some, hfold]

theorem int32_roundtrip (c : BitVec 32) : BitVec.ofNat 32 (c.signExtend 64).toNat = c := by
  rw [BitVec.ofNat_toNat]
  ext i hi
  simp only [BitVec.getElem_setWidth, BitVec.getLsbD_signExtend]
  have h64 : i < 64 := by omega
  simp [hi, h64]

namespace InitRequest

theorem proper (r : InitRequest) : ∀ f ∈ r.fields, f.Proper :=
  List.forall_mem_append.mpr ⟨proper_optional (by decide) _, proper_optional (by decide) _⟩

theorem foldl_fields (r : InitRequest) : r.fields.foldl readField {} = r := by
  obtain ⟨name, token⟩ := r
  cases name <;> cases token <;> rfl

end InitRequest

namespace InitResponse

theorem proper (r : InitResponse) : ∀ f ∈ r.fields, f.Proper :=
  proper_optionalEnum (by decide) (fun s => by cases s <;> decide) _

theorem foldl_fields (r : InitResponse) : r.fields.foldl readField {} = r := by
  obtain ⟨status⟩ := r
  rcases status with _ | s
  · rfl
  · cases s <;> rfl

end InitResponse

namespace IrcMessage

theorem proper (m : IrcMessage) : ∀ f ∈ m.fields, f.Proper := by
  unfold fields
  simp only [List.forall_mem_append]
  refine ⟨⟨⟨⟨⟨proper_optional (by decide) _, proper_optional (by decide) _⟩,
    proper_optional (by decide) _⟩, proper_optional (by decide) _⟩,
    proper_optional (by decide) _⟩, fun f hf => ?_⟩
  obtain ⟨p, -, rfl⟩ := List.mem_map.mp hf
  exact ⟨Nat.succ_pos 5, (by decide : 6 < 2 ^ 29), trivial⟩

theorem foldl_params (m : IrcMessage) (ps : List Bytes) :
    (ps.map fun p => (⟨6, .block .delimited p⟩ : Wire.Field)).foldl readField m =
      { m with params := m.params ++ ps } := by
  induction ps generalizing m with
  | nil => simp
  | cons p ps ih =>
    rw [List.map_cons, List.foldl_cons, ih]
    simp [readField]

theorem foldl_fields (m : IrcMessage) : m.fields.foldl readField {} = m := by
  obtain ⟨servername, user, nick, host, command, params⟩ := m
  rw [fields, List.foldl_append, foldl_params]
  cases servername <;> cases user <;> cases nick <;> cases host <;> cases command <;> rfl

end IrcMessage

namespace ControlRequest

theorem proper (r : ControlRequest) : ∀ f ∈ r.fields, f.Proper := by
  unfold fields
  simp only [List.forall_mem_append]
  exact ⟨⟨proper_optionalEnum (by decide) (fun t => by cases t <;> decide) _,
    proper_optional (by decide) _⟩, proper_optionalInt32 (by decide) _⟩

theorem foldl_fields (r : ControlRequest) : r.fields.foldl readField {} = r := by
  obtain ⟨type, msg, code⟩ := r
  have hcode : ∀ c : BitVec 32, BitVec.ofNat 32 (c.signExtend 64).toNat = c := int32_roundtrip
  rcases type with _ | t
  · cases msg <;> cases code <;>
      simp [fields, optionalEnum, optional, optionalInt32, readField, hcode]
  · cases t <;> cases msg <;> cases code <;>
      simp [fields, optionalEnum, optional, optionalInt32, readField, hcode, enumValue,
        RequestType.value, RequestType.ofValue]

end ControlRequest

namespace ControlResponse

theorem proper (r : ControlResponse) : ∀ f ∈ r.fields, f.Proper := by
  unfold fields
  simp only [List.forall_mem_append]
  exact ⟨⟨proper_optionalEnum (by decide) (fun t => by cases t <;> decide) _,
    proper_optional (by decide) _⟩, proper_optionalInt32 (by decide) _⟩

theorem foldl_fields (r : ControlResponse) : r.fields.foldl readField {} = r := by
  obtain ⟨response, msg, code⟩ := r
  have hcode : ∀ c : BitVec 32, BitVec.ofNat 32 (c.signExtend 64).toNat = c := int32_roundtrip
  rcases response with _ | t
  · cases msg <;> cases code <;>
      simp [fields, optionalEnum, optional, optionalInt32, readField, hcode]
  · cases t <;> cases msg <;> cases code <;>
      simp [fields, optionalEnum, optional, optionalInt32, readField, hcode, enumValue,
        Response.value, Response.ofValue]

end ControlResponse

namespace Message

/-- The member of the `oneof` is read back into a message without one. -/
theorem readField_data (t : Option MessageType) (d : Data)
    (hlen : d.field.encode.length < 2 ^ 31) :
    readField ⟨t, none⟩ d.field = some ⟨t, some d⟩ := by
  have hblock : ∀ (k : ℕ) (w : Bytes),
      (Wire.Field.encode ⟨k, .block .delimited w⟩).length < 2 ^ 31 → w.length < 2 ^ 31 := by
    intro k w h
    simp only [Wire.Field.encode, Wire.Value.encode, Wire.Kind.encode, List.length_append] at h
    omega
  cases d with
  | initReq r =>
    have h := mergeFrom_encode r.proper (hblock _ _ hlen) r.foldl_fields
    simp [Data.field, readField, initReq, h]
  | initResp r =>
    have h := mergeFrom_encode r.proper (hblock _ _ hlen) r.foldl_fields
    simp [Data.field, readField, initResp, h]
  | ircMsg r =>
    have h := mergeFrom_encode r.proper (hblock _ _ hlen) r.foldl_fields
    simp [Data.field, readField, ircMsg, h]
  | ctrlReq r =>
    have h := mergeFrom_encode r.proper (hblock _ _ hlen) r.foldl_fields
    simp [Data.field, readField, ctrlReq, h]
  | ctrlResp r =>
    have h := mergeFrom_encode r.proper (hblock _ _ hlen) r.foldl_fields
    simp [Data.field, readField, ctrlResp, h]

theorem proper (m : Message) : ∀ f ∈ m.fields, f.Proper := by
  refine List.forall_mem_append.mpr
    ⟨proper_optionalEnum (by decide) (fun t => by cases t <;> decide) _, fun f hf => ?_⟩
  obtain ⟨d, -, rfl⟩ : ∃ d, m.data = some d ∧ d.field = f := by simpa using hf
  cases d <;> exact ⟨by simp [Data.field], by simp [Data.field], trivial⟩

/-- Round trip of the plugin protocol. -/
theorem parse_serialize (m : Message) (hinit : m.isInitialized = true)
    (hlen : m.serializeToString.length < 2 ^ 31) : parseFromString m.serializeToString = some m := by
  have hfields := Wire.fields_encode_of_length m.proper hlen
  have hfold : m.fields.foldlM readField {} = some m := by
    obtain ⟨type, data⟩ := m
    have hdata : ∀ t : Option MessageType,
        (data.map Data.field).toList.foldlM readField ⟨t, none⟩ = some (⟨t, data⟩ : Message) := by
      intro t
      cases data with
      | none => rfl
      | some d =>
        have hd : d.field.encode.length < 2 ^ 31 :=
          (Wire.length_encode_le_of_mem (by simp [fields])).trans_lt hlen
        simp [readField_data t d hd]
    rw [fields, List.foldlM_append]
    rcases type with _ | t
    · exact hdata none
    · cases t <;> exact hdata (some _)
  rw [parseFromString, serializeToString, hfields, Option.bind_some, hfold, Option.filter_some, if_pos hinit]

end Message

/-- A fold whose steps pay for themselves. -/
private theorem length_foldl {M : Type} {fields : M → List Wire.Field} {readField : M → Wire.Field → M}
    (hstep : ∀ m f, (Wire.encode (fields (readField m f))).length ≤
      (Wire.encode (fields m)).length + f.encode.length) (m : M) (fs : List Wire.Field) :
    (Wire.encode (fields (fs.foldl readField m))).length ≤
      (Wire.encode (fields m)).length + (Wire.encode fs).length := by
  induction fs generalizing m with
  | nil => simp
  | cons f fs ih =>
    have h1 := hstep m f
    have h2 := ih (readField m f)
    rw [List.foldl_cons, Wire.encode_cons, List.length_append]
    omega

/-- What is merged into a message makes its encoding longer by no more than it takes. -/
theorem length_mergeFrom {M : Type} {fields : M → List Wire.Field}
    {readField : M → Wire.Field → M}
    (hstep : ∀ m f, (Wire.encode (fields (readField m f))).length ≤
      (Wire.encode (fields m)).length + f.encode.length) {m m' : M} {w : Bytes}
    (h : mergeFrom readField m w = some m') :
    (Wire.encode (fields m')).length ≤ (Wire.encode (fields m)).length + w.length := by
  obtain ⟨fs, hfs, rfl⟩ := Option.map_eq_some_iff.mp h
  have hfold := length_foldl hstep m fs
  have hw := Wire.encode_fields_length hfs
  omega

private theorem length_optional_some (k : ℕ) (w : Bytes) :
    (Wire.encode (optional k (some w))).length =
      (Wire.Field.encode ⟨k, .block .delimited w⟩).length := by
  simp [optional]

theorem InitRequest.readField_length (r : InitRequest) (f : Wire.Field) :
    (Wire.encode (r.readField f).fields).length ≤
      (Wire.encode r.fields).length + f.encode.length := by
  obtain ⟨k, v⟩ := f
  unfold readField
  split
  all_goals
    try simp only at *
    subst_vars
    simp only [fields, Wire.encode_append, List.length_append, length_optional_some]
    omega

theorem IrcMessage.readField_length (m : IrcMessage) (f : Wire.Field) :
    (Wire.encode (m.readField f).fields).length ≤
      (Wire.encode m.fields).length + f.encode.length := by
  obtain ⟨k, v⟩ := f
  unfold readField
  split
  all_goals
    try simp only at *
    subst_vars
    simp only [fields, Wire.encode_append, List.length_append, length_optional_some, List.map_append,
      List.map_cons, List.map_nil, Wire.encode_cons, Wire.encode_nil, List.length_nil]
    omega

/-- The fields that are the shortest to be read as this request: a negative code may stand without
the extension of its sign. -/
def ControlRequest.shortestFields (r : ControlRequest) : List Wire.Field :=
  optionalEnum 1 RequestType.value r.type ++ optional 2 r.msg ++
    (r.code.map fun x => (⟨3, .varint x.toNat⟩ : Wire.Field)).toList

/-- A field with a number takes at least two bytes. -/
private theorem two_le_length {f : Wire.Field} {n : ℕ} (h : f.value = .varint n) :
    2 ≤ f.encode.length := by
  have htag := Wire.varint_length_pos f.tag
  have hval : 0 < f.value.encode.length := by
    rw [h]
    exact Wire.varint_length_pos n
  rw [Wire.Field.encode, List.length_append]
  omega

theorem InitResponse.readField_length (r : InitResponse) (f : Wire.Field) :
    (Wire.encode (r.readField f).fields).length ≤
      (Wire.encode r.fields).length + f.encode.length := by
  have hlen (status : Option Status) : (Wire.encode (fields ⟨status⟩)).length ≤ 2 := by
    rcases status with _ | status
    · decide
    · cases status <;> decide
  unfold readField
  split
  · next n _ hv =>
    have htwo := two_le_length hv
    have := hlen (enumValue Status.ofValue n r.status)
    omega
  · omega

theorem ControlRequest.readField_length (r : ControlRequest) (f : Wire.Field) :
    (Wire.encode (r.readField f).shortestFields).length ≤
      (Wire.encode r.shortestFields).length + f.encode.length := by
  have htype (type : Option RequestType) :
      (Wire.encode (optionalEnum 1 RequestType.value type)).length ≤ 2 := by
    rcases type with _ | type
    · decide
    · cases type <;> decide
  obtain ⟨k, v⟩ := f
  unfold readField
  split
  · next n _ hv =>
    have htwo := two_le_length hv
    have := htype (enumValue RequestType.ofValue n r.type)
    simp only [shortestFields, Wire.encode_append, List.length_append]
    omega
  · next w hk hv =>
    obtain ⟨rfl, rfl⟩ : k = 2 ∧ v = .block .delimited w := ⟨hk, hv⟩
    simp only [shortestFields, Wire.encode_append, List.length_append, length_optional_some]
    omega
  · next n hk hv =>
    obtain ⟨rfl, rfl⟩ : k = 3 ∧ v = .varint n := ⟨hk, hv⟩
    -- the number is cut to 32 bits
    have hcode : (BitVec.ofNat 32 n).toNat ≤ n := by
      rw [BitVec.toNat_ofNat]
      exact Nat.mod_le _ _
    have hmono := Wire.varint_length_mono hcode
    simp only [shortestFields, Wire.encode_append, List.length_append, Option.map_some,
      Option.toList_some, Wire.encode_cons, Wire.encode_nil, List.length_nil, Wire.Field.encode,
      Wire.Value.encode, Wire.Field.tag]
    simp only [Wire.Value.wireType]
    omega
  · omega

namespace Message

/-- The least length of the data, as far as it is sent. -/
def dataLength : Option Data → ℕ
  | some (.initReq r) => (Data.initReq r).field.encode.length
  | some (.initResp r) => (Data.initResp r).field.encode.length
  | some (.ircMsg r) => (Data.ircMsg r).field.encode.length
  | some (.ctrlReq r) => (Wire.Field.encode ⟨5, .block .delimited (Wire.encode r.shortestFields)⟩).length
  | _ => 0

def typeLength (t : Option MessageType) : ℕ :=
  (Wire.encode (optionalEnum 1 MessageType.value t)).length

/-- The least length of an encoding of the message. -/
def leastLength (m : Message) : ℕ := typeLength m.type + dataLength m.data

private theorem length_block (k : ℕ) (w : Bytes) :
    (Wire.Field.encode ⟨k, .block .delimited w⟩).length =
      (Wire.varint (8 * k + 2)).length + (Wire.varint w.length).length + w.length := by
  simp [Wire.Field.encode, Wire.Field.tag, Wire.Value.encode, Wire.Kind.encode, Wire.Value.wireType,
    Wire.Kind.wireType, Nat.add_assoc]

private theorem typeLength_le (t : Option MessageType) : typeLength t ≤ 2 := by
  rcases t with _ | t
  · simp [typeLength, optionalEnum]
  · cases t <;> decide

/-- What is merged into a member of the `oneof`, or into an empty one that replaces another. -/
private theorem length_member {M : Type} {fields : M → List Wire.Field}
    {readField : M → Wire.Field → M}
    (hstep : ∀ m f, (Wire.encode (fields (readField m f))).length ≤
      (Wire.encode (fields m)).length + f.encode.length) {k l : ℕ} {m m' : M} {w : Bytes}
    (hm : Wire.encode (fields m) = [] ∨
      l = (Wire.Field.encode ⟨k, .block .delimited (Wire.encode (fields m))⟩).length)
    (h : mergeFrom readField m w = some m') :
    (Wire.Field.encode ⟨k, .block .delimited (Wire.encode (fields m'))⟩).length ≤
      l + (Wire.Field.encode ⟨k, .block .delimited w⟩).length := by
  have hlen := length_mergeFrom hstep h
  have hmono := Wire.varint_length_mono hlen
  have hadd := Wire.varint_length_add (Wire.encode (fields m)).length w.length
  rcases hm with hm | rfl
  · rw [hm, List.length_nil, Nat.zero_add] at hlen hmono
    simp only [length_block]
    omega
  · simp only [length_block]
    omega

private theorem length_initReq (t : Option MessageType) (d : Option Data) :
    Wire.encode (initReq ⟨t, d⟩).fields = [] ∨ dataLength d =
      (Wire.Field.encode ⟨2, .block .delimited (Wire.encode (initReq ⟨t, d⟩).fields)⟩).length := by
  rcases d with _ | (_ | _ | _ | _ | _) <;> first | exact .inl rfl | exact .inr rfl

private theorem length_initResp (t : Option MessageType) (d : Option Data) :
    Wire.encode (initResp ⟨t, d⟩).fields = [] ∨ dataLength d =
      (Wire.Field.encode ⟨3, .block .delimited (Wire.encode (initResp ⟨t, d⟩).fields)⟩).length := by
  rcases d with _ | (_ | _ | _ | _ | _) <;> first | exact .inl rfl | exact .inr rfl

private theorem length_ircMsg (t : Option MessageType) (d : Option Data) :
    Wire.encode (ircMsg ⟨t, d⟩).fields = [] ∨ dataLength d =
      (Wire.Field.encode ⟨4, .block .delimited (Wire.encode (ircMsg ⟨t, d⟩).fields)⟩).length := by
  rcases d with _ | (_ | _ | _ | _ | _) <;> first | exact .inl rfl | exact .inr rfl

private theorem length_ctrlReq (t : Option MessageType) (d : Option Data) :
    Wire.encode (ctrlReq ⟨t, d⟩).shortestFields = [] ∨ dataLength d =
      (Wire.Field.encode ⟨5, .block .delimited (Wire.encode (ctrlReq ⟨t, d⟩).shortestFields)⟩).length := by
  rcases d with _ | (_ | _ | _ | _ | _) <;> first | exact .inl rfl | exact .inr rfl

theorem readField_length {m m' : Message} {f : Wire.Field} (h : m.readField f = some m') :
    m'.leastLength ≤ m.leastLength + f.encode.length := by
  obtain ⟨k, v⟩ := f
  obtain ⟨t, d⟩ := m
  unfold readField at h
  simp only [leastLength]
  split at h
  · next n hk hv =>
    obtain rfl := Option.some.inj h
    have ht := typeLength_le (enumValue MessageType.ofValue n t)
    have htag := Wire.varint_length_pos (Wire.Field.tag ⟨k, v⟩)
    have hval : 0 < v.encode.length := by
      rw [show v = .varint n from hv]
      exact Wire.varint_length_pos n
    simp only [Wire.Field.encode, List.length_append]
    omega
  · next w hk hv =>
    obtain ⟨r, hr, rfl⟩ := Option.map_eq_some_iff.mp h
    obtain ⟨rfl, rfl⟩ : k = 2 ∧ v = .block .delimited w := ⟨hk, hv⟩
    have := length_member InitRequest.readField_length (length_initReq t d) hr
    change typeLength t + _ ≤ typeLength t + dataLength d + _
    rw [Nat.add_assoc]
    exact Nat.add_le_add_left this _
  · next w hk hv =>
    obtain ⟨r, hr, rfl⟩ := Option.map_eq_some_iff.mp h
    obtain ⟨rfl, rfl⟩ : k = 3 ∧ v = .block .delimited w := ⟨hk, hv⟩
    have := length_member InitResponse.readField_length (length_initResp t d) hr
    change typeLength t + _ ≤ typeLength t + dataLength d + _
    rw [Nat.add_assoc]
    exact Nat.add_le_add_left this _
  · next w hk hv =>
    obtain ⟨r, hr, rfl⟩ := Option.map_eq_some_iff.mp h
    obtain ⟨rfl, rfl⟩ : k = 4 ∧ v = .block .delimited w := ⟨hk, hv⟩
    have := length_member IrcMessage.readField_length (length_ircMsg t d) hr
    change typeLength t + _ ≤ typeLength t + dataLength d + _
    rw [Nat.add_assoc]
    exact Nat.add_le_add_left this _
  · next w hk hv =>
    obtain ⟨r, hr, rfl⟩ := Option.map_eq_some_iff.mp h
    obtain ⟨rfl, rfl⟩ : k = 5 ∧ v = .block .delimited w := ⟨hk, hv⟩
    have := length_member ControlRequest.readField_length (length_ctrlReq t d) hr
    change typeLength t + _ ≤ typeLength t + dataLength d + _
    rw [Nat.add_assoc]
    exact Nat.add_le_add_left this _
  · next w hk hv =>
    obtain ⟨r, -, rfl⟩ := Option.map_eq_some_iff.mp h
    simp only [dataLength]
    omega
  · obtain rfl := Option.some.inj h
    exact Nat.le_add_right _ _

/-- A message takes no more bytes than it was parsed from. -/
theorem parse_length {m : Message} {w : Bytes} (h : parseFromString w = some m) :
    m.leastLength ≤ w.length := by
  obtain ⟨h, -⟩ := Option.filter_eq_some_iff.mp h
  obtain ⟨fs, hfs, hfold⟩ := Option.bind_eq_some_iff.mp h
  have hlen : ∀ (gs : List Wire.Field) (m₀ : Message), gs.foldlM readField m₀ = some m →
      m.leastLength ≤ m₀.leastLength + (Wire.encode gs).length := by
    intro gs
    induction gs with
    | nil =>
      intro m₀ hm
      cases hm
      simp
    | cons g gs ih =>
      intro m₀ hm
      obtain ⟨m₁, hg, hgs⟩ := Option.bind_eq_some_iff.mp hm
      have h1 := readField_length hg
      have h2 := ih m₁ hgs
      rw [Wire.encode_cons, List.length_append]
      omega
  have h1 := hlen fs {} hfold
  have h2 := Wire.encode_fields_length hfs
  have h3 : leastLength {} = 0 := rfl
  omega

end Message
end IrcBot.PluginProtocol

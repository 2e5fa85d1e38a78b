import IrcBot.Protocol.Framing

/-! Several writes in one read. Parsing the concatenation of serialized messages merges
them: a field that is set overwrites, a repeated field is appended to, and a member of the
`oneof` is merged into the same member or replaces another one. -/
namespace IrcBot.PluginProtocol

def InitRequest.merge (r s : InitRequest) : InitRequest where
  name := s.name <|> r.name
  token := s.token <|> r.token

def InitResponse.merge (r s : InitResponse) : InitResponse where
  status := s.status <|> r.status

def IrcMessage.merge (r s : IrcMessage) : IrcMessage where
  servername := s.servername <|> r.servername
  user := s.user <|> r.user
  nick := s.nick <|> r.nick
  host := s.host <|> r.host
  command := s.command <|> r.command
  params := r.params ++ s.params

def ControlRequest.merge (r s : ControlRequest) : ControlRequest where
  type := s.type <|> r.type
  msg := s.msg <|> r.msg
  code := s.code <|> r.code

def ControlResponse.merge (r s : ControlResponse) : ControlResponse where
  response := s.response <|> r.response
  msg := s.msg <|> r.msg
  code := s.code <|> r.code

/-- The getter of another member gives the default message, which changes nothing. -/
def Message.mergeData (m : Message) : Data → Data
  | .initReq r => .initReq (m.initReq.merge r)
  | .initResp r => .initResp (m.initResp.merge r)
  | .ircMsg r => .ircMsg (m.ircMsg.merge r)
  | .ctrlReq r => .ctrlReq (m.ctrlReq.merge r)
  | .ctrlResp r => .ctrlResp (m.ctrlResp.merge r)

def Message.merge (m n : Message) : Message where
  type := n.type <|> m.type
  data := n.data.map m.mergeData <|> m.data

theorem InitRequest.foldl_fields_merge (r s : InitRequest) :
    s.fields.foldl readField r = r.merge s := by
  obtain ⟨name, token⟩ := s
  cases name <;> cases token <;> rfl

theorem InitResponse.foldl_fields_merge (r s : InitResponse) :
    s.fields.foldl readField r = r.merge s := by
  obtain ⟨status⟩ := s
  rcases status with _ | s
  · rfl
  · cases s <;> rfl

theorem IrcMessage.foldl_fields_merge (r s : IrcMessage) :
    s.fields.foldl readField r = r.merge s := by
  obtain ⟨servername, user, nick, host, command, params⟩ := s
  rw [fields, List.foldl_append, foldl_params]
  cases servername <;> cases user <;> cases nick <;> cases host <;> cases command <;> rfl

theorem ControlRequest.foldl_fields_merge (r s : ControlRequest) :
    s.fields.foldl readField r = r.merge s := by
  obtain ⟨type, msg, code⟩ := s
  have hcode : ∀ c : BitVec 32, BitVec.ofNat 32 (c.signExtend 64).toNat = c := int32_roundtrip
  rcases type with _ | t
  · cases msg <;> cases code <;>
      simp [fields, optionalEnum, optional, optionalInt32, readField, hcode, merge]
  · cases t <;> cases msg <;> cases code <;>
      simp [fields, optionalEnum, optional, optionalInt32, readField, hcode, enumValue,
        RequestType.value, RequestType.ofValue, merge]

theorem ControlResponse.foldl_fields_merge (r s : ControlResponse) :
    s.fields.foldl readField r = r.merge s := by
  obtain ⟨response, msg, code⟩ := s
  have hcode : ∀ c : BitVec 32, BitVec.ofNat 32 (c.signExtend 64).toNat = c := int32_roundtrip
  rcases response with _ | t
  · cases msg <;> cases code <;>
      simp [fields, optionalEnum, optional, optionalInt32, readField, hcode, merge]
  · cases t <;> cases msg <;> cases code <;>
      simp [fields, optionalEnum, optional, optionalInt32, readField, hcode, enumValue,
        Response.value, Response.ofValue, merge]

namespace Message

/-- A member of the `oneof` is merged into any message. -/
theorem readField_data_merge (m : Message) (d : Data) (hlen : d.field.encode.length < 2 ^ 31) :
    readField m d.field = some { m with data := some (m.mergeData d) } := by
  have hblock : ∀ (k : ℕ) (w : Bytes),
      (Wire.Field.encode ⟨k, .block .delimited w⟩).length < 2 ^ 31 → w.length < 2 ^ 31 := by
    intro k w h
    simp only [Wire.Field.encode, Wire.Value.encode, Wire.Kind.encode, List.length_append] at h
    omega
  cases d with
  | initReq r =>
    have h := mergeFrom_encode r.proper (hblock _ _ hlen) (m.initReq.foldl_fields_merge r)
    simp [Data.field, readField, mergeData, h]
  | initResp r =>
    have h := mergeFrom_encode r.proper (hblock _ _ hlen) (m.initResp.foldl_fields_merge r)
    simp [Data.field, readField, mergeData, h]
  | ircMsg r =>
    have h := mergeFrom_encode r.proper (hblock _ _ hlen) (m.ircMsg.foldl_fields_merge r)
    simp [Data.field, readField, mergeData, h]
  | ctrlReq r =>
    have h := mergeFrom_encode r.proper (hblock _ _ hlen) (m.ctrlReq.foldl_fields_merge r)
    simp [Data.field, readField, mergeData, h]
  | ctrlResp r =>
    have h := mergeFrom_encode r.proper (hblock _ _ hlen) (m.ctrlResp.foldl_fields_merge r)
    simp [Data.field, readField, mergeData, h]

/-- The fields of a message are merged into any message. -/
theorem foldlM_fields (m n : Message) (hlen : n.serializeToString.length < 2 ^ 31) :
    n.fields.foldlM readField m = some (m.merge n) := by
  obtain ⟨type, data⟩ := n
  have hdata : ∀ m' : Message, (data.map Data.field).toList.foldlM readField m' =
      some { m' with data := data.map m'.mergeData <|> m'.data } := by
    intro m'
    cases data with
    | none => rfl
    | some d =>
      have hd : d.field.encode.length < 2 ^ 31 :=
        (Wire.length_encode_le_of_mem (by simp [fields])).trans_lt hlen
      simp [readField_data_merge m' d hd]
  rw [fields, List.foldlM_append]
  rcases type with _ | t
  · exact hdata m
  · cases t <;> exact hdata _

theorem foldlM_flatMap_fields (m : Message) {ns : List Message}
    (hlen : ∀ n ∈ ns, n.serializeToString.length < 2 ^ 31) :
    (ns.flatMap fields).foldlM readField m = some (ns.foldl merge m) := by
  induction ns generalizing m with
  | nil => rfl
  | cons n ns ih =>
    rw [List.flatMap_cons, List.foldlM_append, foldlM_fields m n (hlen n (by simp))]
    exact ih (m.merge n) fun n' hn' => hlen n' (by simp [hn'])

theorem flatten_serialize (ns : List Message) :
    (ns.map serializeToString).flatten = Wire.encode (ns.flatMap fields) := by
  induction ns with
  | nil => rfl
  | cons n ns ih => rw [List.map_cons, List.flatten_cons, List.flatMap_cons, Wire.encode_append, ih,
      serializeToString]

/-- A concatenation is parsed as the messages merged one after the other. -/
theorem parse_concat {ns : List Message}
    (hlen : (ns.map serializeToString).flatten.length < 2 ^ 31) :
    parseFromString (ns.map serializeToString).flatten =
      (some (ns.foldl merge {})).filter isInitialized := by
  have hproper : ∀ f ∈ ns.flatMap fields, f.Proper := by
    intro f hf
    obtain ⟨n, -, hn⟩ := List.mem_flatMap.mp hf
    exact n.proper f hn
  have hmem : ∀ n ∈ ns, n.serializeToString.length < 2 ^ 31 := by
    intro n hn
    have hsub := List.sublist_flatten_of_mem (List.mem_map_of_mem (f := serializeToString) hn)
    exact hsub.length_le.trans_lt hlen
  rw [flatten_serialize] at hlen ⊢
  rw [parseFromString, Wire.fields_encode_of_length hproper hlen, Option.bind_some,
    foldlM_flatMap_fields {} hmem]

end Message
end IrcBot.PluginProtocol

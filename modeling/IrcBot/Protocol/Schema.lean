import IrcBot.Bytes
import IrcBot.Wire.Field

/-! The messages between the bot and its remote plugins, with the fields and numbers of
their schema. A field that has not been set is `none`; merging overwrites scalars, appends
to repeated fields, and ignores unknown fields and unknown enumeration values. -/
namespace IrcBot.PluginProtocol

/-- A string field, written if it is set. -/
def optional (number : ℕ) (w : Option Bytes) : List Wire.Field :=
  (w.map fun w => (⟨number, .block .delimited w⟩ : Wire.Field)).toList

/-- An enumeration field, written if it is set. -/
def optionalEnum {α : Type} (number : ℕ) (value : α → ℕ) (x : Option α) : List Wire.Field :=
  (x.map fun x => (⟨number, .varint (value x)⟩ : Wire.Field)).toList

/-- An enumeration value as it is read: the low 32 bits of the varint count. -/
def enumValue {α : Type} (ofValue : ℕ → Option α) (n : ℕ) (old : Option α) : Option α :=
  match ofValue (n % 2 ^ 32) with
  | some x => some x
  | none => old

/-- Merge the fields of a byte string into a message. -/
def mergeFrom {M : Type} (readField : M → Wire.Field → M) (m : M) (w : Bytes) : Option M :=
  (Wire.fields w).map (List.foldl readField m)

structure InitRequest where
  name : Option Bytes := none
  token : Option Bytes := none
  deriving DecidableEq, Repr

namespace InitRequest

def fields (r : InitRequest) : List Wire.Field := optional 1 r.name ++ optional 2 r.token

def readField (r : InitRequest) (f : Wire.Field) : InitRequest :=
  match f.number, f.value with
  | 1, .block .delimited w => { r with name := some w }
  | 2, .block .delimited w => { r with token := some w }
  | _, _ => r

def isInitialized (r : InitRequest) : Bool := r.name.isSome && r.token.isSome

end InitRequest

inductive InitResponse.Status
  | ok | error
  deriving DecidableEq, Repr

namespace InitResponse.Status

def value : Status → ℕ
  | .ok => 1
  | .error => 2

def ofValue : ℕ → Option Status
  | 1 => some .ok
  | 2 => some .error
  | _ => none

end InitResponse.Status

structure InitResponse where
  status : Option InitResponse.Status := none
  deriving DecidableEq, Repr

namespace InitResponse

def fields (r : InitResponse) : List Wire.Field := optionalEnum 1 Status.value r.status

def readField (r : InitResponse) (f : Wire.Field) : InitResponse :=
  match f.number, f.value with
  | 1, .varint n => { r with status := enumValue Status.ofValue n r.status }
  | _, _ => r

def isInitialized (r : InitResponse) : Bool := r.status.isSome

end InitResponse

structure IrcMessage where
  servername : Option Bytes := none
  user : Option Bytes := none
  nick : Option Bytes := none
  host : Option Bytes := none
  command : Option Bytes := none
  params : List Bytes := []
  deriving DecidableEq, Repr

namespace IrcMessage

def fields (m : IrcMessage) : List Wire.Field :=
  optional 1 m.servername ++ optional 2 m.user ++ optional 3 m.nick ++ optional 4 m.host ++
    optional 5 m.command ++ m.params.map fun p => ⟨6, .block .delimited p⟩

def readField (m : IrcMessage) (f : Wire.Field) : IrcMessage :=
  match f.number, f.value with
  | 1, .block .delimited w => { m with servername := some w }
  | 2, .block .delimited w => { m with user := some w }
  | 3, .block .delimited w => { m with nick := some w }
  | 4, .block .delimited w => { m with host := some w }
  | 5, .block .delimited w => { m with command := some w }
  | 6, .block .delimited w => { m with params := m.params ++ [w] }
  | _, _ => m

def isInitialized (m : IrcMessage) : Bool :=
  m.servername.isSome && m.user.isSome && m.nick.isSome && m.host.isSome && m.command.isSome

end IrcMessage

/-- An `int32` field, written if it is set: negative numbers are extended to 64 bits. -/
def optionalInt32 (number : ℕ) (x : Option (BitVec 32)) : List Wire.Field :=
  (x.map fun x => (⟨number, .varint (x.signExtend 64).toNat⟩ : Wire.Field)).toList

inductive ControlRequest.RequestType
  | init | shutdown | reload | restart
  deriving DecidableEq, Repr

namespace ControlRequest.RequestType

def value : ControlRequest.RequestType → ℕ
  | .init => 1
  | .shutdown => 2
  | .reload => 3
  | .restart => 4

def ofValue : ℕ → Option ControlRequest.RequestType
  | 1 => some .init
  | 2 => some .shutdown
  | 3 => some .reload
  | 4 => some .restart
  | _ => none

end ControlRequest.RequestType

structure ControlRequest where
  type : Option ControlRequest.RequestType := none
  msg : Option Bytes := none
  code : Option (BitVec 32) := none
  deriving DecidableEq, Repr

namespace ControlRequest

def fields (r : ControlRequest) : List Wire.Field :=
  optionalEnum 1 RequestType.value r.type ++ optional 2 r.msg ++ optionalInt32 3 r.code

def readField (r : ControlRequest) (f : Wire.Field) : ControlRequest :=
  match f.number, f.value with
  | 1, .varint n => { r with type := enumValue RequestType.ofValue n r.type }
  | 2, .block .delimited w => { r with msg := some w }
  | 3, .varint n => { r with code := some (BitVec.ofNat 32 n) }
  | _, _ => r

def isInitialized (r : ControlRequest) : Bool := r.type.isSome

end ControlRequest

inductive ControlResponse.Response
  | finishedOk | finishedError | notFinished
  deriving DecidableEq, Repr

namespace ControlResponse.Response

def value : Response → ℕ
  | .finishedOk => 1
  | .finishedError => 2
  | .notFinished => 3

def ofValue : ℕ → Option Response
  | 1 => some .finishedOk
  | 2 => some .finishedError
  | 3 => some .notFinished
  | _ => none

end ControlResponse.Response

structure ControlResponse where
  response : Option ControlResponse.Response := none
  msg : Option Bytes := none
  code : Option (BitVec 32) := none
  deriving DecidableEq, Repr

namespace ControlResponse

def fields (r : ControlResponse) : List Wire.Field :=
  optionalEnum 1 Response.value r.response ++ optional 2 r.msg ++ optionalInt32 3 r.code

def readField (r : ControlResponse) (f : Wire.Field) : ControlResponse :=
  match f.number, f.value with
  | 1, .varint n => { r with response := enumValue Response.ofValue n r.response }
  | 2, .block .delimited w => { r with msg := some w }
  | 3, .varint n => { r with code := some (BitVec.ofNat 32 n) }
  | _, _ => r

def isInitialized (r : ControlResponse) : Bool := r.response.isSome

end ControlResponse

inductive MessageType
  | initRequest | initResponse | ircMessage | controlRequest | controlResponse
  deriving DecidableEq, Repr

namespace MessageType

def value : MessageType → ℕ
  | .initRequest => 1
  | .initResponse => 2
  | .ircMessage => 3
  | .controlRequest => 4
  | .controlResponse => 5

def ofValue : ℕ → Option MessageType
  | 1 => some .initRequest
  | 2 => some .initResponse
  | 3 => some .ircMessage
  | 4 => some .controlRequest
  | 5 => some .controlResponse
  | _ => none

end MessageType

/-- The `oneof data` of a message. -/
inductive Data
  | initReq (r : InitRequest)
  | initResp (r : InitResponse)
  | ircMsg (m : IrcMessage)
  | ctrlReq (r : ControlRequest)
  | ctrlResp (r : ControlResponse)
  deriving DecidableEq, Repr

def Data.field : Data → Wire.Field
  | .initReq r => ⟨2, .block .delimited (Wire.encode r.fields)⟩
  | .initResp r => ⟨3, .block .delimited (Wire.encode r.fields)⟩
  | .ircMsg m => ⟨4, .block .delimited (Wire.encode m.fields)⟩
  | .ctrlReq r => ⟨5, .block .delimited (Wire.encode r.fields)⟩
  | .ctrlResp r => ⟨6, .block .delimited (Wire.encode r.fields)⟩

def Data.isInitialized : Data → Bool
  | .initReq r => r.isInitialized
  | .initResp r => r.isInitialized
  | .ircMsg m => m.isInitialized
  | .ctrlReq r => r.isInitialized
  | .ctrlResp r => r.isInitialized

structure Message where
  type : Option MessageType := none
  data : Option Data := none
  deriving DecidableEq, Repr

namespace Message

/-- `type()`: an unset enumeration reads as its first value. -/
def getType (m : Message) : MessageType := m.type.getD .initRequest

def hasInitReq (m : Message) : Bool :=
  match m.data with
  | some (.initReq _) => true
  | _ => false

def hasIrcMsg (m : Message) : Bool :=
  match m.data with
  | some (.ircMsg _) => true
  | _ => false

/-- The getters give the default message if another member of the `oneof` is set. -/
def initReq (m : Message) : InitRequest :=
  match m.data with
  | some (.initReq r) => r
  | _ => {}

def initResp (m : Message) : InitResponse :=
  match m.data with
  | some (.initResp r) => r
  | _ => {}

def ircMsg (m : Message) : IrcMessage :=
  match m.data with
  | some (.ircMsg r) => r
  | _ => {}

def ctrlReq (m : Message) : ControlRequest :=
  match m.data with
  | some (.ctrlReq r) => r
  | _ => {}

def ctrlResp (m : Message) : ControlResponse :=
  match m.data with
  | some (.ctrlResp r) => r
  | _ => {}

def fields (m : Message) : List Wire.Field :=
  optionalEnum 1 MessageType.value m.type ++ (m.data.map Data.field).toList

/-- A member of the `oneof` is merged into the one that is set, or replaces another. -/
def readField (m : Message) (f : Wire.Field) : Option Message :=
  match f.number, f.value with
  | 1, .varint n => some { m with type := enumValue MessageType.ofValue n m.type }
  | 2, .block .delimited w =>
    (mergeFrom InitRequest.readField m.initReq w).map fun r => { m with data := some (.initReq r) }
  | 3, .block .delimited w =>
    (mergeFrom InitResponse.readField m.initResp w).map fun r => { m with data := some (.initResp r) }
  | 4, .block .delimited w =>
    (mergeFrom IrcMessage.readField m.ircMsg w).map fun r => { m with data := some (.ircMsg r) }
  | 5, .block .delimited w =>
    (mergeFrom ControlRequest.readField m.ctrlReq w).map fun r => { m with data := some (.ctrlReq r) }
  | 6, .block .delimited w =>
    (mergeFrom ControlResponse.readField m.ctrlResp w).map fun r =>
      { m with data := some (.ctrlResp r) }
  | _, _ => some m

def isInitialized (m : Message) : Bool := m.type.isSome && m.data.all Data.isInitialized

def serializeToString (m : Message) : Bytes := Wire.encode m.fields

/-- `none` stands for a return value `false`. -/
def parseFromString (w : Bytes) : Option Message :=
  ((Wire.fields w).bind fun fs => fs.foldlM readField {}).filter isInitialized

end Message
end IrcBot.PluginProtocol

import IrcBot.Irc.Message
import IrcBot.Machine.Mealy
import IrcBot.Protocol.Codec

/-! Both ends of a plugin connection: what each side writes and what it does with one
read. Every write is one serialized message; every read is parsed as one message. -/
namespace IrcBot
open PluginProtocol Irc

/-- Capacity of the receive buffers on both sides. -/
def bufferSize : ℕ := 8192

def Irc.IRCMessage.fromProtobuf (m : IrcMessage) : IRCMessage where
  servername := m.servername.getD []
  user := m.user.getD []
  nick := m.nick.getD []
  host := m.host.getD []
  command := m.command.getD []
  params := m.params

/-- The setters both sides call on the message they are about to send. -/
def Irc.IRCMessage.toProtobuf (m : IRCMessage) : IrcMessage where
  servername := some m.servername
  user := some m.user
  nick := some m.nick
  host := some m.host
  command := some m.command
  params := m.params

@[simp] theorem fromProtobuf_toProtobuf (m : IRCMessage) :
    IRCMessage.fromProtobuf m.toProtobuf = m := rfl

namespace TcpPlugin

/-- The control request itself is serialized here, not a message that holds it. -/
def onInit : Bytes :=
  let ctrlReq : ControlRequest := { type := some .init }
  Wire.encode ctrlReq.fields

def onMessage (m : IRCMessage) : Bytes :=
  (Message.mk (some .ircMessage) (some (.ircMsg m.toProtobuf))).serializeToString

def sendInitResponse (status : InitResponse.Status) : Bytes :=
  (Message.mk (some .initResponse) (some (.initResp ⟨some status⟩))).serializeToString

def controlRequest (type : ControlRequest.RequestType) (msg : Bytes) (code : BitVec 32) :
    ControlRequest where
  type := some type
  msg := if msg ≠ [] then some msg else none
  code := if 0 < code then some code else none

def sendControlRequest (type : ControlRequest.RequestType) (msg : Bytes := [])
    (code : BitVec 32 := 0) : Bytes :=
  (Message.mk (some .controlRequest) (some (.ctrlReq (controlRequest type msg code)))).serializeToString

/-- What a read is passed on as. -/
inductive Request
  | initRequest (name token : Bytes)
  | ircMessage (m : IRCMessage)
  deriving DecidableEq, Repr

/-- The function called on the parsed message, if there is one. -/
def parseMessage (data : Bytes) : Option Request :=
  match Message.parseFromString data with
  | none => none
  | some msg =>
    match msg.getType with
    | .initRequest =>
      if msg.hasInitReq then
        some (.initRequest (msg.initReq.name.getD []) (msg.initReq.token.getD []))
      else none
    | .ircMessage =>
      if msg.hasIrcMsg then some (.ircMessage (IRCMessage.fromProtobuf msg.ircMsg)) else none
    | _ => none

end TcpPlugin

namespace Bot

/-- The plugin description: its name and token, and which of its callbacks are set. -/
structure Plugin where
  name : Bytes
  token : Bytes
  onInit : Bool
  onMessage : Bool
  onShutdown : Bool
  onRestart : Bool
  onReload : Bool
  deriving DecidableEq, Repr

/-- `initialize`: the first message after connecting. -/
def initRequest (name token : Bytes) : Bytes :=
  (Message.mk (some .initRequest) (some (.initReq ⟨some name, some token⟩))).serializeToString

def sendIrcMessage (m : IRCMessage) : Bytes :=
  (Message.mk (some .ircMessage) (some (.ircMsg m.toProtobuf))).serializeToString

/-- What a remote plugin writes to the bot. -/
def write : TcpPlugin.Request → Bytes
  | .initRequest name token => initRequest name token
  | .ircMessage m => sendIrcMessage m

/-- The branches of `parse`. -/
inductive Incoming
  | initResponse (status : InitResponse.Status)
  | ircMessage (m : IRCMessage)
  | controlRequest (type : ControlRequest.RequestType)
  deriving DecidableEq, Repr

/-- The result of parsing is not looked at: `salvage` is what a failed call leaves in the
message, which is unspecified. -/
def received (salvage : Bytes → Message) (data : Bytes) : Message :=
  (Message.parseFromString data).getD (salvage data)

/-- The branch a read takes. The getters do not ask which data is present, and an unset
enumeration has its first value. -/
def incoming (salvage : Bytes → Message) (data : Bytes) : Option Incoming :=
  let msg := received salvage data
  match msg.getType with
  | .initResponse => some (.initResponse (msg.initResp.status.getD .ok))
  | .ircMessage => some (.ircMessage (IRCMessage.fromProtobuf msg.ircMsg))
  | .controlRequest => some (.controlRequest (msg.ctrlReq.type.getD .init))
  | .initRequest | .controlResponse => none

/-- A callback of the plugin description with its argument. -/
inductive Call
  | onInit
  | onMessage (m : IRCMessage)
  | onShutdown
  | onRestart
  | onReload
  deriving DecidableEq, Repr

def Plugin.has (p : Plugin) : Call → Bool
  | .onInit => p.onInit
  | .onMessage _ => p.onMessage
  | .onShutdown => p.onShutdown
  | .onRestart => p.onRestart
  | .onReload => p.onReload

/-- Call a callback if it is set. -/
def Plugin.call (p : Plugin) (c : Call) : List Call := if p.has c then [c] else []

end Bot

/-- A remote plugin's side of the connection. -/
structure Bot where
  plugin : Bot.Plugin
  started : Bool := true
  socketOpen : Bool := true
  deriving DecidableEq, Repr

namespace Bot

def stop (b : Bot) : Bot := { b with started := false, socketOpen := false }

def controlRequest (b : Bot) (type : ControlRequest.RequestType) : Bot × List Call :=
  match type with
  | .init => (b, b.plugin.call .onInit)
  | .shutdown => (b.stop, b.plugin.call .onShutdown)
  | .reload => (b, b.plugin.call .onReload)
  | .restart => (b, b.plugin.call .onRestart)

/-- One completed read: `parse` and the function it calls. On a closed socket no read
completes. -/
def parse (salvage : Bytes → Message) (b : Bot) (data : Bytes) : Bot × List Call :=
  if b.socketOpen then
    match incoming salvage data with
    | some (.ircMessage m) => (b, b.plugin.call (.onMessage m))
    | some (.controlRequest type) => b.controlRequest type
    | some (.initResponse _) | none => (b, [])
  else (b, [])

/-- The read loop: reads in, callbacks out. -/
def receive (salvage : Bytes → Message) : Machine.Mealy Bot Bytes Call := ⟨parse salvage⟩

@[simp] theorem receive_step (salvage : Bytes → Message) (b : Bot) (data : Bytes) :
    (receive salvage).step b data = b.parse salvage data := rfl

end Bot

section
variable {w : Bytes} (salvage : Bytes → Message)

theorem Bot.received_of_parse {m : Message} (h : Message.parseFromString w = some m) :
    Bot.received salvage w = m := by
  rw [Bot.received, h, Option.getD_some]

/-- A bare control request is read as a message of the type with the same number. -/
theorem parse_onInit :
    Message.parseFromString TcpPlugin.onInit = some ⟨some .initRequest, none⟩ := by
  decide

theorem Bot.incoming_onInit : Bot.incoming salvage TcpPlugin.onInit = none := by
  rw [Bot.incoming, Bot.received_of_parse salvage parse_onInit]
  rfl

theorem Bot.incoming_onMessage {m : IRCMessage} (h : (TcpPlugin.onMessage m).length < 2 ^ 31) :
    Bot.incoming salvage (TcpPlugin.onMessage m) = some (.ircMessage m) := by
  have hp : Message.parseFromString (TcpPlugin.onMessage m) = some _ :=
    Message.parse_serialize _ rfl h
  rw [Bot.incoming, Bot.received_of_parse salvage hp]
  rfl

theorem Bot.incoming_sendInitResponse (status : InitResponse.Status) :
    Bot.incoming salvage (TcpPlugin.sendInitResponse status) = some (.initResponse status) := by
  have hlen : (TcpPlugin.sendInitResponse status).length < 2 ^ 31 := by cases status <;> decide
  have hp : Message.parseFromString (TcpPlugin.sendInitResponse status) = some _ :=
    Message.parse_serialize _ rfl hlen
  rw [Bot.incoming, Bot.received_of_parse salvage hp]
  rfl

theorem Bot.incoming_sendControlRequest {type : ControlRequest.RequestType} {msg : Bytes}
    {code : BitVec 32} (h : (TcpPlugin.sendControlRequest type msg code).length < 2 ^ 31) :
    Bot.incoming salvage (TcpPlugin.sendControlRequest type msg code) =
      some (.controlRequest type) := by
  have hp : Message.parseFromString (TcpPlugin.sendControlRequest type msg code) = some _ :=
    Message.parse_serialize _ rfl h
  rw [Bot.incoming, Bot.received_of_parse salvage hp]
  rfl

/-- What a remote plugin writes is parsed as what it is. -/
theorem TcpPlugin.parseMessage_write {r : TcpPlugin.Request} (h : (Bot.write r).length < 2 ^ 31) :
    TcpPlugin.parseMessage (Bot.write r) = some r := by
  cases r with
  | initRequest name token =>
    rw [TcpPlugin.parseMessage, Bot.write, Bot.initRequest, Message.parse_serialize _ rfl h]
    rfl
  | ircMessage m =>
    rw [TcpPlugin.parseMessage, Bot.write, Bot.sendIrcMessage, Message.parse_serialize _ rfl h]
    rfl

end
end IrcBot

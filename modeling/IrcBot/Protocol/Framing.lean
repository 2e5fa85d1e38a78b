import IrcBot.Machine.Framing
import IrcBot.Protocol.Endpoints

/-! The byte stream of a plugin connection carries no message boundaries. Each end decodes a read
as one message; a remote plugin reads on until it is told to shut down. -/
namespace IrcBot
open PluginProtocol

namespace Bot

/-- The message serialized for a request. -/
def message : TcpPlugin.Request → Message
  | .initRequest name token => ⟨some .initRequest, some (.initReq ⟨some name, some token⟩)⟩
  | .ircMessage m => ⟨some .ircMessage, some (.ircMsg m.toProtobuf)⟩

theorem write_eq (r : TcpPlugin.Request) : write r = (message r).serializeToString := by
  cases r <;> rfl

theorem length_write (r : TcpPlugin.Request) : (write r).length = (message r).leastLength := by
  rw [write_eq, Message.serializeToString]
  cases r <;> simp [message, Message.fields, Message.leastLength, Message.typeLength, Message.dataLength]

end Bot

namespace TcpPlugin

private theorem initRequest_of_isInitialized {q : InitRequest} (h : q.isInitialized = true) :
    q = ⟨some (q.name.getD []), some (q.token.getD [])⟩ := by
  obtain ⟨name, token⟩ := q
  cases name <;> cases token <;> simp_all [InitRequest.isInitialized]

private theorem ircMessage_of_isInitialized {q : IrcMessage} (h : q.isInitialized = true) :
    q = (Irc.IRCMessage.fromProtobuf q).toProtobuf := by
  obtain ⟨servername, user, nick, host, command, params⟩ := q
  cases servername <;> cases user <;> cases nick <;> cases host <;> cases command <;>
    simp_all [IrcMessage.isInitialized, Irc.IRCMessage.fromProtobuf, Irc.IRCMessage.toProtobuf]

/-- Only the message of a request is passed on as this request. -/
theorem parseMessage_eq_some {data : Bytes} {r : Request} (h : parseMessage data = some r) :
    Message.parseFromString data = some (Bot.message r) := by
  unfold parseMessage at h
  cases hp : Message.parseFromString data with
  | none => simp [hp] at h
  | some msg =>
    have hinit : msg.isInitialized = true := (Option.filter_eq_some_iff.mp hp).2
    obtain ⟨t, d⟩ := msg
    obtain ⟨ht, hd⟩ := Bool.and_eq_true_iff.mp hinit
    obtain ⟨t, rfl⟩ := Option.isSome_iff_exists.mp ht
    rw [hp] at h
    cases t with
    | initResponse | controlRequest | controlResponse => simp [Message.getType] at h
    | initRequest =>
      rcases d with _ | q
      · simp [Message.getType, Message.hasInitReq] at h
      · cases q with
        | initReq q =>
          have hq := initRequest_of_isInitialized (show q.isInitialized = true from hd)
          obtain rfl : Request.initRequest (q.name.getD []) (q.token.getD []) = r := by
            simpa [Message.getType, Message.hasInitReq, Message.initReq] using h
          rw [Bot.message, ← hq]
        | initResp | ircMsg | ctrlReq | ctrlResp => simp [Message.getType, Message.hasInitReq] at h
    | ircMessage =>
      rcases d with _ | q
      · simp [Message.getType, Message.hasIrcMsg] at h
      · cases q with
        | ircMsg q =>
          have hq := ircMessage_of_isInitialized (show q.isInitialized = true from hd)
          obtain rfl : Request.ircMessage (Irc.IRCMessage.fromProtobuf q) = r := by
            simpa [Message.getType, Message.hasIrcMsg, Message.ircMsg] using h
          rw [Bot.message, ← hq]
        | initReq | initResp | ctrlReq | ctrlResp => simp [Message.getType, Message.hasIrcMsg] at h

/-- A request is no longer than the read it was parsed from. -/
theorem length_write_le {data : Bytes} {r : Request} (h : parseMessage data = some r) :
    (Bot.write r).length ≤ data.length := by
  rw [Bot.length_write]
  exact Message.parse_length (parseMessage_eq_some h)

end TcpPlugin

namespace Bot

/-- What a `TcpPlugin` writes to a running plugin. -/
inductive Written
  | onMessage (m : Irc.IRCMessage)
  | initResponse (status : InitResponse.Status)
  | controlRequest (type : ControlRequest.RequestType) (msg : Bytes) (code : BitVec 32)
  deriving DecidableEq, Repr

namespace Written

def write : Written → Bytes
  | .onMessage m => TcpPlugin.onMessage m
  | .initResponse status => TcpPlugin.sendInitResponse status
  | .controlRequest type msg code => TcpPlugin.sendControlRequest type msg code

/-- The message serialized for it. -/
def message : Written → Message
  | .onMessage m => ⟨some .ircMessage, some (.ircMsg m.toProtobuf)⟩
  | .initResponse status => ⟨some .initResponse, some (.initResp ⟨some status⟩)⟩
  | .controlRequest type msg code =>
    ⟨some .controlRequest, some (.ctrlReq (TcpPlugin.controlRequest type msg code))⟩

def isShutdown : Written → Bool
  | .controlRequest .shutdown _ _ => true
  | _ => false

def code : Written → BitVec 32
  | .controlRequest _ _ code => code
  | _ => 0

theorem write_eq (m : Written) : m.write = m.message.serializeToString := by
  cases m <;> rfl

theorem isInitialized_message (m : Written) : m.message.isInitialized = true := by
  cases m <;> rfl

/-- A write takes no more bytes than it needs, unless it extends the sign of a code. -/
theorem length_write {m : Written} (h : m.code.msb = false) :
    m.write.length = m.message.leastLength := by
  rw [write_eq, Message.serializeToString]
  cases m with
  | onMessage m => simp [message, Message.fields, Message.leastLength, Message.typeLength, Message.dataLength]
  | initResponse status =>
    simp [message, Message.fields, Message.leastLength, Message.typeLength, Message.dataLength]
  | controlRequest type msg code =>
    have hcode : (code.signExtend 64).toNat = code.toNat := by
      have hmsb : code.msb = false := h
      rw [BitVec.signExtend_eq_setWidth_of_msb_false hmsb, BitVec.toNat_setWidth]
      exact Nat.mod_eq_of_lt (by omega)
    have hfields : (TcpPlugin.controlRequest type msg code).fields =
        (TcpPlugin.controlRequest type msg code).shortestFields := by
      rw [ControlRequest.fields, ControlRequest.shortestFields, optionalInt32,
        TcpPlugin.controlRequest]
      dsimp only
      split_ifs <;> simp [hcode]
    simp [message, Message.fields, Message.leastLength, Message.typeLength, Message.dataLength,
      Data.field, hfields]

end Written

/-- The message a read is handed to a function as, if it is. -/
def passedOn (salvage : Bytes → Message) (data : Bytes) : Option Message :=
  (incoming salvage data).map fun _ => received salvage data

variable (salvage : Bytes → Message)

/-- The messages that the read loop hands to their functions. -/
def receiver : Machine.Receiver Bot Bytes UInt8 Message where
  machine := ⟨fun b data =>
    ((b.parse salvage data).1, if b.socketOpen then (passedOn salvage data).toList else [])⟩
  read := some
  decode := passedOn salvage
  waits b := b.socketOpen = true
  step_of_waits _ _ h := if_pos h
  step_of_not_waits _ _ h := if_neg h

/-- A write that is read by itself. -/
theorem passedOn_write {m : Written} (h : m.write.length ≤ bufferSize) :
    passedOn salvage m.write = some m.message := by
  have hlen : m.write.length < 2 ^ 31 := h.trans_lt (by decide)
  have hparse : Message.parseFromString m.write = some m.message := by
    rw [Written.write_eq] at hlen ⊢
    exact Message.parse_serialize _ m.isInitialized_message hlen
  rw [passedOn, incoming, received_of_parse salvage hparse]
  cases m <;> rfl

/-- What is left of a failed call takes no more bytes than were read. -/
theorem passedOn_length (hsalvage : ∀ data, (salvage data).leastLength ≤ data.length) {data : Bytes}
    {msg : Message} (h : passedOn salvage data = some msg) : msg.leastLength ≤ data.length := by
  obtain ⟨-, -, rfl⟩ := Option.map_eq_some_iff.mp h
  unfold received
  cases hparse : Message.parseFromString data with
  | none => exact hsalvage data
  | some msg => exact Message.parse_length hparse

/-- A write read by itself leaves the connection open unless it is a shutdown. -/
theorem parse_written {b : Bot} (hb : b.socketOpen = true) {m : Written}
    (h : m.write.length ≤ bufferSize) :
    (b.parse salvage m.write).1 = if m.isShutdown then b.stop else b := by
  have hlen : m.write.length < 2 ^ 31 := h.trans_lt (by decide)
  rw [parse, if_pos hb]
  cases m with
  | onMessage m =>
    rw [Written.write, incoming_onMessage salvage hlen]
    rfl
  | initResponse status =>
    rw [Written.write, incoming_sendInitResponse salvage status]
    rfl
  | controlRequest type msg code =>
    rw [Written.write, incoming_sendControlRequest salvage hlen]
    cases type <;> rfl

/-- All writes are read unless one comes after a shutdown. -/
theorem listening_iff {b : Bot} (hb : b.socketOpen = true) {ms : List Written}
    (hlen : ∀ m ∈ ms, m.write.length ≤ bufferSize) :
    (receiver salvage).machine.Along (receiver salvage).Listening b (ms.map Written.write) ↔
      ∀ m ∈ ms.dropLast, m.isShutdown = false := by
  induction ms with
  | nil => exact iff_of_true trivial nofun
  | cons m ms ih =>
    have hstep := parse_written salvage hb (hlen m (by simp))
    have hfirst : (receiver salvage).Listening b m.write := fun _ => hb
    change (_ ∧ (receiver salvage).machine.Along _ (b.parse salvage m.write).1 _) ↔ _
    rw [hstep, and_iff_right hfirst]
    cases ms with
    | nil => exact iff_of_true trivial nofun
    | cons m' ms =>
      rw [List.dropLast_cons_cons, List.forall_mem_cons]
      cases hm : m.isShutdown with
      | true =>
        refine iff_of_false (fun h => ?_) (by simp)
        -- nothing is read from a closed socket
        have hclosed : b.stop.socketOpen = true := h.1 rfl
        cases hclosed
      | false =>
        rw [← ih fun k hk => hlen k (by simp [hk])]
        simp

/-- A remote plugin is handed exactly what was written if every read is one write and none comes after
a shutdown, and only then unless a negative code is written. -/
theorem framing {b : Bot} (hb : b.socketOpen = true) {reads : List Bytes} {ms : List Written}
    (hreads : ∀ data ∈ reads, data ≠ [] ∧ data.length ≤ bufferSize)
    (hflat : reads.flatten = (ms.map Written.write).flatten) :
    (reads = ms.map Written.write ∧ (∀ m ∈ ms.dropLast, m.isShutdown = false) →
        (receiver salvage).machine.out b reads = ms.map Written.message) ∧
      ((∀ data, (salvage data).leastLength ≤ data.length) → (∀ m ∈ ms, m.code.msb = false) →
        (receiver salvage).machine.out b reads = ms.map Written.message →
          reads = ms.map Written.write ∧ ∀ m ∈ ms.dropLast, m.isShutdown = false) := by
  have hwrites : (ms.map Written.message).map Message.serializeToString = ms.map Written.write := by
    rw [List.map_map]
    exact List.map_congr_left fun m _ => m.write_eq.symm
  have hread : reads.filterMap (receiver salvage).read = reads := List.filterMap_some
  have hlen (h : reads = ms.map Written.write) : ∀ m ∈ ms, m.write.length ≤ bufferSize :=
    fun m hm => (hreads m.write (h ▸ List.mem_map_of_mem hm)).2
  constructor
  · rintro ⟨heq, hlast⟩
    have hdecode : ∀ msg ∈ ms.map Written.message,
        (receiver salvage).decode msg.serializeToString = some msg := by
      intro msg hmsg
      obtain ⟨m, hm, rfl⟩ := List.mem_map.mp hmsg
      rw [← Written.write_eq]
      exact passedOn_write salvage (hlen heq m hm)
    refine (receiver salvage).out_encodings hdecode ?_ ?_
    · rw [hread, hwrites, heq]
    · have halong := (listening_iff salvage hb (hlen heq)).mpr hlast
      rwa [← heq] at halong
  · intro hsalvage hcode hout
    have hencode : ∀ msg ∈ ms.map Written.message,
        msg.serializeToString.length = msg.leastLength := by
      intro msg hmsg
      obtain ⟨m, hm, rfl⟩ := List.mem_map.mp hmsg
      rw [← Written.write_eq]
      exact Written.length_write (hcode m hm)
    obtain ⟨heq, halong⟩ := (receiver salvage).reads_eq_encodings
      (fun _ _ => passedOn_length salvage hsalvage) hencode
      (by rw [hread]; exact fun data hdata => (hreads data hdata).1)
      (by rw [hread, hwrites, hflat]) hout
    rw [hread, hwrites] at heq
    refine ⟨heq, (listening_iff salvage hb (hlen heq)).mp ?_⟩
    rwa [heq] at halong

end Bot
end IrcBot

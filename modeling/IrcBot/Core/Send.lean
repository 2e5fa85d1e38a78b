import IrcBot.Machine.Framing
import IrcBot.Protocol.Endpoints

/-! The functions that write to a connection. Each starts one write, which may take only a
part of the buffer, and none of them looks at the count that the socket reports. -/
namespace IrcBot
open Irc

/-- The bytes that a connection has accepted. -/
structure Socket where
  accepted : Bytes := []
  deriving DecidableEq, Repr

/-- A write takes bytes from the front of the buffer. -/
def Socket.writeSome (s : Socket) (buffer : Bytes) (count : ℕ) : Socket :=
  { s with accepted := s.accepted ++ buffer.take count }

/-- A call with its message, and how many bytes the socket takes. -/
structure Transfer where
  message : Bytes
  count : ℕ
  count_le : count ≤ message.length
  count_pos : message ≠ [] → 0 < count

/-- The write of `async_send` may come after the call has returned and its string is gone:
`held` is what the memory of the string holds when the socket reads it. -/
structure AsyncTransfer extends Transfer where
  held : Bytes
  held_length : held.length = message.length

def Core.send (s : Socket) (t : AsyncTransfer) : Socket := s.writeSome t.held t.count

def TcpPlugin.sendToPlugin (s : Socket) (t : Transfer) : Socket := s.writeSome t.message t.count

def Bot.send (s : Socket) (t : Transfer) : Socket := s.writeSome t.message t.count

namespace Socket

theorem accepted_foldl {τ : Type*} {send : Socket → τ → Socket} {buffer : τ → Bytes} {count : τ → ℕ}
    (hsend : ∀ s t, send s t = s.writeSome (buffer t) (count t)) (s : Socket) (ts : List τ) :
    (ts.foldl send s).accepted =
      s.accepted ++ (ts.map fun t => (buffer t).take (count t)).flatten := by
  induction ts generalizing s with
  | nil => simp
  | cons t ts ih =>
    rw [List.foldl_cons, ih, hsend, List.map_cons, List.flatten_cons, ← List.append_assoc]
    rfl

/-- A write of at most the message is the message only if it is complete. -/
theorem take_eq_iff {buffer message : Bytes} (hlen : buffer.length = message.length) {count : ℕ}
    (hle : count ≤ message.length) :
    buffer.take count = message ↔ count = message.length ∧ buffer = message := by
  constructor
  · intro h
    have hcount := congrArg List.length h
    rw [List.length_take] at hcount
    have hall : count = message.length := by omega
    rw [List.take_of_length_le (by omega)] at h
    exact ⟨hall, h⟩
  · rintro ⟨rfl, rfl⟩
    exact List.take_length

/-- Calls that each start one write pass on the messages whole exactly if each write does. -/
theorem accepted_eq_iff {τ : Type*} (send : Socket → τ → Socket) {buffer message : τ → Bytes}
    {count : τ → ℕ} (hsend : ∀ s t, send s t = s.writeSome (buffer t) (count t))
    (hlen : ∀ t, (buffer t).length = (message t).length)
    (hle : ∀ t, count t ≤ (message t).length) (ts : List τ) :
    (ts.foldl send {}).accepted = (ts.map message).flatten ↔
      ∀ t ∈ ts, count t = (message t).length ∧ buffer t = message t := by
  have htake : ∀ t ∈ ts, ((buffer t).take (count t)).length ≤ (message t).length := by
    intro t _
    rw [List.length_take, hlen t]
    omega
  rw [accepted_foldl hsend, List.nil_append, Machine.flatten_map_eq_iff htake]
  exact forall₂_congr fun t _ => take_eq_iff (hlen t) (hle t)

end Socket

/-- The messages sent reach the connection whole and in order exactly if the socket takes
each of them at once, and for `Core::send` reads it while it is still there. -/
theorem written_whole_iff (core : List AsyncTransfer) (plugin bot : List Transfer) :
    ((core.foldl Core.send {}).accepted = (core.map fun t => t.message).flatten ↔
      ∀ t ∈ core, t.count = t.message.length ∧ t.held = t.message) ∧
    ((plugin.foldl TcpPlugin.sendToPlugin {}).accepted = (plugin.map Transfer.message).flatten ↔
      ∀ t ∈ plugin, t.count = t.message.length) ∧
    ((bot.foldl Bot.send {}).accepted = (bot.map Transfer.message).flatten ↔
      ∀ t ∈ bot, t.count = t.message.length) := by
  refine ⟨?_, ?_, ?_⟩
  · exact Socket.accepted_eq_iff Core.send (fun _ _ => rfl) (fun t => t.held_length) (fun t => t.count_le) core
  · rw [Socket.accepted_eq_iff TcpPlugin.sendToPlugin (fun _ _ => rfl) (fun _ => rfl)
      Transfer.count_le plugin]
    exact forall₂_congr fun t _ => and_iff_left rfl
  · rw [Socket.accepted_eq_iff Bot.send (fun _ _ => rfl) (fun _ => rfl)
      Transfer.count_le bot]
    exact forall₂_congr fun t _ => and_iff_left rfl

/-- The answer to a ping, of which the socket takes one byte. -/
def shortPong : AsyncTransfer :=
  let pong : IRCMessage := { command := text ['P', 'O', 'N', 'G'], params := [text ['x']] }
  { message := pong.toString, count := 1, count_le := by decide, count_pos := by decide,
    held := pong.toString, held_length := rfl }

theorem written_in_part : ¬ ∀ core : List AsyncTransfer, (∀ t ∈ core, t.held = t.message) →
    (core.foldl Core.send {}).accepted = (core.map fun t => t.message).flatten := by
  intro h
  have hpong := h [shortPong] fun t ht => by rw [List.mem_singleton.mp ht]; rfl
  exact absurd hpong (by decide)

end IrcBot

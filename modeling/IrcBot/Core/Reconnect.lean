import IrcBot.Core.Dispatch
import IrcBot.Core.System
import IrcBot.Irc.Lines

/-! The IRC connections of one `Core`, one after the other. Neither `stop` nor `run` touches
the parser: a connection that breaks inside a line leaves the rest of the line to be read
from the next one. -/
namespace IrcBot
open Irc

/-- The bot with its IRC connection. -/
structure Client extends System where
  parser : IRCParser := {}
  deriving DecidableEq, Repr

/-- Data from the IRC server, and what else happens to the bot. A `run` that is not the main
loop's and a `stop` by a signal may come at any time. -/
inductive Client.Event
  | received (data : Bytes)
  | run (configured : List Bytes)
  | stop
  | bot (e : System.Event)
  deriving DecidableEq, Repr

namespace Client

/-- The event makes a new connection. -/
def Event.connects : Event → Bool
  | .run _ | .bot (.run _) => true
  | .received _ | .stop | .bot _ => false

/-- The chunks that a run receives. -/
def received (es : List Event) : List Bytes :=
  es.filterMap fun
    | .received data => some data
    | _ => none

@[simp] theorem received_received (data : Bytes) : received [.received data] = [data] := rfl

theorem received_append (es fs : List Event) : received (es ++ fs) = received es ++ received fs :=
  List.filterMap_append

variable (realToken : Option Bytes) (filter : Registered → IRCMessage → Bool)

/-- One message is offered to all plugins; `filter` is the plugin's own. -/
def offer (c : Client) (m : IRCMessage) : Client :=
  let plugins := c.core.plugins.map fun r =>
    if r.base.preFilter m && filter r m then r.receive m else r
  { c with core := { c.core with plugins := plugins } }

/-- The loop of the receive handler, which takes one message out of the parser each time,
and the messages it has passed on. -/
def dispatchLoop : ℕ → Client → Client × List IRCMessage
  | 0, c => (c, [])
  | n + 1, c =>
    match c.parser.getMessage with
    | none => (c, [])
    | some (m, p) =>
      let (d, ms) := dispatchLoop n (offer filter { c with parser := p } m)
      (d, m :: ms)

/-- The receive handler on data. -/
def receive (c : Client) (data : Bytes) : Client × List IRCMessage :=
  let parser := c.parser.parse data
  dispatchLoop filter parser.messagesCount { c with parser := parser }

def step (c : Client) (e : Event) : Client × List IRCMessage :=
  if c.io ≠ .returns then (c, [])
  else match e with
    | .received data => c.receive filter data
    | .run configured =>
      if c.core.running then (c, []) else ({ c with toSystem := c.call (Core.run configured) }, [])
    | .stop => ({ c with toSystem := c.call Core.stop }, [])
    | .bot e => ({ c with toSystem := c.toSystem.step realToken e }, [])

/-- The connections as a machine from events to the messages that are passed on. -/
def machine : Machine.Mealy Client Event IRCMessage := ⟨step realToken filter⟩

@[simp] theorem machine_step (c : Client) (e : Event) :
    (machine realToken filter).step c e = c.step realToken filter e := rfl

/-- As long as the connection lasts, the messages passed on are those of a fresh parser that
gets the same chunks. -/
def Isolated (c : Client) : Prop :=
  ∀ new : List Event, (∀ e ∈ new, e.connects = false) →
    ((machine realToken filter).run c new).io = .returns →
      (machine realToken filter).out c new = Dispatch.emitted (received new)

/-- The loop takes all messages out of the parser and does nothing else to it. -/
theorem dispatchLoop_spec (c : Client) :
    (dispatchLoop filter c.parser.messagesCount c).2 = c.parser.messages ∧
      (dispatchLoop filter c.parser.messagesCount c).1.parser = { c.parser with messages := [] } ∧
      (dispatchLoop filter c.parser.messagesCount c).1.io = c.io := by
  obtain ⟨ms, hms⟩ : ∃ ms, c.parser.messages = ms := ⟨_, rfl⟩
  induction ms generalizing c with
  | nil =>
    have hcount : c.parser.messagesCount = 0 := by
      rw [IRCParser.messagesCount, hms, List.length_nil]
    have hparser : c.parser = { c.parser with messages := [] } := by rw [← hms]
    rw [hcount, hms]
    exact ⟨rfl, hparser, rfl⟩
  | cons m ms ih =>
    have hget : c.parser.getMessage = some (m, { c.parser with messages := ms }) := by
      rw [IRCParser.getMessage, hms]
    have hcount : c.parser.messagesCount = ms.length + 1 := by
      rw [IRCParser.messagesCount, hms, List.length_cons]
    obtain ⟨hout, hparser, hio⟩ :=
      ih (offer filter { c with parser := { c.parser with messages := ms } } m) rfl
    rw [hcount, hms]
    simp only [dispatchLoop, hget]
    exact ⟨congrArg (m :: ·) hout, hparser, hio⟩

/-- On data the handler passes on the lines that the data completes. -/
theorem receive_spec {c : Client} {r : Reading} (hr : r.buffer = []) (h : c.parser = r.parser [])
    (data : Bytes) :
    (c.receive filter data).2 = (reader.out r data).map TokenLine.message ∧
      (c.receive filter data).1.parser = (reader.run r data).forget.parser [] ∧
      (c.receive filter data).1.io = c.io := by
  have hparse : c.parser.parse data =
      (reader.run r data).parser ((reader.out r data).map TokenLine.message) := by
    rw [h, Reading.parse_reading, Reading.forget_eq_self hr]
    rfl
  obtain ⟨hout, hparser, hio⟩ := dispatchLoop_spec filter { c with parser := c.parser.parse data }
  refine ⟨?_, ?_, hio⟩
  · rw [receive, hout, hparse]
    rfl
  · rw [receive, hparser, hparse, Reading.parser_forget]
    rfl

/-- Nothing but data reaches the parser. -/
theorem step_other {c : Client} {e : Event} (h : ∀ data, e ≠ .received data) :
    (c.step realToken filter e).1.parser = c.parser ∧ (c.step realToken filter e).2 = [] := by
  unfold step
  split
  · exact ⟨rfl, rfl⟩
  · cases e with
    | received data => exact absurd rfl (h data)
    | run configured => by_cases hr : c.core.running = true <;> simp [hr]
    | stop => exact ⟨rfl, rfl⟩
    | bot e => exact ⟨rfl, rfl⟩

theorem step_blocked {c : Client} (h : c.io ≠ .returns) (e : Event) :
    c.step realToken filter e = (c, []) := by
  unfold step
  rw [if_pos h]

/-- An io thread that has stopped does not go on. -/
theorem run_blocked {c : Client} (h : c.io ≠ .returns) (es : List Event) :
    (machine realToken filter).run c es = c := by
  induction es with
  | nil => rfl
  | cons e es ih =>
    change (machine realToken filter).run (c.step realToken filter e).1 es = c
    rw [step_blocked realToken filter h]
    exact ih

/-- In one step the parser goes from a reading to the next, and what is passed on is what it
would have put into its queue. -/
theorem step_spec {c : Client} {r : Reading} (hr : r.buffer = []) (h : c.parser = r.parser [])
    (hio : c.io = .returns) (e : Event) :
    ∃ s : Reading, s.buffer = [] ∧ (c.step realToken filter e).1.parser = s.parser [] ∧
      s.state = r.state.after (received [e]).flatten ∧
      ∀ ms, (received [e]).foldl IRCParser.parse (r.parser ms) =
        s.parser (ms ++ (c.step realToken filter e).2) := by
  by_cases he : ∃ data, e = .received data
  · obtain ⟨data, rfl⟩ := he
    have hstep : c.step realToken filter (.received data) = c.receive filter data := by
      simp [step, hio]
    obtain ⟨hout, hparser, -⟩ := receive_spec filter hr h data
    refine ⟨(reader.run r data).forget, Reading.buffer_forget _, by rw [hstep, hparser], ?_, ?_⟩
    · rw [Reading.state_forget, (Reading.buffer_run r data).2]
      simp [State.after]
    · intro ms
      rw [hstep, hout, Reading.parser_forget]
      change (r.parser ms).parse data = _
      rw [Reading.parse_reading, Reading.forget_eq_self hr]
  · have he : ∀ data, e ≠ .received data := fun data hdata => he ⟨data, hdata⟩
    obtain ⟨hparser, hout⟩ := step_other realToken filter (c := c) he
    have hnone : received [e] = [] := by
      cases e with
      | received data => exact absurd rfl (he data)
      | run | stop | bot => rfl
    refine ⟨r, hr, hparser.trans h, by rw [hnone]; rfl, fun ms => ?_⟩
    rw [hnone, hout, List.append_nil]
    rfl

/-- A run passes on what the parser reads from the chunks, whatever else happens. -/
theorem run_spec {c : Client} {r : Reading} (hr : r.buffer = []) (h : c.parser = r.parser [])
    (es : List Event) (hio : ((machine realToken filter).run c es).io = .returns) :
    ∃ s : Reading, s.buffer = [] ∧ ((machine realToken filter).run c es).parser = s.parser [] ∧
      s.state = r.state.after (received es).flatten ∧
      ∀ ms, (received es).foldl IRCParser.parse (r.parser ms) =
        s.parser (ms ++ (machine realToken filter).out c es) := by
  induction es generalizing c r with
  | nil => exact ⟨r, hr, h, rfl, fun ms => by rw [Machine.Mealy.out_nil, List.append_nil]; rfl⟩
  | cons e es ih =>
    have hio : ((machine realToken filter).run (c.step realToken filter e).1 es).io = .returns := hio
    have hc : c.io = .returns := by
      by_contra hc
      rw [step_blocked realToken filter hc, run_blocked realToken filter hc] at hio
      exact hc hio
    obtain ⟨s, hs, hparser, hstate, hparse⟩ := step_spec realToken filter hr h hc e
    obtain ⟨u, hu, hparser', hstate', hparse'⟩ := ih hs hparser hio
    have hreceived : received (e :: es) = received [e] ++ received es := received_append [e] es
    refine ⟨u, hu, hparser', ?_, fun ms => ?_⟩
    · rw [hstate', hstate, hreceived, List.flatten_append]
      simp [State.after]
    · rw [hreceived, List.foldl_append, hparse, hparse', List.append_assoc]
      rfl

/-- A parser in the middle of a line reads some chunk differently from a fresh one. -/
theorem exists_chunk {r : Reading} (h : r.state ≠ .none) :
    ∃ data : Bytes, (reader.out r data).map TokenLine.message ≠
      (reader.out .start data).map TokenLine.message := by
  by_cases hb : r.state.beforeParams = true
  · exact ⟨probe, Reading.out_probe hb⟩
  · refine ⟨[Chr.lf], ?_⟩
    cases r with
    | start => exact absurd rfl h
    | servernameNick | user | host | userHost | command | commandNum | commandLetter =>
      exact absurd rfl hb
    | params l t | trailing l t | cr l => simp +decide [Reading.step]

theorem isolated_iff {c : Client} (hio : c.io = .returns) {r : Reading} (hr : r.buffer = [])
    (h : c.parser = r.parser []) : Isolated realToken filter c ↔ r.state = .none := by
  constructor
  · intro hisolated
    by_contra hstate
    obtain ⟨data, hdata⟩ := exists_chunk hstate
    obtain ⟨hout, -, hkeep⟩ := receive_spec filter hr h data
    have hstep : c.step realToken filter (.received data) = c.receive filter data := by
      simp [step, hio]
    have hnew := hisolated [.received data] (by simp [Event.connects]) (by simp [hstep, hkeep, hio])
    apply hdata
    rw [← hout, ← IRCParser.messagesOf_eq]
    simpa [hstep, Dispatch.emitted, IRCParser.messagesOf] using hnew
  · intro hstate new _ hend
    obtain rfl := Reading.eq_start hstate
    obtain ⟨s, -, -, -, hparse⟩ := run_spec realToken filter hr h new hend
    exact (congrArg IRCParser.messages (hparse [])).symm

/-- Connections do not leak: what a new connection passes on is read from it alone exactly if
the bytes before it end where a line begins. -/
theorem reconnect_iff (old : List Event) (configured : List Bytes)
    (hrun : ((machine realToken filter).run {} (old ++ [.run configured])).io = .returns) :
    Isolated realToken filter ((machine realToken filter).run {} (old ++ [.run configured])) ↔
      State.after .none (received old).flatten = .none := by
  obtain ⟨s, hs, hparser, hstate, -⟩ :=
    run_spec realToken filter (c := {}) (r := .start) rfl rfl (old ++ [.run configured]) hrun
  have hreceived : received (old ++ [.run configured]) = received old := by
    rw [received_append]
    exact List.append_nil _
  rw [isolated_iff realToken filter hrun hs hparser, hstate, hreceived]
  rfl

/-- The old connection ends after `"PING x\n"`. -/
theorem reconnect_after_line :
    Isolated none (fun _ _ => true) ((machine none fun _ _ => true).run {}
      ([.run [], .received (text ['P', 'I', 'N', 'G', ' ', 'x', '\n']), .bot .connectionError] ++
        [.run []])) :=
  (reconnect_iff none (fun _ _ => true)
    [.run [], .received (text ['P', 'I', 'N', 'G', ' ', 'x', '\n']), .bot .connectionError] []
    (by decide)).mpr (by decide)

/-- The old connection ends after `"P"`, and `":s AB C\n"` is what comes from the new one. -/
theorem reconnect_inside_line :
    ¬ ∀ (realToken : Option Bytes) (filter : Registered → IRCMessage → Bool) (old : List Event)
        (configured : List Bytes),
      ((machine realToken filter).run {} (old ++ [.run configured])).io = .returns →
        Isolated realToken filter ((machine realToken filter).run {} (old ++ [.run configured])) := by
  intro h
  have hnew := h none (fun _ _ => true)
    [.run [], .received (text ['P']), .bot .connectionError] [] (by decide)
    [.received probe] (by simp [Event.connects]) (by decide)
  revert hnew
  decide

end Client
end IrcBot

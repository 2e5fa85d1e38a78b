import IrcBot.Plugin.Backpressure
import IrcBot.Plugin.Plugin
import IrcBot.Protocol.Endpoints

/-! The two ends of a plugin connection with the messages themselves: the queue and the worker
of the plugin, the writes in the connection, and the remote side with its callback. A read
takes one whole write here. The counts are what the blocking sends depend on. -/
namespace IrcBot
open Irc

/-- A TCP plugin and its remote side. -/
structure Conversation where
  plugin : Plugin
  /-- The message with which the io thread waits in `receive` for the mutex. -/
  blocked : Option IRCMessage := none
  /-- The message that the worker writes in `onMessage`, with the mutex. -/
  handling : Option IRCMessage := none
  toPlugin : List Bytes := []
  bot : Bot
  /-- What the callback has still to send. -/
  replies : List IRCMessage := []
  toBot : List Bytes := []
  deriving DecidableEq, Repr

namespace Conversation

/-- The remote side can parse the message. -/
def Short (m : IRCMessage) : Prop := (TcpPlugin.onMessage m).length < 2 ^ 31

/-- The events of the counts, with the message that the io thread offers. -/
inductive Event
  | dispatch (m : IRCMessage) (short : Short m)
  | receive | read | getCommand | sent | call | reply

def Event.kind : Event → Backpressure.Event
  | .dispatch _ _ => .dispatch
  | .receive => .receive
  | .read => .read
  | .getCommand => .getCommand
  | .sent => .sent
  | .call => .call
  | .reply => .reply

theorem Event.kind_surjective : Function.Surjective Event.kind := by
  intro e
  cases e with
  | dispatch => exact ⟨.dispatch {} (by unfold Short; decide), rfl⟩
  | receive => exact ⟨.receive, rfl⟩
  | read => exact ⟨.read, rfl⟩
  | getCommand => exact ⟨.getCommand, rfl⟩
  | sent => exact ⟨.sent, rfl⟩
  | call => exact ⟨.call, rfl⟩
  | reply => exact ⟨.reply, rfl⟩

/- What the callback sends, and the messages that fit into the connection in each direction. -/
variable (salvage : Bytes → PluginProtocol.Message) (callback : IRCMessage → List IRCMessage)
  (capacity capacity' : ℕ)

/-- What the remote side sends in the callbacks of one read. -/
def sends : Bot.Call → List IRCMessage
  | .onMessage m => callback m
  | .onInit | .onShutdown | .onRestart | .onReload => []

/-- The io thread calls `receive`. -/
def dispatch (s : Conversation) (m : IRCMessage) : Conversation :=
  if s.blocked.isSome then s
  else if s.handling.isSome then { s with blocked := some m }
  else { s with plugin := s.plugin.receive m }

/-- It gets the mutex it has waited for. -/
def receive (s : Conversation) : Conversation :=
  match s.blocked, s.handling with
  | some m, none => { s with blocked := none, plugin := s.plugin.receive m }
  | _, _ => s

/-- It reads what the remote side has sent. -/
def read (s : Conversation) : Conversation × List TcpPlugin.Request :=
  match s.blocked, s.toBot with
  | none, w :: ws => ({ s with toBot := ws }, (TcpPlugin.parseMessage w).toList)
  | _, _ => (s, [])

/-- The worker takes a message. -/
def getCommand (s : Conversation) : Conversation :=
  if s.handling.isSome then s
  else match s.plugin.workerStep with
    | (p, none) => { s with plugin := p }
    | (p, some m) =>
      { s with plugin := p, handling := if p.handling m = .onMessage then some m else none }

/-- There is room for the message of `onMessage`. -/
def sent (s : Conversation) : Conversation :=
  match s.handling with
  | some m =>
    if s.toPlugin.length < capacity then
      { s with handling := none, toPlugin := s.toPlugin ++ [TcpPlugin.onMessage m] }
    else s
  | none => s

/-- The remote side has ended its callback and reads the next message. -/
def call (s : Conversation) : Conversation :=
  match s.replies, s.toPlugin with
  | [], w :: ws =>
    { s with
      toPlugin := ws
      bot := (s.bot.parse salvage w).1
      replies := (s.bot.parse salvage w).2.flatMap (sends callback) }
  | _, _ => s

/-- There is room for a message of the callback. -/
def reply (s : Conversation) : Conversation :=
  match s.replies with
  | m :: ms =>
    if s.toBot.length < capacity' then
      { s with replies := ms, toBot := s.toBot ++ [Bot.sendIrcMessage m] }
    else s
  | [] => s

def step (s : Conversation) : Event → Conversation × List TcpPlugin.Request
  | .dispatch m _ => (s.dispatch m, [])
  | .receive => (s.receive, [])
  | .read => s.read
  | .getCommand => (s.getCommand, [])
  | .sent => (s.sent capacity, [])
  | .call => (s.call salvage callback, [])
  | .reply => (s.reply capacity', [])

def machine : Machine.Mealy Conversation Event TcpPlugin.Request :=
  ⟨step salvage callback capacity capacity'⟩

/-- The worker and the remote side are running, and what goes to the plugin can be parsed. -/
structure Going (s : Conversation) : Prop where
  commandParser : s.plugin.commandParser = none
  running : s.plugin.running = true
  thread : s.plugin.thread = some .looping
  socketOpen : s.bot.socketOpen = true
  onMessage : s.bot.plugin.onMessage = true
  blocked : ∀ m, s.blocked = some m → Short m
  incoming : ∀ m ∈ s.plugin.incoming, Short m
  handling : ∀ m, s.handling = some m → Short m
  toPlugin : ∀ w ∈ s.toPlugin, ∃ m, w = TcpPlugin.onMessage m ∧ Short m

def counts (s : Conversation) : Backpressure where
  blocked := s.blocked.isSome
  incoming := s.plugin.incoming.length
  handling := s.handling.isSome
  toPlugin := s.toPlugin.length
  replies := s.replies.length
  toBot := s.toBot.length

section
variable {salvage callback capacity capacity'} {answers : ℕ} {s : Conversation}

/-- A running worker takes the first message, if there is one, to `onMessage`. -/
theorem Going.workerStep (h : s.Going) :
    (s.plugin.incoming = [] ∧ s.plugin.workerStep = (s.plugin, none)) ∨
      ∃ m ms, s.plugin.incoming = m :: ms ∧
        s.plugin.workerStep = ({ s.plugin with incoming := ms }, some m) := by
  unfold Plugin.workerStep
  rw [h.thread]
  dsimp only
  rw [if_neg (not_not.mpr h.running)]
  cases hqueue : s.plugin.incoming with
  | nil =>
    have hget : s.plugin.getCommand = none := by rw [Plugin.getCommand, hqueue]
    rw [hget]
    exact .inl ⟨rfl, rfl⟩
  | cons m ms =>
    have hget : s.plugin.getCommand = some (m, { s.plugin with incoming := ms }) := by
      rw [Plugin.getCommand, hqueue]
    rw [hget]
    exact .inr ⟨m, ms, rfl, rfl⟩

/-- The remote side calls its callback with the message that was written. -/
theorem Going.parse (h : s.Going) {m : IRCMessage} (hm : Short m) :
    s.bot.parse salvage (TcpPlugin.onMessage m) = (s.bot, [.onMessage m]) := by
  rw [Bot.parse, if_pos h.socketOpen, Bot.incoming_onMessage salvage hm]
  dsimp only
  rw [Bot.Plugin.call, Bot.Plugin.has, if_pos h.onMessage]

theorem Going.receive (h : s.Going) {m : IRCMessage} (hm : Short m) (blocked : Option IRCMessage)
    (hblocked : ∀ m, blocked = some m → Short m) :
    Going { s with plugin := s.plugin.receive m, blocked := blocked } where
  commandParser := h.commandParser
  running := h.running
  thread := h.thread
  socketOpen := h.socketOpen
  onMessage := h.onMessage
  blocked := hblocked
  incoming := by
    intro m' hm'
    rcases List.mem_append.mp hm' with hold | hnew
    · exact h.incoming m' hold
    · rwa [List.mem_singleton.mp hnew]
  handling := h.handling
  toPlugin := h.toPlugin

theorem Going.dispatch (h : s.Going) {m : IRCMessage} (hm : Short m) : (s.dispatch m).Going := by
  unfold Conversation.dispatch
  split_ifs with hblocked hhandling
  · exact h
  · exact { h with blocked := fun _ hm' => Option.some.inj hm' ▸ hm }
  · exact h.receive hm s.blocked h.blocked

theorem counts_dispatch (s : Conversation) (m : IRCMessage) :
    (s.dispatch m).counts = s.counts.step capacity capacity' answers .dispatch := by
  unfold Conversation.dispatch Backpressure.step
  by_cases hblocked : s.blocked.isSome = true
  · rw [if_pos hblocked]
    exact (if_pos hblocked).symm
  rw [if_neg hblocked]
  by_cases hhandling : s.handling.isSome = true
  · rw [if_pos hhandling]
    simp [counts, hblocked, hhandling]
  · rw [if_neg hhandling]
    simp [counts, hblocked, hhandling, Plugin.receive]

theorem Going.next (h : s.Going) : s.receive.Going := by
  unfold Conversation.receive
  split
  · next m hblocked hfree => exact h.receive (h.blocked m hblocked) none nofun
  · exact h

theorem counts_receive (s : Conversation) :
    s.receive.counts = s.counts.step capacity capacity' answers .receive := by
  unfold Conversation.receive Backpressure.step
  cases hblocked : s.blocked with
  | none => simp [counts, hblocked]
  | some m =>
    cases hhandling : s.handling with
    | none => simp [counts, hblocked, hhandling, Plugin.receive]
    | some m' => simp [counts, hblocked, hhandling]

theorem Going.read (h : s.Going) : s.read.1.Going := by
  unfold Conversation.read
  split
  · exact { h with }
  · exact h

theorem counts_read (s : Conversation) :
    s.read.1.counts = s.counts.step capacity capacity' answers .read := by
  unfold Conversation.read Backpressure.step
  cases hblocked : s.blocked with
  | some m => simp [counts, hblocked]
  | none =>
    cases hread : s.toBot with
    | nil => simp [counts, hread]
    | cons w ws => simp [counts, hblocked, hread]

/-- What the worker does: it is busy, finds the queue empty, or takes the first message to
`onMessage`. -/
theorem Going.getCommand_cases (h : s.Going) :
    (s.handling.isSome = true ∨ s.plugin.incoming = []) ∧ s.getCommand = s ∨
      ∃ m ms, s.handling = none ∧ s.plugin.incoming = m :: ms ∧
        s.getCommand = { s with plugin := { s.plugin with incoming := ms }, handling := some m } := by
  unfold Conversation.getCommand
  by_cases hbusy : s.handling.isSome = true
  · rw [if_pos hbusy]
    exact .inl ⟨.inl hbusy, rfl⟩
  rw [if_neg hbusy]
  rcases h.workerStep with ⟨hempty, hstep⟩ | ⟨m, ms, hqueue, hstep⟩
  · rw [hstep]
    exact .inl ⟨.inr hempty, rfl⟩
  · have hbranch : ({ s.plugin with incoming := ms } : Plugin).handling m = .onMessage :=
      if_pos h.commandParser
    rw [hstep]
    dsimp only
    rw [if_pos hbranch]
    exact .inr ⟨m, ms, by simpa using hbusy, hqueue, rfl⟩

theorem Going.getCommand (h : s.Going) : s.getCommand.Going := by
  rcases h.getCommand_cases with ⟨-, heq⟩ | ⟨m, ms, -, hqueue, heq⟩
  · rwa [heq]
  · have hshort := h.incoming
    rw [hqueue] at hshort
    rw [heq]
    exact { h with
      incoming := fun m' hm' => hshort m' (List.mem_cons_of_mem m hm')
      handling := fun m' hm' => Option.some.inj hm' ▸ hshort m List.mem_cons_self }

theorem Going.counts_getCommand (h : s.Going) :
    s.getCommand.counts = s.counts.step capacity capacity' answers .getCommand := by
  unfold Backpressure.step
  rcases h.getCommand_cases with ⟨hbusy | hempty, heq⟩ | ⟨m, ms, hfree, hqueue, heq⟩
  · rw [heq]
    simp [counts, hbusy]
  · rw [heq]
    simp [counts, hempty]
  · rw [heq]
    simp [counts, hfree, hqueue]

theorem Going.sent (h : s.Going) : (s.sent capacity).Going := by
  unfold Conversation.sent
  cases hhandling : s.handling with
  | none => exact h
  | some m =>
    dsimp only
    split_ifs with hroom
    · refine { h with handling := nofun, toPlugin := ?_ }
      intro w hw
      rcases List.mem_append.mp hw with hold | hnew
      · exact h.toPlugin w hold
      · exact ⟨m, List.mem_singleton.mp hnew, h.handling m hhandling⟩
    · exact h

theorem counts_sent (s : Conversation) :
    (s.sent capacity).counts = s.counts.step capacity capacity' answers .sent := by
  unfold Conversation.sent Backpressure.step
  cases hhandling : s.handling with
  | none => simp [counts, hhandling]
  | some m =>
    by_cases hroom : s.toPlugin.length < capacity
    · simp [counts, hhandling, hroom]
    · simp [counts, hhandling, hroom]

/-- What the remote side does: it is in its callback, finds nothing to read, or calls it with the
first message. -/
theorem Going.call_cases (h : s.Going) :
    (s.replies ≠ [] ∨ s.toPlugin = []) ∧ s.call salvage callback = s ∨
      ∃ m ws, s.replies = [] ∧ s.toPlugin = TcpPlugin.onMessage m :: ws ∧
        s.call salvage callback = { s with toPlugin := ws, replies := callback m } := by
  unfold Conversation.call
  cases hreplies : s.replies with
  | cons m ms => exact .inl ⟨.inl (List.cons_ne_nil m ms), rfl⟩
  | nil =>
    cases hwrites : s.toPlugin with
    | nil => exact .inl ⟨.inr rfl, rfl⟩
    | cons w ws =>
      obtain ⟨m, rfl, hm⟩ := h.toPlugin w (by simp [hwrites])
      refine .inr ⟨m, ws, rfl, rfl, ?_⟩
      dsimp only
      rw [h.parse hm]
      simp [sends]

theorem Going.call (h : s.Going) : (s.call salvage callback).Going := by
  rcases h.call_cases with ⟨-, heq⟩ | ⟨m, ws, -, hwrites, heq⟩
  · rwa [heq]
  · have hshort := h.toPlugin
    rw [hwrites] at hshort
    rw [heq]
    exact { h with toPlugin := fun w hw => hshort w (List.mem_cons_of_mem _ hw) }

theorem Going.counts_call (h : s.Going) (hanswers : ∀ m, (callback m).length = answers) :
    (s.call salvage callback).counts = s.counts.step capacity capacity' answers .call := by
  unfold Backpressure.step
  rcases h.call_cases with ⟨hbusy | hempty, heq⟩ | ⟨m, ws, hfree, hwrites, heq⟩
  · rw [heq]
    simp [counts, hbusy]
  · rw [heq]
    simp [counts, hempty]
  · rw [heq]
    simp [counts, hfree, hwrites, hanswers]

theorem Going.reply (h : s.Going) : (s.reply capacity').Going := by
  unfold Conversation.reply
  cases s.replies with
  | nil => exact h
  | cons m ms =>
    dsimp only
    split_ifs
    · exact { h with }
    · exact h

theorem counts_reply (s : Conversation) :
    (s.reply capacity').counts = s.counts.step capacity capacity' answers .reply := by
  unfold Conversation.reply Backpressure.step
  cases hreplies : s.replies with
  | nil => simp [counts, hreplies]
  | cons m ms =>
    by_cases hroom : s.toBot.length < capacity'
    · simp [counts, hreplies, hroom]
    · simp [counts, hreplies, hroom]

theorem Going.step (h : s.Going) (e : Event) :
    (s.step salvage callback capacity capacity' e).1.Going := by
  cases e with
  | dispatch m hm => exact h.dispatch hm
  | receive => exact h.next
  | read => exact h.read
  | getCommand => exact h.getCommand
  | sent => exact h.sent
  | call => exact h.call
  | reply => exact h.reply

/-- The counts make the step of the connection they are of. -/
theorem Going.counts_step (h : s.Going) (hanswers : ∀ m, (callback m).length = answers) (e : Event) :
    (s.step salvage callback capacity capacity' e).1.counts =
      s.counts.step capacity capacity' answers e.kind := by
  cases e with
  | dispatch m hm => exact s.counts_dispatch m
  | receive => exact s.counts_receive
  | read => exact s.counts_read
  | getCommand => exact h.counts_getCommand
  | sent => exact s.counts_sent
  | call => exact h.counts_call hanswers
  | reply => exact s.counts_reply

theorem Going.run (h : s.Going) (es : List Event) :
    ((machine salvage callback capacity capacity').run s es).Going :=
  (machine salvage callback capacity capacity').run_invariant (fun _ e h => h.step e) h es

theorem Going.counts_run (h : s.Going) (hanswers : ∀ m, (callback m).length = answers)
    (es : List Event) :
    ((machine salvage callback capacity capacity').run s es).counts =
      (Backpressure.machine capacity capacity' answers).run s.counts (es.map Event.kind) :=
  (machine salvage callback capacity capacity').run_map counts Event.kind
    (fun _ e h => h.step e) (fun _ e h => h.counts_step hanswers e) h es

/-- Nothing can happen between the two ends exactly if nothing can by their counts. -/
theorem Going.stuck_iff (h : s.Going) (hc : 0 < capacity)
    (hanswers : ∀ m, (callback m).length = answers) :
    (∀ e, (s.step salvage callback capacity capacity' e).1 = s) ↔
      s.counts.Stuck capacity capacity' answers := by
  constructor
  · intro hstuck e
    obtain ⟨e, rfl⟩ := Event.kind_surjective e
    rw [← h.counts_step hanswers e, hstuck e]
  · intro hstuck e
    rw [Backpressure.stuck_iff capacity capacity' answers hc] at hstuck
    obtain ⟨hblocked, hhandling, hfull, hreplies, hfull'⟩ := hstuck
    obtain ⟨m, hblocked⟩ := Option.isSome_iff_exists.mp hblocked
    obtain ⟨m', hhandling⟩ := Option.isSome_iff_exists.mp hhandling
    obtain ⟨r, rs, hreplies⟩ := List.exists_cons_of_length_pos hreplies
    have hfull : ¬ s.toPlugin.length < capacity := Nat.not_lt.mpr hfull
    have hfull' : ¬ s.toBot.length < capacity' := Nat.not_lt.mpr hfull'
    cases e with
    | dispatch => exact if_pos (by rw [hblocked]; rfl)
    | receive => simp [Conversation.step, Conversation.receive, hblocked, hhandling]
    | read => simp [Conversation.step, Conversation.read, hblocked]
    | getCommand => exact if_pos (by rw [hhandling]; rfl)
    | sent => simp [Conversation.step, Conversation.sent, hhandling, hfull]
    | call => simp [Conversation.step, Conversation.call, hreplies]
    | reply => simp [Conversation.step, Conversation.reply, hreplies, hfull']

/-- So the two ends can come to wait for each other for ever with `n` messages exactly if the
counts can. -/
theorem waits_iff (h : s.Going) (hstart : s.counts = {}) (hc : 0 < capacity)
    (hanswers : ∀ m, (callback m).length = answers) (n : ℕ) :
    (∃ es, Backpressure.dispatches (es.map Event.kind) ≤ n ∧
        let t := (machine salvage callback capacity capacity').run s es
        ∀ e, (t.step salvage callback capacity capacity' e).1 = t) ↔
      capacity' < answers * (n - (capacity + 2)) := by
  have hcounts : ∀ es, ((machine salvage callback capacity capacity').run s es).counts =
      (Backpressure.machine capacity capacity' answers).run {} (es.map Event.kind) := by
    intro es
    rw [h.counts_run hanswers es, hstart]
  have hstuck : ∀ es, (let t := (machine salvage callback capacity capacity').run s es
      ∀ e, (t.step salvage callback capacity capacity' e).1 = t) ↔
        ((Backpressure.machine capacity capacity' answers).run {} (es.map Event.kind)).Stuck
          capacity capacity' answers := by
    intro es
    rw [← hcounts es]
    exact (h.run es).stuck_iff hc hanswers
  constructor
  · rintro ⟨es, hn, hwait⟩
    exact Backpressure.lt_of_stuck capacity capacity' answers hc hn ((hstuck es).mp hwait)
  · intro hlt
    obtain ⟨w, hn, hwait⟩ := Backpressure.exists_stuck capacity capacity' answers hc hlt
    obtain ⟨es, rfl⟩ := Event.kind_surjective.list_map w
    exact ⟨es, hn, (hstuck es).mpr hwait⟩

end
end Conversation
end IrcBot

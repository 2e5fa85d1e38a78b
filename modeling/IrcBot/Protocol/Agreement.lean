import IrcBot.Protocol.Endpoints

/-! Do the callbacks of a remote plugin follow the events of its `TcpPlugin`? Each write is
taken to arrive as one read. Messages and shutdown requests do; the request for `onInit`
is written without the message around it and is not recognised. -/
namespace IrcBot

/-- What happens to a `TcpPlugin` in the bot. -/
inductive TcpPlugin.Event
  | init
  | message (m : Irc.IRCMessage)
  | shutdown
  | authenticated (status : PluginProtocol.InitResponse.Status)
  deriving DecidableEq, Repr

namespace TcpPlugin.Event

/-- The bytes written to the remote plugin. -/
def write : Event → Bytes
  | .init => onInit
  | .message m => onMessage m
  | .shutdown => sendControlRequest .shutdown
  | .authenticated status => sendInitResponse status

/-- The callback the event is for. -/
def call : Event → Option Bot.Call
  | .init => some .onInit
  | .message m => some (.onMessage m)
  | .shutdown => some .onShutdown
  | .authenticated _ => none

/-- The callback of the event, if the remote plugin has set it. -/
def calls (p : Bot.Plugin) (e : Event) : List Bot.Call := e.call.toList.flatMap p.call

/-- The callbacks of a sequence of events. -/
def expected (p : Bot.Plugin) (es : List Event) : List Bot.Call := es.flatMap (calls p)

/-- No `onInit` is due before the first shutdown, and nothing after it. -/
def Agrees (p : Bot.Plugin) (es : List Event) : Prop :=
  (∀ e ∈ es.takeWhile (· ≠ .shutdown), e = .init → p.onInit = false) ∧
    ∀ e ∈ (es.dropWhile (· ≠ .shutdown)).tail, calls p e = []

instance (p : Bot.Plugin) (es : List Event) : Decidable (Agrees p es) :=
  inferInstanceAs (Decidable (_ ∧ _))

@[simp] theorem expected_nil (p : Bot.Plugin) : expected p [] = [] := rfl

@[simp] theorem expected_cons (p : Bot.Plugin) (e : Event) (es : List Event) :
    expected p (e :: es) = calls p e ++ expected p es := rfl

theorem agrees_shutdown_cons (p : Bot.Plugin) (es : List Event) :
    Agrees p (.shutdown :: es) ↔ expected p es = [] := by
  simp [Agrees, expected]

theorem agrees_cons {p : Bot.Plugin} {e : Event} (he : e ≠ .shutdown) (es : List Event) :
    Agrees p (e :: es) ↔ (e = .init → p.onInit = false) ∧ Agrees p es := by
  simp [Agrees, he, and_assoc]

end TcpPlugin.Event

namespace Bot
open TcpPlugin.Event

variable (salvage : Bytes → PluginProtocol.Message)

/-- What one write does to an open connection. -/
theorem parse_write {b : Bot} (hb : b.socketOpen = true) {e : TcpPlugin.Event}
    (hlen : e.write.length < 2 ^ 31) :
    b.parse salvage e.write =
      (if e = .shutdown then b.stop else b, if e = .init then [] else e.calls b.plugin) := by
  rw [parse, if_pos hb]
  cases e with
  | init =>
    rw [TcpPlugin.Event.write, incoming_onInit salvage]
    rfl
  | message m =>
    rw [TcpPlugin.Event.write, incoming_onMessage salvage hlen]
    simp [calls, call]
  | shutdown =>
    rw [TcpPlugin.Event.write, incoming_sendControlRequest salvage hlen]
    simp [controlRequest, calls, call]
  | authenticated status =>
    rw [TcpPlugin.Event.write, incoming_sendInitResponse salvage status]
    rfl

/-- A stopped connection invokes nothing. -/
theorem out_stop (b : Bot) (reads : List Bytes) : (receive salvage).out b.stop reads = [] := by
  have hstay : (receive salvage).Silent b.stop reads b.stop := .stay fun r _ => rfl
  exact hstay.2

theorem out_cons_write {b : Bot} (hb : b.socketOpen = true) {e : TcpPlugin.Event}
    (hlen : e.write.length < 2 ^ 31) (es : List TcpPlugin.Event) :
    (receive salvage).out b ((e :: es).map TcpPlugin.Event.write) =
      if e = .shutdown then e.calls b.plugin
      else if e = .init then (receive salvage).out b (es.map TcpPlugin.Event.write)
      else e.calls b.plugin ++ (receive salvage).out b (es.map TcpPlugin.Event.write) := by
  rw [List.map_cons, Machine.Mealy.out_cons, receive_step, parse_write salvage hb hlen]
  by_cases hs : e = .shutdown
  · subst hs
    simp [out_stop]
  · by_cases hi : e = .init <;> simp [hs, hi]

/-- No more callbacks are invoked than are due. -/
theorem length_out_le {b : Bot} (hb : b.socketOpen = true) {es : List TcpPlugin.Event}
    (hlen : ∀ e ∈ es, e.write.length < 2 ^ 31) :
    ((receive salvage).out b (es.map TcpPlugin.Event.write)).length ≤
      (expected b.plugin es).length := by
  induction es with
  | nil => simp
  | cons e es ih =>
    have hrest := ih fun e' he' => hlen e' (by simp [he'])
    rw [out_cons_write salvage hb (hlen e (by simp)), expected_cons, List.length_append]
    split_ifs
    · omega
    · omega
    · rw [List.length_append]
      omega

/-- Event agreement: the callbacks invoked are the ones due exactly if no `onInit` is due
before the first shutdown and nothing is due after it. -/
theorem callbacks_eq_expected_iff (b : Bot) (hb : b.socketOpen = true) (es : List TcpPlugin.Event)
    (hlen : ∀ e ∈ es, e.write.length ≤ bufferSize) :
    (receive salvage).out b (es.map TcpPlugin.Event.write) = expected b.plugin es ↔
      Agrees b.plugin es := by
  have hlen' : ∀ e ∈ es, e.write.length < 2 ^ 31 := fun e he =>
    (hlen e he).trans_lt (by decide)
  clear hlen
  induction es with
  | nil => simp [Agrees]
  | cons e es ih =>
    have hrest : ∀ e' ∈ es, e'.write.length < 2 ^ 31 := fun e' he' => hlen' e' (by simp [he'])
    rw [out_cons_write salvage hb (hlen' e (by simp)), expected_cons]
    by_cases hs : e = .shutdown
    · subst hs
      rw [if_pos rfl, agrees_shutdown_cons, List.self_eq_append_right]
    rw [if_neg hs, agrees_cons hs]
    by_cases hi : e = .init
    · subst hi
      have hle := length_out_le salvage hb hrest
      cases hp : b.plugin.onInit with
      | false =>
        have hcalls : calls b.plugin .init = [] := by simp [calls, call, Plugin.call, Plugin.has, hp]
        simp [hcalls, ih hrest]
      | true =>
        -- the callback that is due is missing, and nothing later can make up for it
        have hcalls : calls b.plugin .init = [.onInit] := by
          simp [calls, call, Plugin.call, Plugin.has, hp]
        rw [hcalls]
        simp only [if_true]
        constructor
        · intro h
          have := congrArg List.length h
          rw [List.length_append, List.length_singleton] at this
          omega
        · rintro ⟨h, -⟩
          exact absurd (h trivial) (by decide)
    · rw [if_neg hi, List.append_cancel_left_eq]
      simp [hi, ih hrest]

/-- A plugin with all callbacks, connected. -/
def fullBot : Bot where
  plugin :=
    { name := text ['p'], token := text ['t'], onInit := true, onMessage := true, onShutdown := true
      onRestart := true, onReload := true }

/-- A message and a shutdown after a successful authentication. -/
theorem callbacks_message_shutdown :
    (receive fun _ => {}).out fullBot
        ([.authenticated .ok, .message { command := text ['P', 'I', 'N', 'G'] }, .shutdown].map
          TcpPlugin.Event.write) =
      expected fullBot.plugin
        [.authenticated .ok, .message { command := text ['P', 'I', 'N', 'G'] }, .shutdown] :=
  (callbacks_eq_expected_iff _ fullBot rfl _ (by decide)).mpr (by decide)

/-- The start of the worker is not announced. -/
theorem callbacks_ne_expected_init :
    ¬ ∀ (salvage : Bytes → PluginProtocol.Message) (b : Bot), b.socketOpen = true →
      ∀ es : List TcpPlugin.Event, (∀ e ∈ es, e.write.length ≤ bufferSize) →
        (receive salvage).out b (es.map TcpPlugin.Event.write) = expected b.plugin es := by
  intro h
  have h := h (fun _ => {}) fullBot rfl [.init] (by decide)
  revert h
  decide

end Bot
end IrcBot

import IrcBot.Machine.Precedence
import IrcBot.Plugin.TcpPlugin

/-! The authentication of a TCP plugin. A message from the peer is passed on whatever has been
said before. Messages are written to the peer only by the worker, which an accepted INIT_REQUEST
spawns, but `startPlugins` as well. -/
namespace IrcBot
open Irc

def Action.IsAccepted : Action → Prop
  | .accepted .. => True
  | _ => False

/-- A message from the peer is passed to the IRC connection. -/
def Action.IsCoreSend : Action → Prop
  | .coreSend _ => True
  | _ => False

/-- An IRC message is written to the peer. -/
def Action.IsIrcWrite : Action → Prop
  | .write (.message _) => True
  | _ => False

/-- A part of the shutdown sequence, or of the answer to an INIT_REQUEST. -/
def Action.IsReply : Action → Prop
  | .write .shutdown | .write (.authenticated _) => True
  | _ => False

theorem Action.IsReply.ne {x : Action} (h : x.IsReply) :
    ¬ x.IsAccepted ∧ ¬ x.IsCoreSend ∧ ¬ x.IsIrcWrite := by
  cases x with
  | accepted => cases h
  | coreSend => cases h
  | write e => cases e <;> first | exact ⟨id, id, id⟩ | cases h

namespace TcpPlugin
variable (p : TcpPlugin)

/-- The three ways of `stop`: it has been called before, there is a worker to join, or the plugin
goes into `onShutdown` at once. -/
theorem stop_cases :
    (p.running = false ∧ p.stop = (p, [], .returns)) ∨
      (p.running = true ∧ p.thread.isSome = true ∧ p.stop = ({ p with running := false }, [], .joins)) ∨
      (p.running = true ∧ p.thread = none ∧
        p.stop = ({ p with running := false } : TcpPlugin).onShutdown) := by
  by_cases hrun : p.running = true
  · by_cases ht : p.thread = none
    · exact .inr (.inr ⟨hrun, ht, stop_of_not_spawned hrun ht⟩)
    · have hsome := Option.isSome_iff_ne_none.mpr ht
      exact .inr (.inl ⟨hrun, hsome, stop_of_spawned hrun hsome⟩)
  · refine .inl ⟨Bool.eq_false_of_not_eq_true hrun, ?_⟩
    rw [stop, if_pos hrun]

theorem onShutdown_thread : p.onShutdown.1.thread = p.thread := by
  unfold onShutdown
  dsimp only
  split_ifs <;> rfl

/-- `onShutdown` has no thread to join. -/
theorem onShutdown_control : p.onShutdown.2.2 = .returns ∨ p.onShutdown.2.2 = .waits := by
  unfold onShutdown
  dsimp only
  split_ifs <;> simp

theorem stop_thread : p.stop.1.thread = p.thread := by
  rcases p.stop_cases with ⟨-, hstop⟩ | ⟨-, -, hstop⟩ | ⟨-, -, hstop⟩ <;> rw [hstop]
  exact onShutdown_thread _

theorem onShutdown_replies : ∀ x ∈ p.onShutdown.2.1, x.IsReply := by
  unfold onShutdown
  dsimp only
  split_ifs <;> simp [Action.IsReply]

theorem stop_replies : ∀ x ∈ p.stop.2.1, x.IsReply := by
  rcases p.stop_cases with ⟨-, hstop⟩ | ⟨-, -, hstop⟩ | ⟨-, -, hstop⟩ <;> rw [hstop]
  · nofun
  · nofun
  · exact onShutdown_replies _

theorem restart_replies : ∀ x ∈ p.restart.2.1, x.IsReply := by
  have hstop := p.stop_replies
  obtain ⟨⟨q, actions, k⟩, hq⟩ : ∃ r, p.stop = r := ⟨_, rfl⟩
  rw [hq] at hstop
  rw [restart, hq]
  cases k with
  | returns => simpa [spawn] using hstop
  | joins | waits | terminates => exact hstop

/-- Without a thread there is nothing that writes messages. -/
theorem workerStep_of_none (h : p.thread = none) : p.workerStep = (p, []) := by
  unfold workerStep
  rw [h]

theorem workerStep_actions :
    ∀ x ∈ p.workerStep.2, ¬ x.IsAccepted ∧ ¬ x.IsCoreSend := by
  unfold workerStep
  split
  · nofun
  · nofun
  · split_ifs <;> simp [Action.IsAccepted, Action.IsCoreSend]
  · split
    · nofun
    · split
      · nofun
      · split_ifs <;> simp [Action.IsAccepted, Action.IsCoreSend]

end TcpPlugin

namespace Connection

/-- The request of a read without error. -/
def Event.request : Event → Option TcpPlugin.Request
  | .received data => TcpPlugin.parseMessage data
  | _ => none

/-- An INIT_REQUEST with the right token. -/
def Event.accepts (realToken : Option Bytes) (e : Event) : Bool :=
  match e.request with
  | some (.initRequest _ token) => Core.authenticatePlugin realToken token = some true
  | _ => false

/-- The peer sends an IRC message. -/
def Event.speaks (e : Event) : Bool :=
  match e.request with
  | some (.ircMessage _) => true
  | _ => false

/-- The event happens where it can. -/
def Possible (c : Connection) (e : Event) : Prop := (c.alive && c.enabled e) = true

instance (c : Connection) (e : Event) : Decidable (c.Possible e) :=
  inferInstanceAs (Decidable (_ = true))

/-- The worker is spawned without a request: by `startPlugins`, or by a restart after a signal, when
`stop` has been called already. -/
def Event.spawns (signalled : Bool) : Event → Bool
  | .startPlugins => true
  | .restart => signalled
  | _ => false

/-- This happens before a request is accepted. -/
def spawnsEarly (realToken : Option Bytes) : Bool → List Event → Bool
  | _, [] => false
  | signalled, e :: es =>
    if e.accepts realToken then false
    else e.spawns signalled || spawnsEarly realToken (signalled || e = .signal) es

variable (realToken : Option Bytes) {c : Connection} {e : Event}

theorem step_of_possible (h : c.Possible e) : c.step realToken e = c.happen realToken e := if_pos h

/-- What an event writes or passes on: the steps of the worker and the end of the connection beside,
and replies to the peer. -/
theorem workerStep_actions (c : Connection) (r : TcpPlugin × List Action) :
    ∀ x ∈ (c.workerStep r).2, x ∈ r.2 ∨ x.IsReply := by
  have hjoined : ∀ x ∈ r.1.joined.2.1, x.IsReply := TcpPlugin.onShutdown_replies { r.1 with thread := none }
  intro x hx
  unfold workerStep at hx
  dsimp only at hx
  split_ifs at hx
  · rcases List.mem_append.mp hx with hx | hx
    · exact .inl hx
    · exact .inr (hjoined x hx)
  · rcases List.mem_append.mp hx with hx | hx
    · exact .inl hx
    · exact .inr (hjoined x hx)
  · exact .inl hx
  · exact .inl hx

/-- An event that is no request of the peer. -/
theorem happen_actions (he : e.request = none) :
    ∀ x ∈ (c.happen realToken e).2, x ∈ c.plugin.workerStep.2 ∧ e = .worker ∨ x.IsReply := by
  intro x hx
  cases e with
  | received data =>
    have hreceived : c.plugin.received realToken data = (c.plugin, [], .returns) := by
      rw [TcpPlugin.received, show TcpPlugin.parseMessage data = none from he]
    rw [happen, hreceived] at hx
    cases hx
  | receiveFailed => exact .inr (TcpPlugin.stop_replies { c.plugin with ready := true } x hx)
  | timerHandler => exact .inr (TcpPlugin.stop_replies { c.plugin with timer := .done } x hx)
  | stop | signal => exact .inr (c.plugin.stop_replies x hx)
  | restart => exact .inr (c.plugin.restart_replies x hx)
  | worker => exact (workerStep_actions c _ x hx).imp_left fun hx => ⟨hx, rfl⟩
  | workerThrows => exact .inr ((workerStep_actions c _ x hx).resolve_left nofun)
  | timerExpires | dispatch | startPlugins | resume => cases hx

theorem Event.request_cases (e : Event) :
    (∃ data name token, e = .received data ∧
        TcpPlugin.parseMessage data = some (.initRequest name token)) ∨
      (∃ data m, e = .received data ∧ TcpPlugin.parseMessage data = some (.ircMessage m)) ∨
      e.request = none := by
  cases e with
  | received data =>
    cases hparse : TcpPlugin.parseMessage data with
    | none => exact .inr (.inr hparse)
    | some r =>
      cases r with
      | initRequest name token => exact .inl ⟨data, name, token, rfl, hparse⟩
      | ircMessage m => exact .inr (.inl ⟨data, m, rfl, hparse⟩)
  | _ => exact .inr (.inr rfl)

/-- Every message of the peer is passed on, and an accepted request is the first thing that comes of
it. -/
theorem step_cases (h : c.Possible e) :
    (e.accepts realToken = true ∧ e.speaks = false ∧
        ∃ x rest, (c.step realToken e).2 = x :: rest ∧ x.IsAccepted ∧ ¬ x.IsCoreSend ∧ ¬ x.IsIrcWrite) ∨
      (e.accepts realToken = false ∧ e.speaks = true ∧ (∃ data m, e = .received data ∧
        TcpPlugin.parseMessage data = some (.ircMessage m)) ∧
        ∃ m, (c.step realToken e).2 = [.coreSend m]) ∨
      (e.accepts realToken = false ∧ e.speaks = false ∧
        ∀ x ∈ (c.step realToken e).2, ¬ x.IsAccepted ∧ ¬ x.IsCoreSend ∧
          (c.plugin.thread = none → ¬ x.IsIrcWrite)) := by
  rw [step_of_possible realToken h]
  rcases e.request_cases with ⟨data, name, token, rfl, hparse⟩ | ⟨data, m, rfl, hparse⟩ | hnone
  · have hspeaks : (Event.received data).speaks = false := by simp [Event.speaks, Event.request, hparse]
    have haccepts : (Event.received data).accepts realToken =
        decide (Core.authenticatePlugin realToken token = some true) := by
      simp [Event.accepts, Event.request, hparse]
    have hhappen : (c.happen realToken (.received data)).2 =
        (c.plugin.processInitRequest realToken name token).2.1 := by
      rw [happen, onIo, TcpPlugin.received, hparse]
    rw [hspeaks, haccepts, hhappen, TcpPlugin.processInitRequest]
    cases hauth : Core.authenticatePlugin realToken token with
    | none => exact .inr (.inr ⟨rfl, rfl, nofun⟩)
    | some ok =>
      cases ok with
      | true => exact .inl ⟨rfl, rfl, _, _, rfl, trivial, id, id⟩
      | false =>
        refine .inr (.inr ⟨rfl, rfl, fun x hx => ?_⟩)
        rcases List.mem_cons.mp hx with rfl | hx
        · exact ⟨id, id, fun _ => id⟩
        · obtain ⟨hacc, hsend, hirc⟩ := (c.plugin.stop_replies x hx).ne
          exact ⟨hacc, hsend, fun _ => hirc⟩
  · have hhappen : (c.happen realToken (.received data)).2 = [.coreSend m] := by
      rw [happen, onIo, TcpPlugin.received, hparse]
      rfl
    refine .inr (.inl ⟨?_, ?_, ⟨data, m, rfl, hparse⟩, m, hhappen⟩) <;>
      simp [Event.accepts, Event.speaks, Event.request, hparse]
  · refine .inr (.inr ⟨by simp [Event.accepts, hnone], by simp [Event.speaks, hnone], fun x hx => ?_⟩)
    rcases happen_actions realToken hnone x hx with ⟨hx, -⟩ | hreply
    · obtain ⟨hacc, hsend⟩ := c.plugin.workerStep_actions x hx
      refine ⟨hacc, hsend, fun ht => ?_⟩
      rw [c.plugin.workerStep_of_none ht] at hx
      cases hx
    · obtain ⟨hacc, hsend, hirc⟩ := hreply.ne
      exact ⟨hacc, hsend, fun _ => hirc⟩

/-- Messages of the peer are passed on only after an accepted INIT_REQUEST exactly if it sends none
before. -/
theorem coreSends_after_accepted_iff {es : List Event} (h : (machine realToken).Along Possible c es) :
    Machine.Precedes Action.IsAccepted Action.IsCoreSend ((machine realToken).out c es) ↔
      Machine.Precedes (fun e => e.accepts realToken = true) (fun e => e.speaks = true) es := by
  induction es generalizing c with
  | nil => exact iff_of_true Machine.precedes_nil Machine.precedes_nil
  | cons e es ih =>
    rw [Machine.Mealy.out_cons, machine_step, Machine.precedes_append, Machine.precedes_cons]
    have hrest := ih h.2
    rw [machine_step] at hrest
    rcases step_cases realToken h.1 with ⟨hacc, hspeaks, x, rest, hout, hx, hsend, -⟩ |
      ⟨hacc, hspeaks, -, m, hout⟩ | ⟨hacc, hspeaks, hout⟩
    · rw [hout, Machine.precedes_cons, hspeaks, hacc]
      refine iff_of_true ⟨⟨hsend, .inl hx⟩, .inl ⟨x, List.mem_cons_self, hx⟩⟩ ⟨Bool.false_ne_true, .inl rfl⟩
    · rw [hout, Machine.precedes_cons, hspeaks]
      exact iff_of_false (fun hall => hall.1.1 trivial) fun hall => hall.1 rfl
    · have hnone : Machine.Precedes Action.IsAccepted Action.IsCoreSend (c.step realToken e).2 :=
        Machine.precedes_of_none fun x hx => (hout x hx).2.1
      have hno : ¬ ∃ y ∈ (c.step realToken e).2, y.IsAccepted := by
        rintro ⟨y, hy, hyacc⟩
        exact (hout y hy).1 hyacc
      rw [hspeaks, hacc, and_iff_right hnone, or_iff_right hno, hrest]
      simp

/-- The plugin has no worker; before a signal no `stop` has come back to the io thread either, as
long as the plugin is there. -/
structure Unspawned (signalled : Bool) (c : Connection) : Prop where
  thread : c.plugin.thread = none
  main : signalled = false → c.main = .returns
  serves : signalled = false → c.io = .returns → c.plugin.registered = true →
    c.plugin.running = true ∧ c.plugin.socketOpen = true ∧ c.plugin.ready = false

theorem unspawned_new (id name : Bytes) : Unspawned false (new id name) :=
  ⟨rfl, fun _ => rfl, fun _ _ _ => ⟨rfl, rfl, rfl⟩⟩

variable {signalled : Bool}

/-- A change of the plugin that does not concern its life. -/
theorem Unspawned.of_eq (h : c.Unspawned signalled) {d : Connection} (hthread : d.plugin.thread = none)
    (hrun : d.plugin.running = c.plugin.running) (hopen : d.plugin.socketOpen = c.plugin.socketOpen)
    (hready : d.plugin.ready = c.plugin.ready) (hreg : d.plugin.registered = c.plugin.registered)
    (hio : d.io = c.io) (hmain : d.main = c.main) : d.Unspawned signalled := by
  refine ⟨hthread, fun hs => hmain.trans (h.main hs), fun hs hd hr => ?_⟩
  rw [hrun, hopen, hready]
  exact h.serves hs (hio ▸ hd) (hreg ▸ hr)

/-- A handler that stops the plugin does not come back, or the connection is closed by then. -/
theorem Unspawned.stop (h : c.Unspawned signalled) (hio : c.io = .returns)
    (hreg : c.plugin.registered = true) {p : TcpPlugin} (hthread : p.thread = none)
    (hrun : p.running = c.plugin.running) (hopen : p.socketOpen = c.plugin.socketOpen)
    (actions : List Action) :
    (c.onIo (p.stop.1, actions ++ p.stop.2.1, p.stop.2.2)).1.Unspawned signalled := by
  refine ⟨p.stop_thread.trans hthread, h.main, fun hs hreturns hr => ?_⟩
  obtain ⟨hrunning, hsocket, -⟩ := h.serves hs hio hreg
  have hmain := h.main hs
  rw [hrunning] at hrun
  rw [hsocket] at hopen
  have hstop := TcpPlugin.stop_of_not_spawned hrun hthread
  cases hready : p.ready with
  | false =>
    rw [TcpPlugin.onShutdown_waits (p := { p with running := false }) hopen hready] at hstop
    rw [onIo, hstop, hmain] at hreturns
    cases hreturns
  | true =>
    rw [TcpPlugin.onShutdown_ready (p := { p with running := false }) hopen hready] at hstop
    rw [onIo, hstop] at hr
    cases hr

/-- Only an accepted request, `startPlugins` and a restart after a signal spawn the worker. -/
theorem Unspawned.step (h : c.Unspawned signalled) (hp : c.Possible e)
    (hacc : e.accepts realToken = false) (hspawns : e.spawns signalled = false) :
    (c.step realToken e).1.Unspawned (signalled || e = .signal) := by
  have hpossible := (Bool.and_eq_true _ _).mp hp
  rw [step_of_possible realToken hp]
  have hsame : ∀ r : TcpPlugin × List Action × Control, r.1 = c.plugin → r.2.2 = .returns →
      c.io = .returns → (c.onIo r).1.Unspawned signalled := by
    rintro ⟨q, actions, k⟩ rfl rfl hio
    refine h.of_eq h.thread rfl rfl rfl rfl ?_ rfl
    have hmeet : meeting c.main c.plugin (c.plugin, actions, .returns) = .returns := by
      simp [meeting]
    exact hmeet.trans hio.symm
  cases e with
  | startPlugins => cases hspawns
  | received data =>
    obtain ⟨⟨hio, hreg⟩, -⟩ : (c.io = .returns ∧ c.plugin.registered = true) ∧ c.plugin.ready = false := by
      simpa [enabled] using hpossible.2
    rw [decide_eq_false (by nofun), Bool.or_false]
    change (c.onIo (c.plugin.received realToken data)).1.Unspawned signalled
    rcases (Event.received data).request_cases with ⟨data', name, token, hdata, hparse⟩ |
      ⟨data', m, hdata, hparse⟩ | hparse
    · obtain rfl : data = data' := Event.received.inj hdata
      have hauth : Core.authenticatePlugin realToken token ≠ some true := by
        simpa [Event.accepts, Event.request, hparse] using hacc
      have hreceived : c.plugin.received realToken data =
          c.plugin.processInitRequest realToken name token := by rw [TcpPlugin.received, hparse]
      rw [hreceived, TcpPlugin.processInitRequest]
      cases hverdict : Core.authenticatePlugin realToken token with
      | none => exact ⟨h.thread, h.main, fun _ hk => by cases hk⟩
      | some ok =>
        cases ok with
        | true => exact absurd hverdict hauth
        | false => exact h.stop hio hreg h.thread rfl rfl [.write (.authenticated .error)]
    · obtain rfl : data = data' := Event.received.inj hdata
      have hreceived : c.plugin.received realToken data = (c.plugin, [.coreSend m], .returns) := by
        rw [TcpPlugin.received, hparse]
        rfl
      rw [hreceived]
      exact hsame _ rfl rfl hio
    · have hreceived : c.plugin.received realToken data = (c.plugin, [], .returns) := by
        rw [TcpPlugin.received, show TcpPlugin.parseMessage data = none from hparse]
      rw [hreceived]
      exact hsame _ rfl rfl hio
  | receiveFailed =>
    obtain ⟨⟨hio, hreg⟩, -⟩ : (c.io = .returns ∧ c.plugin.registered = true) ∧ c.plugin.ready = false := by
      simpa [enabled] using hpossible.2
    rw [decide_eq_false (by nofun), Bool.or_false]
    exact h.stop hio hreg (p := { c.plugin with ready := true }) h.thread rfl rfl []
  | timerHandler =>
    obtain ⟨⟨hio, hreg⟩, -⟩ : (c.io = .returns ∧ c.plugin.registered = true) ∧
        c.plugin.timer = .queued := by
      simpa [enabled] using hpossible.2
    rw [decide_eq_false (by nofun), Bool.or_false]
    exact h.stop hio hreg (p := { c.plugin with timer := .done }) h.thread rfl rfl []
  | stop =>
    obtain ⟨hio, hreg⟩ : c.io = .returns ∧ c.plugin.registered = true := by
      simpa [enabled] using hpossible.2
    rw [decide_eq_false (by nofun), Bool.or_false]
    exact h.stop hio hreg h.thread rfl rfl []
  | restart =>
    obtain ⟨hio, hreg⟩ : c.io = .returns ∧ c.plugin.registered = true := by
      simpa [enabled] using hpossible.2
    obtain ⟨hrunning, hsocket, hready⟩ := h.serves hspawns hio hreg
    have hstop := TcpPlugin.stop_of_not_spawned hrunning h.thread
    rw [TcpPlugin.onShutdown_waits (p := { c.plugin with running := false }) hsocket hready] at hstop
    have hsame : c.plugin.restart = c.plugin.stop := by rw [TcpPlugin.restart, hstop]
    rw [decide_eq_false (by nofun), Bool.or_false, happen, hsame]
    exact h.stop hio hreg h.thread rfl rfl []
  | signal =>
    rw [decide_eq_true rfl, Bool.or_true]
    exact ⟨c.plugin.stop_thread.trans h.thread, nofun, nofun⟩
  | resume =>
    rw [decide_eq_false (by nofun), Bool.or_false]
    refine ⟨h.thread, fun hs => ?_, fun _ _ hr => by cases hr⟩
    have hwaits : c.main = .waits ∧ c.plugin.ready = true := by simpa [enabled] using hpossible.2
    rw [h.main hs] at hwaits
    cases hwaits.1
  | timerExpires =>
    rw [decide_eq_false (by nofun), Bool.or_false]
    unfold happen TcpPlugin.timerExpires
    dsimp only
    split_ifs
    · exact h.of_eq h.thread rfl rfl rfl rfl rfl rfl
    · exact h
  | dispatch m =>
    rw [decide_eq_false (by nofun), Bool.or_false]
    exact h.of_eq h.thread rfl rfl rfl rfl rfl rfl
  | worker =>
    rw [decide_eq_false (by nofun), Bool.or_false, happen, c.plugin.workerStep_of_none h.thread]
    have hnone : c.plugin.thread ≠ some .finished := by rw [h.thread]; nofun
    rw [workerStep, if_neg hnone]
    exact h
  | workerThrows =>
    rw [decide_eq_false (by nofun), Bool.or_false, happen]
    have hthread : c.plugin.workerThrows.thread = none := by
      rw [Plugin.workerThrows, h.thread]
      rfl
    have hnone : c.plugin.workerThrows.thread ≠ some .finished := by rw [hthread]; nofun
    rw [workerStep, if_neg hnone]
    exact h.of_eq hthread rfl rfl rfl rfl rfl rfl

/-- IRC messages reach the peer only after an accepted INIT_REQUEST if nothing else spawns the worker
before. -/
theorem ircWrites_after_accepted (h : c.Unspawned signalled) {es : List Event}
    (hes : (machine realToken).Along Possible c es) (hearly : spawnsEarly realToken signalled es = false) :
    Machine.Precedes Action.IsAccepted Action.IsIrcWrite ((machine realToken).out c es) := by
  induction es generalizing c signalled with
  | nil => exact Machine.precedes_nil
  | cons e es ih =>
    rw [Machine.Mealy.out_cons, machine_step, Machine.precedes_append]
    rw [spawnsEarly] at hearly
    rcases step_cases realToken hes.1 with ⟨-, -, x, rest, hout, hx, -, hirc⟩ |
      ⟨hacc, -, ⟨data, m, rfl, -⟩, m', hout⟩ | ⟨hacc, -, hout⟩
    · rw [hout, Machine.precedes_cons]
      exact ⟨⟨hirc, .inl hx⟩, .inl ⟨x, List.mem_cons_self, hx⟩⟩
    · rw [hacc, if_neg Bool.false_ne_true] at hearly
      have hnext := h.step realToken hes.1 hacc rfl
      refine ⟨Machine.precedes_of_none fun x hx => ?_, .inr (ih hnext hes.2 hearly)⟩
      rw [hout] at hx
      rw [List.mem_singleton.mp hx]
      exact id
    · rw [hacc, if_neg Bool.false_ne_true] at hearly
      obtain ⟨hspawns, hlater⟩ := Bool.or_eq_false_iff.mp hearly
      have hnext := h.step realToken hes.1 hacc hspawns
      refine ⟨Machine.precedes_of_none fun x hx => ?_, .inr (ih hnext hes.2 hlater)⟩
      exact (hout x hx).2.2 h.thread

/-- The authentication gate of a new connection, over all events that can happen: the messages of
the peer pass it without authentication exactly if it sends one before its request is accepted; the
messages to the peer do not, unless `startPlugins` or a restart after a signal spawns the worker. -/
theorem authentication_gate (id name : Bytes) {es : List Event}
    (h : (machine realToken).Along Possible (new id name) es) :
    (Machine.Precedes Action.IsAccepted Action.IsCoreSend
        ((machine realToken).out (new id name) es) ↔
      Machine.Precedes (fun e => e.accepts realToken = true) (fun e => e.speaks = true) es) ∧
      (spawnsEarly realToken false es = false →
        Machine.Precedes Action.IsAccepted Action.IsIrcWrite
          ((machine realToken).out (new id name) es)) :=
  ⟨coreSends_after_accepted_iff realToken h,
    ircWrites_after_accepted realToken (unspawned_new id name) h⟩

/-- A plugin that authenticates, gets a message and sends one. -/
theorem authentication_gate_accepted :
    let out := (machine (some (text ['s']))).out (new [] [])
      [.received (Bot.initRequest (text ['p']) (text ['s'])), .worker, .dispatch {}, .worker,
        .received (Bot.sendIrcMessage { command := text ['Q', 'U', 'I', 'T'] })]
    Machine.Precedes Action.IsAccepted Action.IsCoreSend out ∧
      Machine.Precedes Action.IsAccepted Action.IsIrcWrite out := by
  intro out
  obtain ⟨hsend, hwrite⟩ := @authentication_gate (some (text ['s'])) [] []
    [.received (Bot.initRequest (text ['p']) (text ['s'])), .worker, .dispatch {}, .worker,
      .received (Bot.sendIrcMessage { command := text ['Q', 'U', 'I', 'T'] })]
    ⟨by decide, by decide, by decide, by decide, by decide, trivial⟩
  exact ⟨hsend.mpr (Machine.precedes_cons.mpr ⟨by decide, .inl (by decide)⟩), hwrite (by decide)⟩

/-- An IRC message as the first thing the peer sends. -/
theorem authentication_gate_open :
    ¬ ∀ (realToken : Option Bytes) (id name : Bytes) (es : List Event),
      (machine realToken).Along Possible (new id name) es →
        Machine.Precedes Action.IsAccepted Action.IsCoreSend
            ((machine realToken).out (new id name) es) ∧
          Machine.Precedes Action.IsAccepted Action.IsIrcWrite
            ((machine realToken).out (new id name) es) := by
  intro h
  have hpossible : (machine (some (text ['s']))).Along Possible (new [] [])
      [.received (Bot.sendIrcMessage { command := text ['Q', 'U', 'I', 'T'] })] := ⟨by decide, trivial⟩
  have hsend := (h (some (text ['s'])) [] [] _ hpossible).1
  rw [coreSends_after_accepted_iff _ hpossible, Machine.precedes_cons] at hsend
  exact hsend.1 (by decide)

end Connection
end IrcBot

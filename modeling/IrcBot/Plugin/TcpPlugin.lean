import IrcBot.Plugin.Plugin
import IrcBot.Protocol.Agreement

/-! A plugin on a TCP connection. Its handlers run on the io thread, its worker runs beside
them once it has been spawned. `Connection` puts both together with the state of the io
thread, one step for each handler and each iteration of the worker. -/
namespace IrcBot
open Irc

/-- The initialization timer: `cancel` has no effect once the deadline has passed and the
handler is queued. -/
inductive Timer
  | pending | queued | done
  deriving DecidableEq, Repr

def Timer.cancel : Timer → Timer
  | .pending | .done => .done
  | .queued => .queued

structure TcpPlugin extends Plugin where
  name : Bytes
  timer : Timer := .pending
  /-- `m_ready_for_shutdown` has its value. -/
  ready : Bool := false
  socketOpen : Bool := true
  /-- The plugin is in the bot's list; it is destroyed when it is taken out. -/
  registered : Bool := true
  deriving DecidableEq, Repr

/-- What the handlers and the worker do to the world. -/
inductive Action
  /-- An INIT_REQUEST with this name and token has been accepted. -/
  | accepted (name token : Bytes)
  | coreSend (m : IRCMessage)
  | write (e : TcpPlugin.Event)
  deriving DecidableEq, Repr

/-- The configured token is compared with the one sent; a missing one throws. -/
def Core.authenticatePlugin (realToken : Option Bytes) (token : Bytes) : Option Bool :=
  match realToken with
  | none => none
  | some real => if real = [] then some false else some (real = token)

namespace TcpPlugin

def cancelTimer (p : TcpPlugin) : TcpPlugin := { p with timer := p.timer.cancel }

/-- The wait for the promise is left only if it has been set before. -/
def onShutdown (p : TcpPlugin) : TcpPlugin × List Action × Control :=
  let p := p.cancelTimer
  if ¬ p.socketOpen then (p, [], .returns)
  else if ¬ p.ready then (p, [.write .shutdown], .waits)
  else ({ p with socketOpen := false, registered := false }, [.write .shutdown], .returns)

def stop (p : TcpPlugin) : TcpPlugin × List Action × Control :=
  if ¬ p.running then (p, [], .returns)
  else
    let p := { p with running := false }
    if p.thread.isSome then (p, [], .joins) else p.onShutdown

/-- The rest of `stop` after the `join`. -/
def joined (p : TcpPlugin) : TcpPlugin × List Action × Control :=
  { p with thread := none }.onShutdown

def spawn (p : TcpPlugin) : TcpPlugin × List Action × Control :=
  let (q, c) := p.toPlugin.spawn
  ({ p with toPlugin := q }, [], c)

def processInitRequest (realToken : Option Bytes) (p : TcpPlugin) (name token : Bytes) :
    TcpPlugin × List Action × Control :=
  match Core.authenticatePlugin realToken token with
  | none => (p, [], .terminates)
  | some true =>
    let p := { p with name := name }.cancelTimer
    let (p, actions, c) := p.spawn
    (p, [.accepted name token, .write (.authenticated .ok)] ++ actions, c)
  | some false =>
    let (p, actions, c) := p.stop
    (p, [.write (.authenticated .error)] ++ actions, c)

def processIrcMessage (p : TcpPlugin) (m : IRCMessage) : TcpPlugin × List Action × Control :=
  (p, [.coreSend m], .returns)

/-- The receive handler for a read without error. -/
def received (realToken : Option Bytes) (p : TcpPlugin) (data : Bytes) :
    TcpPlugin × List Action × Control :=
  match parseMessage data with
  | some (.initRequest name token) => p.processInitRequest realToken name token
  | some (.ircMessage m) => p.processIrcMessage m
  | none => (p, [], .returns)

/-- The receive handler for an error: the promise is set before the plugin is stopped. -/
def receiveFailed (p : TcpPlugin) : TcpPlugin × List Action × Control :=
  { p with ready := true }.stop

/-- The deadline of the timer passes. -/
def timerExpires (p : TcpPlugin) : TcpPlugin :=
  if p.timer = .pending then { p with timer := .queued } else p

/-- The timer handler, called without an error. -/
def timerHandler (p : TcpPlugin) : TcpPlugin × List Action × Control :=
  { p with timer := .done }.stop

/-- `restartPlugin`: `stop`, and `spawn` if it returns. -/
def restart (p : TcpPlugin) : TcpPlugin × List Action × Control :=
  match p.stop with
  | (p, actions, .returns) =>
    let (p, actions', c) := p.spawn
    (p, actions ++ actions', c)
  | r => r

/-- One step of the worker: the start of `run`, or one iteration of its loop. Writing to a
closed socket throws, which ends the worker in `onInit` and is caught in `onMessage`. -/
def workerStep (p : TcpPlugin) : TcpPlugin × List Action :=
  match p.thread with
  | none | some .finished => (p, [])
  | some .starting =>
    if p.socketOpen then ({ p with running := true, thread := some .looping }, [.write .init])
    else ({ p with running := true, thread := some .finished }, [])
  | some .looping =>
    if ¬ p.running then ({ p with thread := some .finished }, [])
    else match p.getCommand with
      | none => (p, [])
      | some (m, q) => ({ p with toPlugin := q }, if p.socketOpen then [.write (.message m)] else [])

/-- `onShutdown` in its three cases: no connection, no promise yet, and the full sequence. -/
theorem onShutdown_closed {p : TcpPlugin} (hc : p.socketOpen = false) :
    p.onShutdown = (p.cancelTimer, [], .returns) := by
  unfold onShutdown
  simp [cancelTimer, hc]

theorem onShutdown_waits {p : TcpPlugin} (ho : p.socketOpen = true) (hr : p.ready = false) :
    p.onShutdown = (p.cancelTimer, [.write .shutdown], .waits) := by
  unfold onShutdown
  simp [cancelTimer, ho, hr]

theorem onShutdown_ready {p : TcpPlugin} (ho : p.socketOpen = true) (hr : p.ready = true) :
    p.onShutdown =
      ({ p.cancelTimer with socketOpen := false, registered := false }, [.write .shutdown], .returns) := by
  unfold onShutdown
  simp [cancelTimer, ho, hr]

theorem stop_of_spawned {p : TcpPlugin} (hrun : p.running = true) (ht : p.thread.isSome = true) :
    p.stop = ({ p with running := false }, [], .joins) := by
  unfold stop
  rw [if_neg (not_not.mpr hrun)]
  exact if_pos ht

/-- Before it is spawned, a running plugin goes into `onShutdown` at once. -/
theorem stop_of_not_spawned {p : TcpPlugin} (hrun : p.running = true) (ht : p.thread = none) :
    p.stop = ({ p with running := false } : TcpPlugin).onShutdown := by
  have hthread : ¬ p.thread.isSome = true := by simp [ht]
  unfold stop
  rw [if_neg (not_not.mpr hrun)]
  exact if_neg hthread

/-- The worker of a TCP plugin takes the same steps, and leaves the connection alone. -/
theorem workerStep_spec (p : TcpPlugin) :
    (∃ taken, p.toPlugin.WorkerStep p.workerStep.1.toPlugin taken) ∧
      p.workerStep.1.timer = p.timer ∧ p.workerStep.1.ready = p.ready ∧
      p.workerStep.1.socketOpen = p.socketOpen ∧ p.workerStep.1.registered = p.registered := by
  unfold workerStep
  cases ht : p.thread with
  | none => exact ⟨⟨none, .refl p.toPlugin⟩, rfl, rfl, rfl, rfl⟩
  | some w =>
    cases w with
    | starting =>
      by_cases ho : p.socketOpen = true
      · rw [if_pos ho]
        exact ⟨⟨none, rfl, rfl, fun _ => rfl, by simp [ht], rfl⟩, rfl, rfl, rfl, rfl⟩
      · rw [if_neg ho]
        exact ⟨⟨none, rfl, rfl, fun _ => rfl, by simp [ht], rfl⟩, rfl, rfl, rfl, rfl⟩
    | finished => exact ⟨⟨none, .refl p.toPlugin⟩, rfl, rfl, rfl, rfl⟩
    | looping =>
      by_cases hrun : p.running = true
      · cases hq : p.incoming with
        | nil =>
          have hget : p.getCommand = none := by simp [Plugin.getCommand, hq]
          rw [if_neg (not_not.mpr hrun), hget]
          exact ⟨⟨none, .refl p.toPlugin⟩, rfl, rfl, rfl, rfl⟩
        | cons m ms =>
          have hget : p.getCommand = some (m, { p.toPlugin with incoming := ms }) := by
            simp [Plugin.getCommand, hq]
          rw [if_neg (not_not.mpr hrun), hget]
          exact ⟨⟨some m, rfl, rfl, fun h => h, rfl, hq⟩, rfl, rfl, rfl, rfl⟩
      · rw [if_pos hrun]
        exact ⟨⟨none, rfl, rfl, fun h => h, by simp [ht], rfl⟩, rfl, rfl, rfl, rfl⟩

end TcpPlugin

/-- One connection with the two threads that call its plugin: the io thread, which runs the
handlers, and the main thread in `startPlugins` and in a `stop` that a signal has called. -/
structure Connection where
  plugin : TcpPlugin
  io : Control := .returns
  main : Control := .returns
  deriving DecidableEq, Repr

/-- Everything that happens on a connection. `stop` and `restart` come from other handlers
of the io thread, `dispatch` from the one of the IRC connection. `signal` is a `stop` on the main
thread, `resume` the rest of it when the promise has its value. -/
inductive Connection.Event
  | received (data : Bytes)
  | receiveFailed
  | timerExpires
  | timerHandler
  | dispatch (m : IRCMessage)
  | worker
  | workerThrows
  | stop
  | restart
  | startPlugins
  | signal
  | resume
  deriving DecidableEq, Repr

namespace Connection

/-- The event can happen. A handler runs while the io thread is free and the plugin exists; there
is no read any more once one has failed. -/
def enabled (c : Connection) : Event → Bool
  | .received _ | .receiveFailed => c.io = .returns && c.plugin.registered && !c.plugin.ready
  | .timerHandler => c.io = .returns && c.plugin.registered && c.plugin.timer = .queued
  | .dispatch _ | .stop | .restart => c.io = .returns && c.plugin.registered
  | .startPlugins | .signal => c.main = .returns && c.plugin.registered
  | .resume => c.main = .waits && c.plugin.ready
  | .timerExpires | .worker | .workerThrows => true

/-- How a call goes on if the other thread is in one as well: a thread is joined by one of them
only, and the future of the promise can be taken once. -/
def meeting (other : Control) (p : TcpPlugin) (r : TcpPlugin × List Action × Control) : Control :=
  match r with
  | (_, _, .joins) => if other = .joins then .terminates else .joins
  | (_, _, .waits) => if other = .waits then .terminates else .waits
  | (q, _, .returns) =>
    if other = .waits ∧ p.socketOpen ∧ ¬ q.socketOpen then .terminates else .returns
  | (_, _, .terminates) => .terminates

/-- A call on the io thread. -/
def onIo (c : Connection) (r : TcpPlugin × List Action × Control) : Connection × List Action :=
  ({ c with plugin := r.1, io := meeting c.main c.plugin r }, r.2.1)

/-- A call on the main thread. -/
def onMain (c : Connection) (r : TcpPlugin × List Action × Control) : Connection × List Action :=
  ({ c with plugin := r.1, main := meeting c.io c.plugin r }, r.2.1)

/-- A step of the worker; when it was the last one, a `join` that waits for it returns. -/
def workerStep (c : Connection) (r : TcpPlugin × List Action) : Connection × List Action :=
  let c := { c with plugin := r.1 }
  if c.plugin.thread = some .finished then
    if c.io = .joins then
      let (c, actions) := c.onIo c.plugin.joined
      (c, r.2 ++ actions)
    else if c.main = .joins then
      let (c, actions) := c.onMain c.plugin.joined
      (c, r.2 ++ actions)
    else (c, r.2)
  else (c, r.2)

/-- The connection is closed, and the plugin is taken out of the list and destroyed, which a thread
that is not joined does not survive. -/
def resume (c : Connection) : Connection :=
  { c with
    plugin := { c.plugin with socketOpen := false, registered := false }
    main := if c.plugin.thread.isSome then .terminates else .returns }

/-- What an event that can happen does. -/
def happen (realToken : Option Bytes) (c : Connection) : Event → Connection × List Action
  | .received data => c.onIo (c.plugin.received realToken data)
  | .receiveFailed => c.onIo c.plugin.receiveFailed
  | .timerExpires => ({ c with plugin := c.plugin.timerExpires }, [])
  | .timerHandler => c.onIo c.plugin.timerHandler
  | .dispatch m => ({ c with plugin := { c.plugin with toPlugin := c.plugin.receive m } }, [])
  | .worker => c.workerStep c.plugin.workerStep
  | .workerThrows => c.workerStep ({ c.plugin with toPlugin := c.plugin.workerThrows }, [])
  | .stop => c.onIo c.plugin.stop
  | .restart => c.onIo c.plugin.restart
  | .startPlugins => c.onMain c.plugin.spawn
  | .signal => c.onMain c.plugin.stop
  | .resume => (c.resume, [])

/-- No thread has ended the process. -/
def alive (c : Connection) : Bool := c.io ≠ .terminates && c.main ≠ .terminates

def step (realToken : Option Bytes) (c : Connection) (e : Event) : Connection × List Action :=
  if c.alive && c.enabled e then c.happen realToken e else (c, [])

/-- A connection as a machine from events to actions. -/
def machine (realToken : Option Bytes) : Machine.Mealy Connection Event Action := ⟨step realToken⟩

@[simp] theorem machine_step (realToken : Option Bytes) (c : Connection) (e : Event) :
    (machine realToken).step c e = c.step realToken e := rfl

/-- A connection that has just been accepted. -/
def new (id name : Bytes) : Connection := { plugin := { id := id, name := name } }

end Connection
end IrcBot

import IrcBot.Core.Core
import IrcBot.Machine.Mealy

/-! The whole bot with its io thread: the handlers of the plugin connections, of the admin
port and of the IRC connection, which run one at a time, and the workers of the plugins
beside them. -/
namespace IrcBot
open Irc

namespace Registered

def workerStep : Registered → Registered
  | .so p => .so p.workerStep.1
  | .tcp p => .tcp p.workerStep.1

def workerThrows : Registered → Registered
  | .so p => .so p.workerThrows
  | .tcp p => .tcp { p with toPlugin := p.workerThrows }

def receive (m : IRCMessage) : Registered → Registered
  | .so p => .so (p.receive m)
  | .tcp p => .tcp { p with toPlugin := p.receive m }

def timerExpires : Registered → Registered
  | .so p => .so p
  | .tcp p => .tcp p.timerExpires

end Registered

structure System where
  core : Core := {}
  io : Control := .returns
  deriving DecidableEq, Repr

/-- Everything that happens to the bot. A number is the position of a plugin in the list;
`run` is the main loop going round, `configured` are the plugins that load. It is one step here, and
one statement after the other in a `Round`. -/
inductive System.Event
  | run (configured : List Bytes)
  | accept (id name : Bytes)
  | received (i : Nat) (data : Bytes)
  | receiveFailed (i : Nat)
  | timerExpires (i : Nat)
  | timerHandler (i : Nat)
  | dispatch (i : Nat) (m : IRCMessage)
  | worker (i : Nat)
  | workerThrows (i : Nat)
  | restartPlugin (id : Bytes)
  | reloadPlugin (id : Bytes) (loaded : Bool)
  | shutdown
  | connectionError
  deriving DecidableEq, Repr

namespace System

/-- A call that may not return. -/
def call (s : System) (f : Core → Core × Control) : System := ⟨(f s.core).1, (f s.core).2⟩

/-- The plugin at position `i` changes. -/
def modify (s : System) (i : Nat) (f : Registered → Registered) : System :=
  { s with core := { s.core with plugins := s.core.plugins.modify i f } }

/-- A plugin takes itself out of the list by its id. Another one with this id that comes
first is destroyed instead, with its thread. -/
def unregister (id : Bytes) (c : Core) : Core × Control :=
  match c.findPlugin id with
  | none => (c, .returns)
  | some r => (c.removePlugin id, if r.base.thread.isSome then .terminates else .returns)

/-- A handler of the TCP plugin at position `i`, if it can run. -/
def handler (s : System) (i : Nat) (enabled : TcpPlugin → Bool)
    (f : TcpPlugin → TcpPlugin × List Action × Control) : System :=
  match s.core.plugins[i]? with
  | some (.tcp p) =>
    if enabled p then
      let (q, k) := TcpPlugin.settle (f p)
      let core := { s.core with plugins := s.core.plugins.set i (.tcp q) }
      if k = .returns ∧ p.registered ∧ ¬ q.registered then
        let (core, k) := unregister q.id core
        ⟨core, k⟩
      else ⟨core, k⟩
    else s
  | _ => s

/-- The main loop runs the bot again after a stop with an error. -/
def canRun (c : Core) : Bool := ¬ c.running && c.stopPromise ≠ some .ok

def canAccept (c : Core) : Bool := c.tcpPluginServer = some ⟨true⟩

def step (realToken : Option Bytes) (s : System) (e : Event) : System :=
  if s.io ≠ .returns then s
  else match e with
    | .run configured => if canRun s.core then s.call (Core.run configured) else s
    | .accept id name =>
      if canAccept s.core then { s with core := s.core.addPlugin (.tcp { id := id, name := name }) }
      else s
    | .received i data => s.handler i (·.socketOpen) fun p => p.received realToken data
    | .receiveFailed i => s.handler i (·.socketOpen) TcpPlugin.receiveFailed
    | .timerExpires i => s.modify i Registered.timerExpires
    | .timerHandler i => s.handler i (·.timer = .queued) TcpPlugin.timerHandler
    | .dispatch i m => s.modify i (Registered.receive m)
    | .worker i => s.modify i Registered.workerStep
    | .workerThrows i => s.modify i Registered.workerThrows
    | .restartPlugin id => if s.core.adminPort.isSome then s.call fun c => c.restartPlugin id else s
    | .reloadPlugin id loaded =>
      if s.core.adminPort.isSome then s.call fun c => c.reloadPlugin loaded id else s
    | .shutdown => if s.core.adminPort.isSome then s.call fun c => c.stop else s
    | .connectionError =>
      if s.core.running then s.call fun c => { c with result := .connectionError }.stop else s

/-- The bot as a machine from events to states. -/
def machine (realToken : Option Bytes) : Machine.Mealy System Event Empty :=
  ⟨fun s e => (s.step realToken e, [])⟩

@[simp] theorem machine_step (realToken : Option Bytes) (s : System) (e : Event) :
    (machine realToken).step s e = (s.step realToken e, []) := rfl

end System
end IrcBot

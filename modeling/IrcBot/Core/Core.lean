import IrcBot.Plugin.TcpPlugin

/-! The bot itself: the list of its plugins, its two acceptors and the promise that tells
the main thread about the end of a run. All functions say whether they return. -/
namespace IrcBot

/-- A plugin in the list. -/
inductive Registered
  | so (p : Plugin)
  | tcp (p : TcpPlugin)
  deriving DecidableEq, Repr

/-- The rest of a handler after a `join` in it. A worker in its loop ends. One that has only been
created sets the flag again and goes on for ever; on a closed connection it ends in `onInit`. -/
def TcpPlugin.settle (r : TcpPlugin × List Action × Control) : TcpPlugin × Control :=
  match r with
  | (p, _, .joins) =>
    if p.thread = some .starting then
      if p.socketOpen then (p, .joins)
      else
        let p := { p with running := true }
        (p.joined.1, p.joined.2.2)
    else (p.joined.1, p.joined.2.2)
  | (p, _, c) => (p, c)

namespace Registered

def base : Registered → Plugin
  | .so p => p
  | .tcp p => p.toPlugin

def getId (r : Registered) : Bytes := r.base.id

/-- A TCP plugin whose connection is open. -/
def isOpen : Registered → Bool
  | .so _ => false
  | .tcp p => p.socketOpen

/-- A plugin loaded from a library. -/
def isSo : Registered → Bool
  | .so _ => true
  | .tcp _ => false

/-- The worker has been created and has not done anything. -/
def isStarting (r : Registered) : Bool := r.base.thread = some .starting

/-- A `stop` of the plugin does not come back to a handler: the connection is open, or the worker
of a plugin without one has only been created. -/
def blocks : Registered → Bool
  | .so p => p.thread = some .starting
  | .tcp p => p.socketOpen

/-- A `stop` of the plugin waits for the promise of its connection. -/
def awaits (r : Registered) : Bool := r.blocks && !r.isStarting

/-- Stopping the plugin runs the whole shutdown sequence, which ends in `removePlugin`. -/
def unregisters : Registered → Bool
  | .so _ => false
  | .tcp p => p.running && p.socketOpen

/-- The plugin has taken itself out of the list. -/
def isRemoved : Registered → Bool
  | .so _ => false
  | .tcp p => ¬ p.registered

def stop : Registered → Registered × Control
  | .so p => let (q, c) := p.stop; (.so q, c)
  | .tcp p => let (q, c) := TcpPlugin.settle p.stop; (.tcp q, c)

/-- The plugin with its promise set, if its connection ends while `stop` waits for that. The
handlers of the io thread go on meanwhile when another thread calls `stop`. -/
def release (released : List Bytes) : Registered → Registered
  | .so p => .so p
  | .tcp p => .tcp { p with ready := p.ready || (p.socketOpen && released.contains p.id) }

/-- A `stop` of the plugin does not come back, although these connections end meanwhile. -/
def keeps (released : List Bytes) : Registered → Bool
  | .so p => p.running && p.thread = some .starting
  | .tcp p =>
    p.running && p.socketOpen &&
      (p.thread = some .starting || !(p.ready || released.contains p.id))

def spawn : Registered → Registered × Control
  | .so p => let (q, c) := p.spawn; (.so q, c)
  | .tcp p => let (q, _, c) := p.spawn; (.tcp q, c)

/-- `stop` through an iterator of the list that is used again: if the plugin removes itself
meanwhile, the iterator is invalid. -/
def stopInList (r : Registered) : Registered × Control :=
  match r.stop with
  | (q, .returns) => if q.isRemoved ∧ ¬ r.isRemoved then (q, .terminates) else (q, .returns)
  | (q, c) => (q, c)

def restart (r : Registered) : Registered × Control :=
  match r.stopInList with
  | (q, .returns) => q.spawn
  | (q, c) => (q, c)

end Registered

/-- The acceptor of the admin port and of the plugin server. -/
structure Acceptor where
  isOpen : Bool := true
  deriving DecidableEq, Repr

/-- `cancel` throws on a closed acceptor. -/
def Acceptor.stop (a : Acceptor) : Acceptor × Control :=
  if a.isOpen then ({ a with isOpen := false }, .returns) else (a, .terminates)

inductive RunResult
  | ok | connectionError | error
  deriving DecidableEq, Repr

structure Core where
  plugins : List Registered := []
  adminPort : Option Acceptor := none
  tcpPluginServer : Option Acceptor := none
  running : Bool := false
  result : RunResult := .ok
  /-- The value of the stop promise of the current run. -/
  stopPromise : Option RunResult := none
  deriving DecidableEq, Repr

namespace Core

/-- Go through the list until a call does not return. -/
def forEach (f : Registered → Registered × Control) :
    List Registered → List Registered × Control
  | [] => ([], .returns)
  | r :: rs =>
    match f r with
    | (q, .returns) => let (qs, c) := forEach f rs; (q :: qs, c)
    | (q, c) => (q :: rs, c)

/-- Stop one plugin after the other; `done` are those in front. A plugin whose connection the stop
has closed has taken the first plugin with its id out of the list. The loop is over then, or goes
on past the end of the list. -/
def stopEach (released : List Bytes) (done : List Registered) :
    List Registered → List Registered × Control
  | [] => (done, .returns)
  | r :: rs =>
    match (r.release released).stop with
    | (q, .returns) =>
      if r.isOpen && !q.isOpen then
        ((done ++ q :: rs).eraseP fun p => p.getId = q.getId,
          if rs.isEmpty then .returns else .terminates)
      else stopEach released (done ++ [q]) rs
    | (q, k) => (done ++ q :: rs, k)

/-- Call a function on the first plugin with this id. -/
def onFirst (id : Bytes) (f : Registered → Registered × Control) :
    List Registered → List Registered × Control
  | [] => ([], .returns)
  | r :: rs =>
    if r.getId = id then let (q, c) := f r; (q :: rs, c)
    else let (qs, c) := onFirst id f rs; (r :: qs, c)

def findPlugin (c : Core) (id : Bytes) : Option Registered :=
  c.plugins.find? fun r => r.getId = id

def addPlugin (c : Core) (r : Registered) : Core := { c with plugins := c.plugins ++ [r] }

def removePlugin (c : Core) (id : Bytes) : Core :=
  { c with plugins := c.plugins.eraseP fun r => r.getId = id }

def initializePlugins (configured : List Bytes) (c : Core) : Core :=
  { c with plugins := c.plugins ++ configured.map fun id => .so { id := id } }

def startPlugins (c : Core) : Core × Control :=
  let (rs, k) := forEach Registered.spawn c.plugins
  ({ c with plugins := rs }, k)

/-- On the io thread no connection can end meanwhile. -/
def stopPlugins (c : Core) (released : List Bytes := []) : Core × Control :=
  let (rs, k) := stopEach released [] c.plugins
  ({ c with plugins := rs }, k)

/-- A plugin that is destroyed with a joinable thread terminates the process. -/
def deinitializePlugins (c : Core) : Core × Control :=
  if c.plugins.any fun r => r.base.thread.isSome then (c, .terminates)
  else ({ c with plugins := [] }, .returns)

def startAdminPort (c : Core) : Core :=
  if c.adminPort ≠ none then c else { c with adminPort := some {} }

def stopAdminPort (c : Core) : Core × Control :=
  match c.adminPort with
  | none => (c, .returns)
  | some a =>
    match a.stop with
    | (_, .returns) => ({ c with adminPort := none }, .returns)
    | (a, k) => ({ c with adminPort := some a }, k)

def startTcpPluginServer (c : Core) : Core :=
  if c.tcpPluginServer ≠ none then c else { c with tcpPluginServer := some {} }

/-- The pointer to the server is kept. -/
def stopTcpPluginServer (c : Core) : Core × Control :=
  match c.tcpPluginServer with
  | none => (c, .returns)
  | some a => let (a, k) := a.stop; ({ c with tcpPluginServer := some a }, k)

/-- A promise that has its value already throws. -/
def setStopPromise (c : Core) : Core × Control :=
  if c.stopPromise = none then ({ c with stopPromise := some c.result }, .returns)
  else (c, .terminates)

/-- Go on with the next call if the last one has returned. -/
def andThen (r : Core × Control) (f : Core → Core × Control) : Core × Control :=
  match r with
  | (c, .returns) => f c
  | (c, k) => (c, k)

/-- `configured` are the plugins of the configuration that load. -/
def run (configured : List Bytes) (c : Core) : Core × Control :=
  andThen (({ c with running := true, stopPromise := none }.initializePlugins configured).startPlugins)
    fun c => (c.startTcpPluginServer.startAdminPort, .returns)

def stop (c : Core) (released : List Bytes := []) : Core × Control :=
  andThen ({ c with running := false }.stopPlugins released) fun c =>
    andThen c.stopTcpPluginServer fun c =>
      andThen c.deinitializePlugins fun c =>
        andThen c.stopAdminPort setStopPromise

def restartPlugin (c : Core) (id : Bytes) : Core × Control :=
  let (rs, k) := onFirst id Registered.restart c.plugins
  ({ c with plugins := rs }, k)

/-- `loaded` says whether the plugin can be loaded again; the result of a failed load is the
end of the list, which is dereferenced. -/
def reloadPlugin (loaded : Bool) (c : Core) (id : Bytes) : Core × Control :=
  if c.findPlugin id = none then (c, .returns)
  else
    let (rs, k) := onFirst id Registered.stopInList c.plugins
    andThen ({ c with plugins := rs }, k) fun c =>
      let c := c.removePlugin id
      if ¬ loaded then (c, .terminates)
      else
        let (r, k) := (Registered.so { id := id }).spawn
        (c.addPlugin r, k)

end Core
end IrcBot

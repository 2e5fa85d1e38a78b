import IrcBot.Irc.Message

/-! The part all plugins share: the queue of incoming messages, the command filter in front
of it, and the thread that takes messages out of it. -/
namespace IrcBot
open Irc

/-- What a plugin's thread object stands for until it is joined. -/
inductive Worker
  | starting | looping | finished
  deriving DecidableEq, Repr

structure Plugin where
  id : Bytes
  /-- The prefix in the configuration of the installed command parser. -/
  commandParser : Option Byte := none
  running : Bool := true
  incoming : List IRCMessage := []
  thread : Option Worker := none
  deriving DecidableEq, Repr

/-- How a call on the io thread goes on: it returns, blocks in the `join` of a worker,
blocks in the `get` of a future, or an exception leaves the handler. -/
inductive Control
  | returns | joins | waits | terminates
  deriving DecidableEq, Repr

/-- The branch of `run` for a message taken from the queue. -/
inductive Handling
  | onMessage | onCommand | neither
  deriving DecidableEq, Repr

namespace Plugin

/-- `"PRIVMSG"` -/
def privmsg : Bytes := text ['P', 'R', 'I', 'V', 'M', 'S', 'G']

/-- The first character of the last parameter; of an empty string it is `'\0'`. -/
def commandPrefix (m : IRCMessage) : Byte := (m.params.getLast?.getD []).headD Chr.nul

def isCommand (p : Plugin) (m : IRCMessage) : Bool :=
  match p.commandParser with
  | none => false
  | some c =>
    if m.params.length < 1 then false else m.command = privmsg && commandPrefix m = c

def preFilter (p : Plugin) (m : IRCMessage) : Bool :=
  if p.commandParser ≠ none then p.isCommand m else true

def receive (p : Plugin) (m : IRCMessage) : Plugin := { p with incoming := p.incoming ++ [m] }

def handling (p : Plugin) (m : IRCMessage) : Handling :=
  if p.commandParser = none then .onMessage
  else if p.isCommand m then .onCommand
  else .neither

/-- `getCommand`, called where the queue is not empty. -/
def getCommand (p : Plugin) : Option (IRCMessage × Plugin) :=
  match p.incoming with
  | [] => none
  | m :: ms => some (m, { p with incoming := ms })

/-- One step of the worker: the start of `run`, or one iteration of its loop, with the
message taken in it. -/
def workerStep (p : Plugin) : Plugin × Option IRCMessage :=
  match p.thread with
  | none | some .finished => (p, none)
  | some .starting => ({ p with running := true, thread := some .looping }, none)
  | some .looping =>
    if ¬ p.running then ({ p with thread := some .finished }, none)
    else match p.getCommand with
      | none => (p, none)
      | some (m, q) => (q, some m)

/-- An exception of the plugin's own code ends its worker. -/
def workerThrows (p : Plugin) : Plugin := { p with thread := p.thread.map fun _ => .finished }

/-- A worker in its loop finds the flag cleared, so that the `join` returns. One that has only
been created sets the flag again when it begins, and the `join` never does; if its own code throws
meanwhile, this counts as thrown before. The plugins loaded from a file do nothing in
`onShutdown`. -/
def stop (p : Plugin) : Plugin × Control :=
  if ¬ p.running then (p, .returns)
  else if p.thread = some .starting then ({ p with running := false }, .joins)
  else ({ p with running := false, thread := none }, .returns)

/-- Assigning to a joinable thread terminates the process. -/
def spawn (p : Plugin) : Plugin × Control :=
  let p := { p with running := true }
  if p.thread.isSome then (p, .terminates) else ({ p with thread := some .starting }, .returns)

/-- What a step of the worker can do to the plugin `p`, if it takes the message `taken`. -/
structure WorkerStep (p q : Plugin) (taken : Option IRCMessage) : Prop where
  id : q.id = p.id
  commandParser : q.commandParser = p.commandParser
  running : p.running = true → q.running = true
  thread : q.thread.isSome = p.thread.isSome
  incoming : p.incoming = taken.toList ++ q.incoming

theorem WorkerStep.refl (p : Plugin) : p.WorkerStep p none := ⟨rfl, rfl, fun h => h, rfl, rfl⟩

theorem workerStep_spec (p : Plugin) : p.WorkerStep p.workerStep.1 p.workerStep.2 := by
  unfold workerStep
  cases ht : p.thread with
  | none => exact .refl p
  | some w =>
    cases w with
    | starting => exact ⟨rfl, rfl, fun _ => rfl, by simp [ht], rfl⟩
    | finished => exact .refl p
    | looping =>
      by_cases hrun : p.running = true
      · cases hq : p.incoming with
        | nil =>
          have hget : p.getCommand = none := by simp [getCommand, hq]
          rw [if_neg (not_not.mpr hrun), hget]
          exact .refl p
        | cons m ms =>
          have hget : p.getCommand = some (m, { p with incoming := ms }) := by simp [getCommand, hq]
          rw [if_neg (not_not.mpr hrun), hget]
          exact ⟨rfl, rfl, fun h => h, rfl, hq⟩
      · rw [if_pos hrun]
        exact ⟨rfl, rfl, fun h => h, by simp [ht], rfl⟩

end Plugin
end IrcBot

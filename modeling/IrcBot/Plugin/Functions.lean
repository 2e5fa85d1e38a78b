import IrcBot.Plugin.Worker
import IrcBot.Plugins.Helpers
import Mathlib.Data.List.Induction
import Mathlib.Logic.Function.Basic

/-! The functions of a plugin. They are registered under names, and the worker calls the one that
has the name of the command it has parsed. -/
namespace IrcBot
open Irc

/-- A function by the messages it sends; the second argument is the `irc_message` of the command. -/
abbrev CmdFunction := Command → IRCMessage → List IRCMessage

/-- `m_functions` -/
abbrev Functions := Bytes → Option CmdFunction

namespace Functions

def addFunction (functions : Functions) (cmd : Bytes) (f : CmdFunction) : Functions :=
  Function.update functions cmd (some f)

def removeFunction (functions : Functions) (cmd : Bytes) : Functions :=
  Function.update functions cmd none

def callFunction (functions : Functions) (command : Command) (m : IRCMessage) : List IRCMessage :=
  match functions command.command with
  | some f => f command m
  | none => []

/-- Calls of the two methods above. -/
inductive Registration
  | add (cmd : Bytes) (f : CmdFunction)
  | remove (cmd : Bytes)

def Registration.cmd : Registration → Bytes
  | add cmd _ | remove cmd => cmd

/-- What the name stands for after the call. -/
def Registration.function : Registration → Option CmdFunction
  | add _ f => some f
  | remove _ => none

def register (functions : Functions) : Registration → Functions
  | .add cmd f => functions.addFunction cmd f
  | .remove cmd => functions.removeFunction cmd

/-- The functions of a new plugin after some calls. -/
def ofRegistrations (rs : List Registration) : Functions := rs.foldl register fun _ => none

/-- The function that the last call with this name has registered. -/
def registered (rs : List Registration) (name : Bytes) : Option CmdFunction :=
  (rs.reverse.find? fun r => r.cmd = name).bind Registration.function

theorem register_apply (functions : Functions) (r : Registration) (name : Bytes) :
    functions.register r name = if r.cmd = name then r.function else functions name := by
  have hupdate : functions.register r = Function.update functions r.cmd r.function := by
    cases r <;> rfl
  rw [hupdate]
  by_cases h : r.cmd = name
  · rw [if_pos h, ← h, Function.update_self]
  · rw [if_neg h, Function.update_of_ne fun h' => h h'.symm]

/-- Registrations overwrite each other, and the last one counts. -/
theorem ofRegistrations_apply (rs : List Registration) (name : Bytes) :
    ofRegistrations rs name = registered rs name := by
  induction rs using List.reverseRecOn with
  | nil => rfl
  | append_singleton rs r ih =>
    have hlast : ofRegistrations (rs ++ [r]) = (ofRegistrations rs).register r := by
      rw [ofRegistrations, List.foldl_append]
      rfl
    rw [hlast, register_apply, ih, registered, registered, List.reverse_append, List.reverse_singleton,
      List.singleton_append, List.find?_cons]
    by_cases h : r.cmd = name <;> simp [h]

end Functions

/-- What `run` does with a message it has taken; the exception handlers only log, and `onMessage`
is the one of the base class. -/
def Plugin.dispatch (p : Plugin) (functions : Functions) (_ : Unit) (m : IRCMessage) :
    Except Plugins.Fault (Unit × List IRCMessage) :=
  match p.outcome m with
  | .onCommand cmd => .ok ((), functions.callFunction cmd m)
  | .onMessage | .malformed _ | .neither => .ok ((), [])

end IrcBot

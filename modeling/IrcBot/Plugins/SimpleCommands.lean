import IrcBot.Command.Quoting
import IrcBot.Core.Quiescence
import IrcBot.Irc.Clean
import IrcBot.Irc.RoundTrip
import IrcBot.Plugin.Functions

/-! Commands of users, from their text on the IRC connection to the functions of a plugin: the
lines are parsed, the messages pass the command filter, the worker takes them, the command parser
reads their last parameter, and the function with the name of the command is called with its
arguments. -/
namespace IrcBot
open Irc CommandParser

/-- A command with its arguments, sent by a user to a channel or to the bot. -/
structure Invocation where
  nick : Bytes
  user : Bytes
  host : Bytes
  target : Bytes
  name : Bytes
  arguments : List Bytes
  deriving DecidableEq, Repr

/-- What comes from the server: a command, or something that is none. -/
inductive Traffic
  | invocation (i : Invocation)
  | other (m : IRCMessage)
  deriving DecidableEq, Repr

section
/- The prefix of the installed command parser. -/
variable (prefixChar : Byte)

def Invocation.message (i : Invocation) : IRCMessage where
  nick := i.nick
  user := i.user
  host := i.host
  command := Plugin.privmsg
  params := [i.target, quotedCommand ⟨prefixChar⟩ i.name i.arguments]

namespace Traffic

def message : Traffic → IRCMessage
  | invocation i => i.message prefixChar
  | other m => m

/-- The text of the message is a line of its own, and only commands look like commands. -/
def Valid : Traffic → Prop
  | invocation i =>
    (i.message prefixChar).Canonical ∧ i.name.all isCommandCharacter = true
  | other m => m.Canonical ∧ ¬ (m.command = Plugin.privmsg ∧ Plugin.commandPrefix m = prefixChar)

instance (t : Traffic) : Decidable (t.Valid prefixChar) :=
  match t with
  | invocation _ | other _ => inferInstanceAs (Decidable (_ ∧ _))

/-- The bytes of the messages. -/
def stream (ts : List Traffic) : Bytes := ts.flatMap fun t => (t.message prefixChar).toString

/-- What the functions send for it. -/
def sends (rs : List Functions.Registration) : Traffic → List IRCMessage
  | invocation i =>
    match Functions.registered rs i.name with
    | some f => f ⟨i.name, kept i.arguments⟩ (i.message prefixChar)
    | none => []
  | other _ => []

end Traffic
end

namespace Plugins.SimpleCommands

def helpCommand (cmd : Command) (m : IRCMessage) : List IRCMessage :=
  let reply := privmsgTo (text "KolK".toList)
  reply (text "help invoked!".toList) ::
    if cmd.arguments.length ≠ 0 then
      reply (text "with arguments: ".toList) :: cmd.arguments.map reply ++ [reply m.toString]
    else []

/-- `'!'` -/
def prefixChar : Byte := 0x21

/-- What the constructor registers. -/
def registrations : List Functions.Registration := [.add (text "help".toList) helpCommand]

/-- Two commands with a message between them. -/
def traffic : List Traffic :=
  [.invocation ⟨text ['a'], text ['u'], text ['h'], text ['#', 'c'], text "help".toList, []⟩,
    .other { servername := text ['s'], command := text ['P', 'I', 'N', 'G'], params := [text ['x']] },
    .invocation ⟨text ['a'], text ['u'], text ['h'], text ['#', 'c'], text "op".toList, [text ['b']]⟩]

end Plugins.SimpleCommands

namespace Plugins.Commands
variable {prefixChar : Byte} {rs : List Functions.Registration} (id : Bytes)

/-- The plugin as the dispatch sees it. -/
def installed (prefixChar : Byte) (id : Bytes) : Installed := ⟨id, some prefixChar, fun _ => true⟩

/-- Lines that are not cut are read as the messages they were made of. -/
theorem emitted_stream {groups : List (List Traffic)}
    (hvalid : ∀ ts ∈ groups, ∀ t ∈ ts, t.Valid prefixChar) :
    Dispatch.emitted (groups.map (Traffic.stream prefixChar)) =
      groups.flatten.map (Traffic.message prefixChar) := by
  have hcanonical : ∀ t : Traffic, t.Valid prefixChar → (t.message prefixChar).Canonical := by
    rintro (i | m) h
    · exact h.1
    · exact h.1
  have hread : ∀ ts : List Traffic, (∀ t ∈ ts, t.Valid prefixChar) →
      reader.run .start (Traffic.stream prefixChar ts) = .start ∧
        (reader.out .start (Traffic.stream prefixChar ts)).map TokenLine.message =
          ts.map (Traffic.message prefixChar) := by
    intro ts h
    induction ts with
    | nil => exact ⟨rfl, rfl⟩
    | cons t ts ih =>
      have ht := hcanonical t (h t (by simp))
      obtain ⟨hrun, hout⟩ := ht.run_toString
      obtain ⟨hrest, hmessages⟩ := ih fun u hu => h u (by simp [hu])
      have hstream : Traffic.stream prefixChar (t :: ts) =
          (t.message prefixChar).toString ++ Traffic.stream prefixChar ts := rfl
      rw [hstream, Machine.Mealy.run_append, Machine.Mealy.out_append, hrun, hout, List.map_append,
        hmessages]
      refine ⟨hrest, ?_⟩
      rw [List.map_singleton, IRCMessage.eq_message ht.origin_clean.2.1]
      rfl
  have hcalls : callReader.run .start (groups.map (Traffic.stream prefixChar)) = .start ∧
      (callReader.out .start (groups.map (Traffic.stream prefixChar))).map TokenLine.message =
        groups.flatten.map (Traffic.message prefixChar) := by
    induction groups with
    | nil => exact ⟨rfl, rfl⟩
    | cons ts groups ih =>
      obtain ⟨hrun, hout⟩ := hread ts (hvalid ts (by simp))
      obtain ⟨hrest, hmessages⟩ := ih fun us hus => hvalid us (by simp [hus])
      have hforget : Reading.start.forget = .start := rfl
      rw [List.map_cons, Machine.Mealy.run_cons, Machine.Mealy.out_cons, callReader_step, hforget,
        hrun, List.map_append, hout, hmessages, List.flatten_cons, List.map_append]
      exact ⟨hrest, rfl⟩
  have hparser : ({} : IRCParser) = Reading.start.parser [] := rfl
  rw [Dispatch.emitted, hparser, Reading.foldl_parse]
  exact hcalls.2

theorem isCommand_message (hchar : prefixChar ≠ Chr.nul) (i : Invocation) :
    (Receiver.new (installed prefixChar id)).plugin.isCommand (i.message prefixChar) = true := by
  have hhead : Plugin.commandPrefix (i.message prefixChar) = prefixChar := by
    simp [Plugin.commandPrefix, Invocation.message, quotedCommand, hchar]
  have hlength : ¬ (i.message prefixChar).params.length < 1 := by simp [Invocation.message]
  have hname : (i.message prefixChar).command = Plugin.privmsg := rfl
  simp only [Plugin.isCommand, Receiver.new, installed]
  rw [if_neg hlength, hname, hhead]
  simp

theorem isCommand_other {m : IRCMessage}
    (h : ¬ (m.command = Plugin.privmsg ∧ Plugin.commandPrefix m = prefixChar)) :
    (Receiver.new (installed prefixChar id)).plugin.isCommand m = false := by
  simp only [Plugin.isCommand, Receiver.new, installed]
  split_ifs
  · rfl
  · simpa using h

/-- The plugin takes commands only, and answers them as its functions do. -/
theorem answers_traffic (hchar : prefixChar ≠ Chr.nul) {ts : List Traffic}
    (hvalid : ∀ t ∈ ts, t.Valid prefixChar) :
    answers ((Receiver.new (installed prefixChar id)).plugin.dispatch (Functions.ofRegistrations rs)) ()
        ((ts.map (Traffic.message prefixChar)).filter
          (Receiver.new (installed prefixChar id)).accepts) =
      ts.flatMap (Traffic.sends prefixChar rs) := by
  induction ts with
  | nil => rfl
  | cons t ts ih =>
    have hrest := ih fun u hu => hvalid u (by simp [hu])
    have ht := hvalid t (by simp)
    rw [List.map_cons, List.filter_cons, List.flatMap_cons, ← hrest]
    cases t with
    | invocation i =>
      have hcommand := isCommand_message id hchar i
      have haccepts : (Receiver.new (installed prefixChar id)).accepts (i.message prefixChar) = true := by
        rw [Receiver.accepts, Plugin.preFilter, hcommand]
        simp [Receiver.new, installed]
      have hsends : (Receiver.new (installed prefixChar id)).plugin.dispatch
          (Functions.ofRegistrations rs) () (i.message prefixChar) =
            .ok ((), Traffic.sends prefixChar rs (.invocation i)) := by
        have hparse := parse_quotedCommand ⟨prefixChar⟩ (List.all_eq_true.mp ht.2) i.arguments
        have hline : (i.message prefixChar).params.getLast?.getD [] =
            quotedCommand ⟨prefixChar⟩ i.name i.arguments := rfl
        have houtcome : (Receiver.new (installed prefixChar id)).plugin.outcome (i.message prefixChar) =
            .onCommand ⟨i.name, kept i.arguments⟩ := by
          unfold Plugin.outcome Plugin.handling
          rw [hcommand, hline]
          simp [Receiver.new, installed, hparse]
        rw [Plugin.dispatch, houtcome, Traffic.sends, ← Functions.ofRegistrations_apply]
        rfl
      rw [Traffic.message, if_pos haccepts, answers, hsends]
    | other m =>
      have hcommand := isCommand_other id ht.2
      have haccepts : (Receiver.new (installed prefixChar id)).accepts m = false := by
        rw [Receiver.accepts, Plugin.preFilter, hcommand]
        simp [Receiver.new, installed]
      rw [Traffic.message, haccepts]
      rfl

end Plugins.Commands
end IrcBot

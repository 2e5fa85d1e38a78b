import IrcBot.Command.CommandParser
import IrcBot.Core.Core
import IrcBot.Machine.Mealy

/-! The admin port: a command line is parsed and becomes calls of the bot, made in the
handler that has read it. An exception that leaves the handler ends the process. -/
namespace IrcBot
namespace AdminPort

/-- Commands of the admin port have no prefix. -/
def config : ParserConfig := ⟨Chr.nul⟩

/-- Operations of the bot that a command can ask for. -/
inductive Operation
  | restartPlugin (ids : List Bytes)
  | reloadPlugin (ids : List Bytes)
  | shutdown
  deriving DecidableEq, Repr

/-- The chain of comparisons on the command word. -/
def operation (cmd : Command) : Option Operation :=
  if cmd.command = text "restartPlugin".toList then some (.restartPlugin cmd.arguments)
  else if cmd.command = text "reloadPlugin".toList then some (.reloadPlugin cmd.arguments)
  else if cmd.command = text "shutdown".toList then some .shutdown
  else none

/-- One call for each plugin id, until a call does not return. -/
def forEachId (f : Core → Bytes → Core × Control) : Core → List Bytes → Core × Control
  | c, [] => (c, .returns)
  | c, id :: ids => Core.andThen (f c id) fun c => forEachId f c ids

/-- `loads` says which plugins can be loaded again. -/
def Operation.execute (loads : Bytes → Bool) (c : Core) : Operation → Core × Control
  | .restartPlugin ids => forEachId Core.restartPlugin c ids
  | .reloadPlugin ids => forEachId (fun c id => c.reloadPlugin (loads id) id) c ids
  | .shutdown => c.stop

/-- The `UnexpectedCharacter` of the parser leaves the function. -/
def processCommand (loads : Bytes → Bool) (c : Core) (command : Bytes) : Core × Control :=
  match CommandParser.parse config command with
  | .error _ => (c, .terminates)
  | .ok cmd =>
    match operation cmd with
    | some op => op.execute loads c
    | none => (c, .returns)

/-- The command of a read that asks for an operation of the bot. -/
def request (data : Bytes) : Option (Command × Operation) :=
  match CommandParser.parse config data with
  | .error _ => none
  | .ok cmd => (operation cmd).map fun op => (cmd, op)

/-- `shutdown` destroys the admin port with its sessions. -/
def endsSession (data : Bytes) : Bool := (request data).any fun r => r.2 = .shutdown

/-- What the handler of a read finds: the bot, and its own session, as an element of the vector
that has moved since the read was started or has not. -/
structure Found where
  core : Core
  moved : Bool := false
  deriving DecidableEq, Repr

/-- The handler of a read. It uses the session to call `processCommand` and, when this comes back,
to post the next read: a session that has moved, or that `shutdown` has destroyed, is freed memory. -/
def receive (loads : Bytes → Bool) (f : Found) (data : Bytes) : (Core × Control) × Bool :=
  if f.moved then ((f.core, .terminates), false)
  else
    let r := processCommand loads f.core data
    (r, r.2 = .returns && !endsSession data)

/-- The command for which the handler calls the bot, and how these calls go. -/
def executed (loads : Bytes → Bool) (f : Found) (data : Bytes) : List (Command × Control) :=
  if f.moved then []
  else (request data).toList.map fun r => (r.1, (r.2.execute loads f.core).2)

/-- One session. Its state is whether a read is posted; an input is what the read gives,
with what the handler finds. -/
def session (loads : Bytes → Bool) : Machine.Mealy Bool (Found × Bytes) (Command × Control) :=
  ⟨fun posted r =>
    if posted then ((receive loads r.1 r.2).2, executed loads r.1 r.2) else (false, [])⟩

end AdminPort
end IrcBot

import IrcBot.Bytes

/-! Representation of one IRC message and its conversion to text. -/
namespace IrcBot.Irc

structure IRCMessage where
  servername : Bytes := []
  user : Bytes := []
  nick : Bytes := []
  host : Bytes := []
  command : Bytes := []
  params : List Bytes := []
  deriving DecidableEq, Repr

namespace IRCMessage

/-- Everything `toString` writes in front of the command. -/
def originString (m : IRCMessage) : Bytes :=
  if m.servername = [] ∧ m.nick ≠ [] then
    [Chr.colon] ++ m.nick
      ++ (if m.user ≠ [] then [Chr.bang] ++ m.user else [])
      ++ (if m.host ≠ [] then [Chr.atSign] ++ m.host else [])
      ++ [Chr.space]
  else if m.servername ≠ [] then [Chr.colon] ++ m.servername ++ [Chr.space]
  else []

/-- Parameters as `toString` writes them: the last one always after a colon. -/
def paramsString : List Bytes → Bytes
  | [] => []
  | [last] => [Chr.space, Chr.colon] ++ last
  | p :: ps => [Chr.space] ++ p ++ paramsString ps

def toString (m : IRCMessage) (stripCRLF : Bool := false) : Bytes :=
  m.originString ++ m.command ++ paramsString m.params
    ++ (if stripCRLF then [] else [Chr.cr, Chr.lf])

end IRCMessage
end IrcBot.Irc

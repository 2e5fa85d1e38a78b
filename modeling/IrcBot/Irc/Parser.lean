import IrcBot.Irc.Message

/-! The IRC parser: a byte-level lexer that fills a token queue, and a token-level
parser that empties it at every line feed. The token buffer is a local variable of
`lexer`: it lives for one `parse` call, everything else is a member of the parser. -/
namespace IrcBot.Irc

inductive TokenType
  | servername | nick | user | host | command | param | cr | lf
  deriving DecidableEq, Repr

inductive State
  | none | servernameNick | user | host | command | commandNum | commandLetter
  | params | trailing | cr | lf
  deriving DecidableEq, Repr

structure Token where
  type : TokenType
  value : Bytes := []
  deriving DecidableEq, Repr

structure IRCParser where
  state : State := .none
  lastToken : TokenType := .lf
  tokens : List Token := []
  message : IRCMessage := {}
  messages : List IRCMessage := []
  deriving DecidableEq, Repr

namespace IRCParser

def messagesCount (p : IRCParser) : ℕ := p.messages.length

/-- The oldest parsed message and the parser without it; `none` stands for the call on
an empty queue, which is undefined. -/
def getMessage (p : IRCParser) : Option (IRCMessage × IRCParser) :=
  match p.messages with
  | [] => none
  | m :: ms => some (m, { p with messages := ms })

/-- Put the message under construction into the queue and start a new one. -/
def pushMessage (p : IRCParser) : IRCParser :=
  { p with messages := p.messages ++ [p.message], message := {} }

/-- One iteration of `parser`: the token is interpreted by the type of the one before. -/
def parserStep (p : IRCParser) (token : Token) : IRCParser :=
  let m := p.message
  let p := match p.lastToken with
    | .lf =>
      match token.type with
      | .servername => { p with message := { m with servername := token.value } }
      | .nick => { p with message := { m with nick := token.value } }
      | .command => { p with message := { m with command := token.value } }
      | _ => p
    | .servername =>
      match token.type with
      | .command => { p with message := { m with command := token.value } }
      | _ => p
    | .nick =>
      match token.type with
      | .user => { p with message := { m with user := token.value } }
      | .host => { p with message := { m with host := token.value } }
      | .command => { p with message := { m with command := token.value } }
      | _ => p
    | .user =>
      match token.type with
      | .host => { p with message := { m with host := token.value } }
      | .command => { p with message := { m with command := token.value } }
      | _ => p
    | .host =>
      match token.type with
      | .command => { p with message := { m with command := token.value } }
      | _ => p
    | .command | .param =>
      match token.type with
      | .param => { p with message := { m with params := m.params ++ [token.value] } }
      | .lf => p.pushMessage
      | _ => p
    | .cr =>
      match token.type with
      | .lf => p.pushMessage
      | _ => p
  { p with lastToken := token.type }

/-- Process the whole token queue. -/
def parser (p : IRCParser) : IRCParser :=
  p.tokens.foldl parserStep { p with tokens := [] }

end IRCParser

/-- A parser inside a call of `lexer`: its members and the local token buffer. -/
structure Lexer where
  parser : IRCParser
  token : Bytes := []
  deriving DecidableEq, Repr

namespace Lexer

/-- `token.put(x)` -/
def put (l : Lexer) (x : Byte) : Lexer := { l with token := l.token ++ [x] }

/-- `m_state = s` -/
def goto (l : Lexer) (s : State) : Lexer := { l with parser := { l.parser with state := s } }

/-- `putToken(type, token)`: the buffer becomes a token and is emptied. -/
def putToken (l : Lexer) (type : TokenType) : Lexer where
  parser := { l.parser with tokens := l.parser.tokens ++ [⟨type, l.token⟩] }
  token := []

/-- `putToken(type)`: a token without value. -/
def putMark (l : Lexer) (type : TokenType) : Lexer :=
  { l with parser := { l.parser with tokens := l.parser.tokens ++ [⟨type, []⟩] } }

/-- `if (not token.str().empty()) putToken(TokenType::PARAM, token)` -/
def putParam (l : Lexer) : Lexer := if l.token ≠ [] then l.putToken .param else l

/-- The branch taken for one byte, by the current state. -/
def dispatch (l : Lexer) (x : Byte) : Lexer :=
  match l.parser.state with
  | .none =>
    if x = Chr.colon then l.goto .servernameNick
    else (l.put x).goto .command
  | .servernameNick =>
    if x ≠ Chr.space ∧ x ≠ Chr.bang ∧ x ≠ Chr.atSign then l.put x
    else if x = Chr.space then (l.putToken .servername).goto .command
    else if x = Chr.bang then (l.putToken .nick).goto .user
    else (l.putToken .nick).goto .host
  | .user =>
    if x ≠ Chr.space ∧ x ≠ Chr.atSign then l.put x
    else if x = Chr.space then (l.putToken .user).goto .command
    else (l.putToken .user).goto .host
  | .host =>
    if x ≠ Chr.space then l.put x
    else (l.putToken .host).goto .command
  | .command =>
    if isDigit x then (l.put x).goto .commandNum
    else if isLetter x then (l.put x).goto .commandLetter
    else l
  | .commandNum =>
    if isDigit x then l.put x
    else if x = Chr.space then (l.putToken .command).goto .params
    else l
  | .commandLetter =>
    if isLetter x then l.put x
    else if x = Chr.space then (l.putToken .command).goto .params
    else l
  | .params =>
    if x ≠ Chr.colon ∧ x ≠ Chr.space ∧ x ≠ Chr.nul ∧ x ≠ Chr.cr ∧ x ≠ Chr.lf then l.put x
    else if x = Chr.colon then l.goto .trailing
    else if x = Chr.space then l.putParam
    else if x = Chr.cr then (l.putParam.putMark .cr).goto .cr
    else if x = Chr.lf then (l.putParam.putMark .lf).goto .lf
    else l
  | .trailing =>
    if x ≠ Chr.nul ∧ x ≠ Chr.cr ∧ x ≠ Chr.lf then l.put x
    else if x = Chr.cr then ((l.putToken .param).putMark .cr).goto .cr
    else if x = Chr.lf then ((l.putToken .param).putMark .lf).goto .lf
    else l
  | .cr => if x = Chr.lf then (l.putMark .lf).goto .lf else l
  | .lf => l

/-- One iteration of the loop of `lexer`: a line feed that ended a line runs `parser`. -/
def step (l : Lexer) (x : Byte) : Lexer :=
  let l := l.dispatch x
  if l.parser.state = .lf then { l with parser := { l.parser.parser with state := .none } } else l

end Lexer

namespace IRCParser

/-- The loop over the bytes of one call; the token buffer starts empty and is dropped. -/
def lexer (p : IRCParser) (message : Bytes) : IRCParser :=
  (message.foldl Lexer.step ⟨p, []⟩).parser

def parse (p : IRCParser) (message : Bytes) : IRCParser := p.lexer message

/-- States of a parser object under calls of its public functions. -/
inductive Reachable : IRCParser → Prop
  | new : Reachable {}
  | parse {p : IRCParser} (message : Bytes) : Reachable p → Reachable (p.parse message)
  | getMessage {p q : IRCParser} {m : IRCMessage} :
      Reachable p → p.getMessage = some (m, q) → Reachable q

/-- Messages a fresh parser has in its queue after one `parse` call. -/
def messagesOf (message : Bytes) : List IRCMessage := (parse {} message).messages

end IRCParser
end IrcBot.Irc

import IrcBot.Irc.Parser
import IrcBot.Machine.Mealy

/-! The reader of one line at a time: the control state of the lexer together with
the part of the line read so far. The token queue and the parser over it disappear
here; the lexer with its queue refines this machine step by step. -/
namespace IrcBot.Irc

/-- The tokens before the command. -/
inductive Origin
  | absent
  | server (name : Bytes)
  | user (nick user : Bytes)
  | host (nick host : Bytes)
  | userHost (nick user host : Bytes)
  deriving DecidableEq, Repr

/-- The tokens of one line, CR and LF apart. -/
structure TokenLine where
  origin : Origin
  command : Bytes
  params : List Bytes := []
  deriving DecidableEq, Repr

def Origin.tokens : Origin → List Token
  | .absent => []
  | .server s => [⟨.servername, s⟩]
  | .user n u => [⟨.nick, n⟩, ⟨.user, u⟩]
  | .host n h => [⟨.nick, n⟩, ⟨.host, h⟩]
  | .userHost n u h => [⟨.nick, n⟩, ⟨.user, u⟩, ⟨.host, h⟩]

@[simp] theorem Origin.tokens_absent : Origin.absent.tokens = [] := rfl

@[simp] theorem Origin.tokens_server (s : Bytes) :
    (Origin.server s).tokens = [⟨.servername, s⟩] := rfl

@[simp] theorem Origin.tokens_user (n u : Bytes) :
    (Origin.user n u).tokens = [⟨.nick, n⟩, ⟨.user, u⟩] := rfl

@[simp] theorem Origin.tokens_host (n h : Bytes) :
    (Origin.host n h).tokens = [⟨.nick, n⟩, ⟨.host, h⟩] := rfl

@[simp] theorem Origin.tokens_userHost (n u h : Bytes) :
    (Origin.userHost n u h).tokens = [⟨.nick, n⟩, ⟨.user, u⟩, ⟨.host, h⟩] := rfl

def Origin.message : Origin → IRCMessage
  | .absent => {}
  | .server s => { servername := s }
  | .user n u => { nick := n, user := u }
  | .host n h => { nick := n, host := h }
  | .userHost n u h => { nick := n, user := u, host := h }

namespace TokenLine

def tokens (l : TokenLine) : List Token :=
  l.origin.tokens ++ [⟨.command, l.command⟩] ++ l.params.map fun t => ⟨.param, t⟩

def message (l : TokenLine) : IRCMessage :=
  { l.origin.message with command := l.command, params := l.params }

def addParam (l : TokenLine) (t : Bytes) : TokenLine := { l with params := l.params ++ [t] }

/-- A middle parameter ends: nothing is added for an empty buffer. -/
def addMiddle (l : TokenLine) (t : Bytes) : TokenLine := if t ≠ [] then l.addParam t else l

@[simp] theorem tokens_command (o : Origin) (t : Bytes) :
    (⟨o, t, []⟩ : TokenLine).tokens = o.tokens ++ [⟨.command, t⟩] := by
  simp [tokens]

@[simp] theorem tokens_addParam (l : TokenLine) (t : Bytes) :
    (l.addParam t).tokens = l.tokens ++ [⟨.param, t⟩] := by
  simp [tokens, addParam]

end TokenLine

/-- How far the current line has been read. -/
inductive Reading
  | start
  | servernameNick (t : Bytes)
  | user (nick t : Bytes)
  | host (nick t : Bytes)
  | userHost (nick user t : Bytes)
  | command (o : Origin) (t : Bytes)
  | commandNum (o : Origin) (t : Bytes)
  | commandLetter (o : Origin) (t : Bytes)
  | params (l : TokenLine) (t : Bytes)
  | trailing (l : TokenLine) (t : Bytes)
  | cr (l : TokenLine)
  deriving DecidableEq, Repr

namespace Reading

/-- The next reading after a byte, and the line it completes. -/
def step (r : Reading) (x : Byte) : Reading × List TokenLine :=
  match r with
  | .start =>
    if x = Chr.colon then (.servernameNick [], []) else (.command .absent [x], [])
  | .servernameNick t =>
    if x = Chr.space then (.command (.server t) [], [])
    else if x = Chr.bang then (.user t [], [])
    else if x = Chr.atSign then (.host t [], [])
    else (.servernameNick (t ++ [x]), [])
  | .user n t =>
    if x = Chr.space then (.command (.user n t) [], [])
    else if x = Chr.atSign then (.userHost n t [], [])
    else (.user n (t ++ [x]), [])
  | .host n t =>
    if x = Chr.space then (.command (.host n t) [], []) else (.host n (t ++ [x]), [])
  | .userHost n u t =>
    if x = Chr.space then (.command (.userHost n u t) [], [])
    else (.userHost n u (t ++ [x]), [])
  | .command o t =>
    if isDigit x then (.commandNum o (t ++ [x]), [])
    else if isLetter x then (.commandLetter o (t ++ [x]), [])
    else (r, [])
  | .commandNum o t =>
    if isDigit x then (.commandNum o (t ++ [x]), [])
    else if x = Chr.space then (.params ⟨o, t, []⟩ [], [])
    else (r, [])
  | .commandLetter o t =>
    if isLetter x then (.commandLetter o (t ++ [x]), [])
    else if x = Chr.space then (.params ⟨o, t, []⟩ [], [])
    else (r, [])
  | .params l t =>
    if x = Chr.colon then (.trailing l t, [])
    else if x = Chr.space then (.params (l.addMiddle t) [], [])
    else if x = Chr.cr then (.cr (l.addMiddle t), [])
    else if x = Chr.lf then (.start, [l.addMiddle t])
    else if x = Chr.nul then (r, [])
    else (.params l (t ++ [x]), [])
  | .trailing l t =>
    if x = Chr.cr then (.cr (l.addParam t), [])
    else if x = Chr.lf then (.start, [l.addParam t])
    else if x = Chr.nul then (r, [])
    else (.trailing l (t ++ [x]), [])
  | .cr l => if x = Chr.lf then (.start, [l]) else (r, [])

def state : Reading → State
  | .start => .none
  | .servernameNick _ => .servernameNick
  | .user .. => .user
  | .host .. | .userHost .. => .host
  | .command .. => .command
  | .commandNum .. => .commandNum
  | .commandLetter .. => .commandLetter
  | .params .. => .params
  | .trailing .. => .trailing
  | .cr _ => .cr

def buffer : Reading → Bytes
  | .start | .cr _ => []
  | .servernameNick t | .user _ t | .host _ t | .userHost _ _ t | .command _ t
  | .commandNum _ t | .commandLetter _ t | .params _ t | .trailing _ t => t

/-- The token queue in the middle of the line. -/
def tokens : Reading → List Token
  | .start | .servernameNick _ => []
  | .user n _ | .host n _ => [⟨.nick, n⟩]
  | .userHost n u _ => [⟨.nick, n⟩, ⟨.user, u⟩]
  | .command o _ | .commandNum o _ | .commandLetter o _ => o.tokens
  | .params l _ | .trailing l _ => l.tokens
  | .cr l => l.tokens ++ [⟨.cr, []⟩]

/-- The parser object between two bytes, with the messages it has queued. -/
def parser (r : Reading) (ms : List IRCMessage) : IRCParser where
  state := r.state
  tokens := r.tokens
  messages := ms

def lexer (r : Reading) (ms : List IRCMessage) : Lexer := ⟨r.parser ms, r.buffer⟩

/-- The end of a `parse` call: the token buffer is a local variable and is lost. -/
def forget : Reading → Reading
  | .start => .start
  | .servernameNick _ => .servernameNick []
  | .user n _ => .user n []
  | .host n _ => .host n []
  | .userHost n u _ => .userHost n u []
  | .command o _ => .command o []
  | .commandNum o _ => .commandNum o []
  | .commandLetter o _ => .commandLetter o []
  | .params l _ => .params l []
  | .trailing l _ => .trailing l []
  | .cr l => .cr l

@[simp] theorem state_forget (r : Reading) : r.forget.state = r.state := by cases r <;> rfl
@[simp] theorem tokens_forget (r : Reading) : r.forget.tokens = r.tokens := by cases r <;> rfl
@[simp] theorem buffer_forget (r : Reading) : r.forget.buffer = [] := by cases r <;> rfl
@[simp] theorem forget_forget (r : Reading) : r.forget.forget = r.forget := by cases r <;> rfl

theorem forget_eq_self {r : Reading} (h : r.buffer = []) : r.forget = r := by
  cases r <;> simp_all [forget, buffer]

theorem parser_forget (r : Reading) (ms : List IRCMessage) : r.forget.parser ms = r.parser ms := by
  simp [parser]

end Reading

/-- The reader as a machine over bytes that emits the lines it completes. -/
def reader : Machine.Mealy Reading Byte TokenLine := ⟨Reading.step⟩

@[simp] theorem reader_step (r : Reading) (x : Byte) : reader.step r x = r.step x := rfl

namespace IRCParser

private theorem foldl_params (p : IRCParser) (ps : List Bytes)
    (h : p.lastToken = .command ∨ p.lastToken = .param) :
    (ps.map fun t => (⟨.param, t⟩ : Token)).foldl parserStep p =
      { p with
        message := { p.message with params := p.message.params ++ ps }
        lastToken := if ps = [] then p.lastToken else .param } := by
  induction ps generalizing p with
  | nil => simp
  | cons t ps ih =>
    have hstep : parserStep p ⟨.param, t⟩ =
        { p with
          message := { p.message with params := p.message.params ++ [t] }
          lastToken := .param } := by
      rcases h with h | h <;> simp [parserStep, h]
    rw [List.map_cons, List.foldl_cons, hstep, ih _ (Or.inr rfl)]
    simp

/-- The tokens of a line build its message. -/
private theorem foldl_tokens (l : TokenLine) (ms : List IRCMessage) (s : State) :
    l.tokens.foldl parserStep { state := s, messages := ms } =
      { state := s, messages := ms, message := l.message
        lastToken := if l.params = [] then .command else .param } := by
  have hhead : (l.origin.tokens ++ [(⟨.command, l.command⟩ : Token)]).foldl parserStep
      { state := s, messages := ms } =
      { state := s, messages := ms, lastToken := .command
        message := { l.origin.message with command := l.command } } := by
    cases h : l.origin <;> rfl
  rw [TokenLine.tokens, List.foldl_append, hhead, foldl_params _ _ (Or.inl rfl)]
  cases h : l.origin <;> simp [TokenLine.message, Origin.message, h]

/-- `parser` on a complete line queues the message of the line and leaves nothing else. -/
theorem parser_line (l : TokenLine) (ms : List IRCMessage) (s : State) :
    parser { state := s, tokens := l.tokens ++ [⟨.lf, []⟩], messages := ms } =
      { state := s, messages := ms ++ [l.message] } := by
  rw [parser, List.foldl_append, foldl_tokens]
  by_cases h : l.params = [] <;> simp [parserStep, pushMessage, h]

theorem parser_line_cr (l : TokenLine) (ms : List IRCMessage) (s : State) :
    parser { state := s, tokens := l.tokens ++ [⟨.cr, []⟩, ⟨.lf, []⟩], messages := ms } =
      { state := s, messages := ms ++ [l.message] } := by
  rw [parser, List.foldl_append, foldl_tokens]
  by_cases h : l.params = [] <;> simp [parserStep, pushMessage, h]

end IRCParser

namespace Reading

/-- A line feed that ends the line `tl`: `parser` runs on its tokens. -/
private theorem step_line {l : Lexer} {x : Byte} {tl : TokenLine} {ts : List Token}
    {ms : List IRCMessage} (hd : l.dispatch x = ⟨{ state := .lf, tokens := ts, messages := ms }, []⟩)
    (hp : IRCParser.parser { state := .lf, tokens := ts, messages := ms } =
      { state := .lf, messages := ms ++ [tl.message] }) :
    l.step x = Reading.start.lexer (ms ++ [tl.message]) := by
  simp [Lexer.step, hd, hp, lexer, parser, state, tokens, buffer]

section
attribute [local simp] Lexer.step Lexer.dispatch Lexer.goto Lexer.put Lexer.putToken
  Lexer.putMark Lexer.putParam lexer parser step state buffer tokens

/-- One byte of the lexer is one byte of the reader. -/
theorem lexer_step (r : Reading) (ms : List IRCMessage) (x : Byte) :
    (r.lexer ms).step x =
      (r.step x).1.lexer (ms ++ (r.step x).2.map TokenLine.message) := by
  cases r with
  | start =>
    by_cases h : x = Chr.colon <;> simp [h]
  | servernameNick t =>
    by_cases hs : x = Chr.space
    · simp +decide [hs]
    by_cases hb : x = Chr.bang
    · simp +decide [hb]
    by_cases ha : x = Chr.atSign
    · simp +decide [ha]
    simp [hs, hb, ha]
  | user n t =>
    by_cases hs : x = Chr.space
    · simp +decide [hs]
    by_cases ha : x = Chr.atSign <;> simp +decide [hs, ha]
  | host n t => by_cases hs : x = Chr.space <;> simp +decide [hs]
  | userHost n u t => by_cases hs : x = Chr.space <;> simp +decide [hs]
  | command o t =>
    by_cases hd : isDigit x = true
    · simp [hd]
    by_cases hl : isLetter x = true <;> simp [hd, hl]
  | commandNum o t =>
    by_cases hd : isDigit x = true
    · simp [hd]
    by_cases hs : x = Chr.space <;> simp +decide [hd, hs]
  | commandLetter o t =>
    by_cases hl : isLetter x = true
    · simp [hl]
    by_cases hs : x = Chr.space <;> simp +decide [hl, hs]
  | params l t =>
    have hmid : (l.addMiddle t).tokens = if t = [] then l.tokens else l.tokens ++ [⟨.param, t⟩] := by
      by_cases ht : t = [] <;> simp [TokenLine.addMiddle, ht]
    by_cases hc : x = Chr.colon
    · simp +decide [hc]
    by_cases hs : x = Chr.space
    · by_cases ht : t = [] <;> simp +decide [hs, ht, TokenLine.addMiddle]
    by_cases hr : x = Chr.cr
    · by_cases ht : t = [] <;> simp +decide [hr, ht, TokenLine.addMiddle]
    by_cases hf : x = Chr.lf
    · have hd : ((params l t).lexer ms).dispatch x =
          ⟨{ state := .lf, tokens := (l.addMiddle t).tokens ++ [⟨.lf, []⟩], messages := ms }, []⟩ := by
        rw [hmid]
        by_cases ht : t = [] <;> simp +decide [hf, ht]
      rw [step_line hd (IRCParser.parser_line _ _ _)]
      simp +decide [hf]
    by_cases hn : x = Chr.nul <;> simp +decide [hc, hs, hr, hf, hn]
  | trailing l t =>
    by_cases hr : x = Chr.cr
    · simp +decide [hr]
    by_cases hf : x = Chr.lf
    · have hd : ((trailing l t).lexer ms).dispatch x =
          ⟨{ state := .lf, tokens := (l.addParam t).tokens ++ [⟨.lf, []⟩], messages := ms }, []⟩ := by
        simp +decide [hf]
      rw [step_line hd (IRCParser.parser_line _ _ _)]
      simp +decide [hf]
    by_cases hn : x = Chr.nul <;> simp +decide [hr, hf, hn]
  | cr l =>
    by_cases hf : x = Chr.lf
    · have hd : ((cr l).lexer ms).dispatch x =
          ⟨{ state := .lf, tokens := l.tokens ++ [⟨.cr, []⟩, ⟨.lf, []⟩], messages := ms }, []⟩ := by
        simp +decide [hf]
      rw [step_line hd (IRCParser.parser_line_cr _ _ _)]
      simp +decide [hf]
    simp [hf]

end

/-- The lexer over a whole byte string runs the reader over it. -/
theorem lexer_foldl (r : Reading) (ms : List IRCMessage) (w : Bytes) :
    w.foldl Lexer.step (r.lexer ms) =
      (reader.run r w).lexer (ms ++ (reader.out r w).map TokenLine.message) := by
  induction w generalizing r ms with
  | nil => simp
  | cons x w ih =>
    rw [List.foldl_cons, lexer_step, ih]
    simp

/-- One `parse` call reads the bytes from the reading without its buffer. -/
theorem parse_reading (r : Reading) (ms : List IRCMessage) (w : Bytes) :
    (r.parser ms).parse w =
      (reader.run r.forget w).parser (ms ++ (reader.out r.forget w).map TokenLine.message) := by
  have h : (⟨r.parser ms, []⟩ : Lexer) = r.forget.lexer ms := by simp [lexer, parser]
  rw [IRCParser.parse, IRCParser.lexer, h, lexer_foldl]
  rfl

end Reading

namespace IRCParser

/-- Every reachable parser is a reading with an empty buffer and a message queue. -/
theorem Reachable.reading {p : IRCParser} (h : Reachable p) :
    ∃ (r : Reading) (ms : List IRCMessage), r.buffer = [] ∧ p = r.parser ms := by
  induction h with
  | new => exact ⟨.start, [], rfl, rfl⟩
  | parse w _ ih =>
    obtain ⟨r, ms, -, rfl⟩ := ih
    exact ⟨(reader.run r.forget w).forget, _, Reading.buffer_forget _,
      (Reading.parse_reading r ms w).trans (Reading.parser_forget _ _).symm⟩
  | getMessage _ hget ih =>
    obtain ⟨r, ms, hr, rfl⟩ := ih
    cases ms with
    | nil => simp [IRCParser.getMessage, Reading.parser] at hget
    | cons m ms =>
      simp only [IRCParser.getMessage, Reading.parser, Option.some.injEq, Prod.mk.injEq] at hget
      exact ⟨r, ms, hr, hget.2.symm⟩

/-- Taking a message out of the queue does not change what is parsed later. -/
theorem messages_foldl_getMessage {p q : IRCParser} {m : IRCMessage} (hp : Reachable p)
    (h : p.getMessage = some (m, q)) (chunks : List Bytes) :
    (chunks.foldl parse p).messages = m :: (chunks.foldl parse q).messages := by
  obtain ⟨r, ms, -, rfl⟩ := hp.reading
  cases ms with
  | nil => simp [getMessage, Reading.parser] at h
  | cons m' ms =>
    obtain ⟨rfl, rfl⟩ : m' = m ∧ r.parser ms = q := by simpa [getMessage, Reading.parser] using h
    clear h hp
    induction chunks generalizing r ms with
    | nil => rfl
    | cons w chunks ih =>
      rw [List.foldl_cons, List.foldl_cons, Reading.parse_reading, Reading.parse_reading]
      exact ih _ _

/-- The messages of one call on a fresh parser are the lines the reader completes. -/
theorem messagesOf_eq (w : Bytes) :
    messagesOf w = (reader.out .start w).map TokenLine.message := by
  have h : ({} : IRCParser) = Reading.start.parser [] := rfl
  rw [messagesOf, h, Reading.parse_reading]
  simp [Reading.parser, Reading.forget]

end IRCParser
end IrcBot.Irc

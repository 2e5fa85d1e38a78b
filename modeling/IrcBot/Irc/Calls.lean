import IrcBot.Irc.Reading

/-! The calls of `parser` that `lexer` makes. At each of them the token queue is one
complete line, so that the branches of `parser` for unexpected tokens are never taken. -/
namespace IrcBot.Irc

namespace IRCParser

/-- The branches of `parser` marked `report error!`, by the last token and the next one. -/
def reportsError : TokenType → TokenType → Bool
  | .lf, type => type ≠ .servername ∧ type ≠ .nick ∧ type ≠ .command
  | .servername, type => type ≠ .command
  | .nick, type => type ≠ .user ∧ type ≠ .host ∧ type ≠ .command
  | .user, type => type ≠ .host ∧ type ≠ .command
  | .host, type => type ≠ .command
  | .command, type | .param, type => type ≠ .param ∧ type ≠ .lf ∧ type ≠ .cr
  | .cr, _ => false

@[simp] theorem lastToken_parserStep (p : IRCParser) (t : Token) :
    (p.parserStep t).lastToken = t.type := rfl

/-- The tokens at which the loop of `parser` takes such a branch. -/
def errors (p : IRCParser) : List Token → List Token
  | [] => []
  | t :: ts => (if reportsError p.lastToken t.type then [t] else []) ++ (p.parserStep t).errors ts

end IRCParser

/-- The token queue of a complete line. -/
def TokenLine.queue (l : TokenLine) (withCR : Bool) : List Token :=
  l.tokens ++ (if withCR then [⟨.cr, []⟩] else []) ++ [⟨.lf, []⟩]

namespace IRCParser

/-- A parser object on which `parser` reads one line and leaves nothing behind. -/
structure Agrees (p : IRCParser) : Prop where
  lastToken : p.lastToken = .lf
  message : p.message = {}
  line : ∃ l withCR, p.tokens = TokenLine.queue l withCR ∧
    errors { p with tokens := [] } p.tokens = [] ∧
    p.parser.messages = p.messages ++ [l.message] ∧ p.parser.tokens = [] ∧
    p.parser.lastToken = .lf ∧ p.parser.message = {}

end IRCParser

/-- The parser object on which one iteration of `lexer` calls `parser`, if it does. -/
def Lexer.calls (l : Lexer) (x : Byte) : List IRCParser :=
  if (l.dispatch x).parser.state = .lf then [(l.dispatch x).parser] else []

/-- The loop of `lexer` as a machine that emits the calls of `parser`. -/
def lexing : Machine.Mealy Lexer Byte IRCParser := ⟨fun l x => (l.step x, l.calls x)⟩

theorem lexing_run (l : Lexer) (w : Bytes) : lexing.run l w = w.foldl Lexer.step l := by
  induction w generalizing l with
  | nil => rfl
  | cons x w ih => exact ih (l.step x)

namespace IRCParser

/-- The calls of `parser` during one call of `parse`. -/
def parserCalls (p : IRCParser) (message : Bytes) : List IRCParser := lexing.out ⟨p, []⟩ message

theorem parse_eq_lexing (p : IRCParser) (message : Bytes) :
    p.parse message = (lexing.run ⟨p, []⟩ message).parser := by
  rw [lexing_run]
  rfl

/-- Behind the command nothing but parameters and the line end is read without an error. -/
private theorem errors_params {p : IRCParser} (h : p.lastToken = .command ∨ p.lastToken = .param)
    (ps : List Bytes) (withCR : Bool) :
    p.errors ((ps.map fun t => (⟨.param, t⟩ : Token)) ++
      (if withCR then [⟨.cr, []⟩] else []) ++ [⟨.lf, []⟩]) = [] := by
  induction ps generalizing p with
  | nil => rcases h with h | h <;> cases withCR <;> simp [errors, reportsError, h]
  | cons t ps ih =>
    have hnext := ih (p := p.parserStep ⟨.param, t⟩) (Or.inr rfl)
    have hparam : reportsError p.lastToken .param = false := by
      rcases h with h | h <;> rw [h] <;> rfl
    rw [List.map_cons, List.cons_append, List.cons_append, errors, hparam, hnext]
    rfl

theorem errors_queue {p : IRCParser} (h : p.lastToken = .lf) (l : TokenLine) (withCR : Bool) :
    p.errors (l.queue withCR) = [] := by
  obtain ⟨o, c, ps⟩ := l
  have hcommand (q : IRCParser) : (q.parserStep ⟨.command, c⟩).errors
      ((ps.map fun t => (⟨.param, t⟩ : Token)) ++
        ((if withCR then [⟨.cr, []⟩] else []) ++ [⟨.lf, []⟩])) = [] := by
    rw [← List.append_assoc]
    exact errors_params (Or.inl rfl) ps withCR
  cases o <;>
    simp [TokenLine.queue, TokenLine.tokens, errors, hcommand, h, reportsError]

/-- On a complete line `parser` agrees with `lexer`. -/
theorem agrees_queue (l : TokenLine) (withCR : Bool) (ms : List IRCMessage) (s : State) :
    Agrees { state := s, tokens := l.queue withCR, messages := ms } where
  lastToken := rfl
  message := rfl
  line := by
    have hparser : parser { state := s, tokens := l.queue withCR, messages := ms } =
        { state := s, messages := ms ++ [l.message] } := by
      cases withCR with
      | false => simpa [TokenLine.queue] using parser_line l ms s
      | true => simpa [TokenLine.queue] using parser_line_cr l ms s
    exact ⟨l, withCR, rfl, errors_queue rfl l withCR, by rw [hparser], by rw [hparser],
      by rw [hparser], by rw [hparser]⟩

end IRCParser

namespace Reading

section
attribute [local simp] Lexer.dispatch Lexer.goto Lexer.put Lexer.putToken Lexer.putMark
  Lexer.putParam lexer parser state buffer tokens

/-- The lexer reaches the end of a line only with the tokens of a complete line. -/
theorem dispatch_lf {r : Reading} {ms : List IRCMessage} {x : Byte}
    (h : ((r.lexer ms).dispatch x).parser.state = .lf) :
    ∃ l withCR, ((r.lexer ms).dispatch x).parser =
      { state := .lf, tokens := TokenLine.queue l withCR, messages := ms } := by
  cases r with
  | start | servernameNick | user | host | userHost | command | commandNum | commandLetter =>
    exfalso
    revert h
    simp only [Lexer.dispatch, lexer, parser, state]
    split_ifs <;> simp
  | params l t =>
    by_cases hf : x = Chr.lf
    · refine ⟨l.addMiddle t, false, ?_⟩
      by_cases ht : t = [] <;>
        simp +decide [hf, ht, TokenLine.queue, TokenLine.addMiddle]
    · exfalso
      revert h
      simp only [Lexer.dispatch, lexer, parser, state]
      by_cases ht : t = [] <;> split_ifs <;> simp [ht]
  | trailing l t =>
    by_cases hf : x = Chr.lf
    · refine ⟨l.addParam t, false, ?_⟩
      simp +decide [hf, TokenLine.queue]
    · exfalso
      revert h
      simp only [Lexer.dispatch, lexer, parser, state]
      split_ifs <;> simp
  | cr l =>
    by_cases hf : x = Chr.lf
    · refine ⟨l, true, ?_⟩
      simp [hf, TokenLine.queue]
    · simp [hf] at h

end

theorem agrees_calls (r : Reading) (ms : List IRCMessage) (x : Byte) :
    ∀ p ∈ (r.lexer ms).calls x, p.Agrees := by
  intro p hp
  unfold Lexer.calls at hp
  split_ifs at hp with hlf
  · obtain ⟨l, withCR, hqueue⟩ := dispatch_lf hlf
    rw [List.mem_singleton.mp hp, hqueue]
    exact IRCParser.agrees_queue l withCR ms .lf
  · exact absurd hp List.not_mem_nil

end Reading

namespace IRCParser

/-- Every call of `parser` that `lexer` makes, in any sequence of `parse` calls, reads one
complete line. -/
theorem parserCalls_agree {p : IRCParser} (hp : Reachable p) (message : Bytes) :
    p.parse message = (lexing.run ⟨p, []⟩ message).parser ∧ ∀ q ∈ p.parserCalls message, q.Agrees := by
  refine ⟨p.parse_eq_lexing message, ?_⟩
  obtain ⟨r, ms, hr, rfl⟩ := hp.reading
  refine lexing.out_invariant (I := fun l => ∃ (r : Reading) (ms : List IRCMessage), l = r.lexer ms)
    ?_ ?_ ⟨r, ms, by rw [Reading.lexer, hr]⟩ message
  · rintro _ x ⟨r, ms, rfl⟩
    exact ⟨_, _, r.lexer_step ms x⟩
  · rintro _ x ⟨r, ms, rfl⟩
    exact r.agrees_calls ms x

/-- The one call for `":a!b PING x\r\n"`. -/
theorem parserCalls_agree_ping :
    (parserCalls {} (text ":a!b PING x\r\n".toList)).length = 1 ∧
      ∀ q ∈ parserCalls {} (text ":a!b PING x\r\n".toList), q.Agrees :=
  ⟨by decide, (parserCalls_agree .new (text ":a!b PING x\r\n".toList)).2⟩

end IRCParser
end IrcBot.Irc

import IrcBot.Bytes

/-! The command parser of the admin port and of the plugins' console: one pass over
the bytes of a command, with a countdown that makes the byte after a backslash
literal and two flags for the open quotation. -/
namespace IrcBot

/-- Configuration of a command parser. A NUL byte means that commands have no prefix. -/
structure ParserConfig where
  prefixChar : Byte
  deriving DecidableEq, Repr

/-- Exception thrown on an unexpected character. -/
structure UnexpectedCharacter where
  given : Bytes
  expected : Bytes
  deriving DecidableEq, Repr

namespace UnexpectedCharacter

/-- Text of the exception. -/
def what (e : UnexpectedCharacter) : Bytes :=
  text "Unexpected character: ".toList ++ e.given ++ text ". Expected: ".toList ++ e.expected

end UnexpectedCharacter

/-- Parsed command and its arguments. -/
structure Command where
  command : Bytes := []
  arguments : List Bytes := []
  deriving DecidableEq, Repr

namespace CommandParser

/-- States of the parsing loop that the code assigns. -/
inductive State
  | start
  | command
  | argument
  deriving DecidableEq, Repr

/-- Local variables of `parse`. The counter is an `int`: `doEscape_bounds` keeps it
in range for inputs shorter than `2 ^ 31` bytes. -/
structure Locals where
  doEscape : Int := 0
  isQuoted : Bool := false
  isDquote : Bool := false
  state : State := .start
  token : Bytes := []
  cmd : Command := {}
  deriving DecidableEq, Repr

/-- Characters `a-zA-Z0-9-`. -/
def isCommandCharacter (x : Byte) : Bool := isLetter x || isDigit x || x == Chr.dash

/-- `std::string{1, x}` is a list of two characters, not one repeated once. -/
def oneCharacter (x : Byte) : Bytes := [0x01, x]

namespace Locals

def put (l : Locals) (x : Byte) : Locals := { l with token := l.token ++ [x] }

/-- One byte in the `ARGUMENT` state. -/
def argument (l : Locals) (x : Byte) : Locals :=
  if 0 < l.doEscape then l.put x
  else if x = Chr.backslash then { l with doEscape := 2 }
  else if x = Chr.quote then
    if l.isQuoted && !l.isDquote then { l with isQuoted := false }
    else if !l.isQuoted then { l with isQuoted := true, isDquote := false }
    else l.put x
  else if x = Chr.dquote then
    if l.isQuoted && l.isDquote then { l with isQuoted := false }
    else if !l.isQuoted then { l with isQuoted := true, isDquote := true }
    else l.put x
  else if l.isQuoted then l.put x
  else if x = Chr.cr then l
  else if x = Chr.space ∨ x = Chr.lf then
    { l with cmd := { l.cmd with arguments := l.cmd.arguments ++ [l.token] }, token := [] }
  else l.put x

/-- `--do_escape` at the end of the loop's body. -/
def countDown (l : Locals) : Locals := { l with doEscape := l.doEscape - 1 }

/-- What happens to the token that is left at the end of the input. -/
def finish (l : Locals) : Command :=
  if l.token ≠ [] then
    match l.state with
    | .start => l.cmd
    | .command => { l.cmd with command := l.token }
    | .argument => { l.cmd with arguments := l.cmd.arguments ++ [l.token] }
  else l.cmd

end Locals

/-- The branches of the loop's body. -/
def dispatch (config : ParserConfig) (l : Locals) (x : Byte) :
    Except UnexpectedCharacter Locals :=
  match l.state with
  | .start =>
    if x = config.prefixChar then .ok { l with state := .command }
    else .error ⟨oneCharacter x, oneCharacter config.prefixChar⟩
  | .command =>
    if isCommandCharacter x then .ok (l.put x)
    else if x = Chr.space then
      .ok { l with cmd := { l.cmd with command := l.token }, token := [], state := .argument }
    else if x = Chr.cr ∨ x = Chr.lf then .ok l
    else .error ⟨oneCharacter x, text "a-zA-Z0-9-".toList⟩
  | .argument => .ok (l.argument x)

/-- One turn of the loop. -/
def turn (config : ParserConfig) (l : Locals) (x : Byte) : Except UnexpectedCharacter Locals := do
  let l ← dispatch config l x
  return l.countDown

def initial (config : ParserConfig) : Locals :=
  if config.prefixChar = Chr.nul then { state := .command } else {}

/-- The loop over the bytes of the command. -/
def scan (config : ParserConfig) (l : Locals) (command : Bytes) :
    Except UnexpectedCharacter Locals :=
  command.foldlM (turn config) l

def parse (config : ParserConfig) (command : Bytes) : Except UnexpectedCharacter Command := do
  let l ← scan config (initial config) command
  return l.finish

example : parse ⟨0x2f⟩ (text "/2Com 'arg1' arg2'arg3 arg4'".toList) =
    .ok ⟨text "2Com".toList, [text "arg1".toList, text "arg2arg3 arg4".toList]⟩ := by
  decide +kernel

@[simp] theorem scan_nil (config : ParserConfig) (l : Locals) :
    scan config l [] = .ok l := rfl

theorem scan_cons (config : ParserConfig) (l : Locals) (x : Byte) (xs : Bytes) :
    scan config l (x :: xs) = (turn config l x).bind fun l' => scan config l' xs := rfl

theorem scan_cons_ok {config : ParserConfig} {l l' : Locals} {x : Byte}
    (h : dispatch config l x = .ok l') (xs : Bytes) :
    scan config l (x :: xs) = scan config l'.countDown xs := by
  rw [scan_cons]
  unfold turn
  rw [h]
  rfl

theorem scan_cons_error {config : ParserConfig} {l : Locals} {x : Byte} {e : UnexpectedCharacter}
    (h : dispatch config l x = .error e) (xs : Bytes) :
    scan config l (x :: xs) = .error e := by
  rw [scan_cons]
  unfold turn
  rw [h]
  rfl

namespace Locals

theorem argument_doEscape (l : Locals) (x : Byte) :
    (l.argument x).doEscape = 2 ∨ (l.argument x).doEscape = l.doEscape := by
  unfold argument put
  repeat' split
  all_goals simp

@[simp] theorem put_state (l : Locals) (x : Byte) : (l.put x).state = l.state := rfl

@[simp] theorem argument_state (l : Locals) (x : Byte) : (l.argument x).state = l.state := by
  unfold argument put
  repeat' split
  all_goals rfl

end Locals

theorem dispatch_doEscape {config : ParserConfig} {l l' : Locals} {x : Byte}
    (h : dispatch config l x = .ok l') : l'.doEscape = 2 ∨ l'.doEscape = l.doEscape := by
  unfold dispatch at h
  split at h
  · split at h <;> simp at h
    exact .inr (by rw [← h])
  · repeat' split at h
    all_goals simp at h
    all_goals exact .inr (h ▸ rfl)
  · simp only [Except.ok.injEq] at h
    rw [← h]
    exact l.argument_doEscape x

/-- The counter never grows past one between two turns and falls by at most one a byte. -/
theorem doEscape_bounds {config : ParserConfig} {l l' : Locals} {command : Bytes}
    (hl : l.doEscape ≤ 1) (h : scan config l command = .ok l') :
    l'.doEscape ≤ 1 ∧ l.doEscape - command.length ≤ l'.doEscape := by
  induction command generalizing l with
  | nil =>
    simp only [scan_nil, Except.ok.injEq] at h
    subst h
    simp [hl]
  | cons x xs ih =>
    cases hd : dispatch config l x with
    | error e =>
      rw [scan_cons_error hd] at h
      cases h
    | ok k =>
      rw [scan_cons_ok hd] at h
      have hk : k.countDown.doEscape = k.doEscape - 1 := rfl
      have hor := dispatch_doEscape hd
      have := ih (by omega) h
      simp only [List.length_cons]
      omega

end CommandParser
end IrcBot

import IrcBot.Irc.Chunks

/-! Lines of a stream and where the reader stands at their line feeds. Only the states
after the command act on a line feed; a line that never gets there runs on into the
line after it. -/
namespace IrcBot.Irc

/-- A byte string with one line feed, at its end. -/
def IsLine (l : Bytes) : Prop := ∃ w, l = w ++ [Chr.lf] ∧ Chr.lf ∉ w

/-- The bytes where the lexer looks for a command: after the origin and its space if the
line begins with a colon, after the first byte otherwise. -/
def commandPart : Bytes → Bytes
  | [] => []
  | x :: w => if x = Chr.colon then (w.dropWhile (· ≠ Chr.space)).drop 1 else w

/-- The line has a command, begun by a letter or digit, and a space after it. -/
def hasCommandWord (l : Bytes) : Bool :=
  Chr.space ∈ (commandPart l).dropWhile fun x => !(isDigit x || isLetter x)

namespace State

/-- The states after the command; the only ones where a line feed ends the line. -/
def inParams (q : State) : Bool := q = .params ∨ q = .trailing ∨ q = .cr

/-- The states before the parameters, at a point where a line feed can be read. -/
def beforeParams (q : State) : Bool :=
  q = .servernameNick ∨ q = .user ∨ q = .host ∨ q = .command ∨ q = .commandNum ∨
    q = .commandLetter

theorem next_inParams {q : State} (h : q.inParams = true) {x : Byte} (hx : x ≠ Chr.lf) :
    (q.next x).inParams = true := by
  cases q <;> simp [inParams, next] at h ⊢ <;> split_ifs <;> simp_all

theorem after_inParams {q : State} (h : q.inParams = true) {w : Bytes} (hw : Chr.lf ∉ w) :
    (q.after w).inParams = true := by
  induction w generalizing q with
  | nil => exact h
  | cons x w ih =>
    rw [List.mem_cons, not_or] at hw
    exact ih (next_inParams h (Ne.symm hw.1)) hw.2

theorem next_lf_inParams {q : State} (h : q.inParams = true) : q.next Chr.lf = .none := by
  cases q <;> revert h <;> decide

/-- In the two command states everything but a space leaves the parser there. -/
theorem after_commandWord {q : State} (h : q = .commandNum ∨ q = .commandLetter) {w : Bytes}
    (hw : Chr.lf ∉ w) :
    if Chr.space ∈ w then (q.after w).inParams = true else q.after w = q := by
  induction w with
  | nil => simp [after]
  | cons x w ih =>
    rw [List.mem_cons, not_or] at hw
    by_cases hx : x = Chr.space
    · subst hx
      have hq : q.next Chr.space = .params := by rcases h with rfl | rfl <;> rfl
      rw [if_pos List.mem_cons_self]
      change ((q.next Chr.space).after w).inParams = true
      rw [hq]
      exact after_inParams rfl hw.2
    · have hq : q.next x = q := by rcases h with rfl | rfl <;> simp [next, hx]
      have hmem : Chr.space ∈ x :: w ↔ Chr.space ∈ w := by simp [Ne.symm hx]
      simp only [hmem]
      change if Chr.space ∈ w then ((q.next x).after w).inParams = true else (q.next x).after w = q
      rw [hq]
      exact ih hw.2

/-- In the first command state the first letter or digit begins the command word. -/
theorem after_command {w : Bytes} (hw : Chr.lf ∉ w) :
    if Chr.space ∈ w.dropWhile (fun x => !(isDigit x || isLetter x))
    then (after .command w).inParams = true else (after .command w).beforeParams = true := by
  induction w with
  | nil => simp [after, beforeParams]
  | cons x w ih =>
    rw [List.mem_cons, not_or] at hw
    cases hx : isDigit x || isLetter x with
    | false =>
      have hq : next .command x = .command := by simp_all [next]
      rw [List.dropWhile_cons_of_pos (by simp [hx])]
      change if _ then (after (next .command x) w).inParams = true
        else (after (next .command x) w).beforeParams = true
      rw [hq]
      exact ih hw.2
    | true =>
      have hq : next .command x = .commandNum ∨ next .command x = .commandLetter := by
        cases hd : isDigit x <;> simp_all [next]
      have hsp : Chr.space ≠ x := by rintro rfl; simp +decide at hx
      have h := after_commandWord hq hw.2
      rw [List.dropWhile_cons_of_neg (by simp [hx])]
      simp only [List.mem_cons, hsp, false_or]
      change if _ then (after (next .command x) w).inParams = true
        else (after (next .command x) w).beforeParams = true
      split_ifs at h ⊢
      · exact h
      · rw [h]
        rcases hq with hq | hq <;> rw [hq] <;> rfl

/-- The origin ends at the first space. -/
theorem after_origin {q : State} (h : q = .servernameNick ∨ q = .user ∨ q = .host) {w : Bytes}
    (hw : Chr.lf ∉ w) :
    if Chr.space ∈ ((w.dropWhile (· ≠ Chr.space)).drop 1).dropWhile
        (fun x => !(isDigit x || isLetter x))
    then (q.after w).inParams = true else (q.after w).beforeParams = true := by
  induction w generalizing q with
  | nil => rcases h with rfl | rfl | rfl <;> simp [after, beforeParams]
  | cons x w ih =>
    rw [List.mem_cons, not_or] at hw
    by_cases hx : x = Chr.space
    · subst hx
      have hq : q.next Chr.space = .command := by rcases h with rfl | rfl | rfl <;> rfl
      rw [List.dropWhile_cons_of_neg (by simp), List.drop_one, List.tail_cons]
      change if _ then ((q.next Chr.space).after w).inParams = true
        else ((q.next Chr.space).after w).beforeParams = true
      rw [hq]
      exact after_command hw.2
    · have hq : q.next x = .servernameNick ∨ q.next x = .user ∨ q.next x = .host := by
        rcases h with rfl | rfl | rfl <;> simp only [next, hx, if_false] <;> grind
      rw [List.dropWhile_cons_of_pos (by simpa using hx)]
      exact ih hq hw.2

theorem next_lf_beforeParams {q : State} (h : q.beforeParams = true) :
    (q.next Chr.lf).beforeParams = true := by
  cases q <;> revert h <;> decide

end State

private theorem space_mem_dropWhile_lf (u : Bytes) (f : Byte → Bool) :
    Chr.space ∈ (u ++ [Chr.lf]).dropWhile f ↔ Chr.space ∈ u.dropWhile f := by
  rw [List.dropWhile_append]
  by_cases h : (u.dropWhile f).isEmpty
  · rw [if_pos h, List.isEmpty_iff.mp h]
    by_cases hf : f Chr.lf <;> simp +decide [hf]
  · simp +decide [h]

private theorem drop_dropWhile_lf (u : Bytes) :
    ((u ++ [Chr.lf]).dropWhile (· ≠ Chr.space)).drop 1 = (u.dropWhile (· ≠ Chr.space)).drop 1 ∨
      ((u ++ [Chr.lf]).dropWhile (· ≠ Chr.space)).drop 1 =
        (u.dropWhile (· ≠ Chr.space)).drop 1 ++ [Chr.lf] := by
  rw [List.dropWhile_append]
  by_cases h : (u.dropWhile (· ≠ Chr.space)).isEmpty
  · rw [if_pos h, List.isEmpty_iff.mp h]
    exact Or.inl (by decide)
  · rw [if_neg h]
    refine Or.inr (List.drop_append_of_le_length ?_)
    exact List.length_pos_iff.mpr (by simpa using h)

/-- A line ends in the initial state exactly if it has a command word. -/
theorem State.after_line {l : Bytes} (hl : IsLine l) :
    if hasCommandWord l = true then State.after .none l = .none
    else (State.after .none l).beforeParams = true := by
  obtain ⟨w, rfl, hw⟩ := hl
  cases w with
  | nil => decide
  | cons x w =>
    rw [List.mem_cons, not_or] at hw
    have hafter : State.after .none (x :: w ++ [Chr.lf]) =
        ((State.next .none x).after w).next Chr.lf := by
      simp [State.after]
    have hword : if hasCommandWord (x :: w ++ [Chr.lf]) = true
        then ((State.next .none x).after w).inParams = true
        else ((State.next .none x).after w).beforeParams = true := by
      by_cases hx : x = Chr.colon
      · have h := State.after_origin (Or.inl rfl) hw.2
        simp only [hasCommandWord, List.cons_append, commandPart, decide_eq_true_eq, hx, if_true,
          State.next]
        rcases drop_dropWhile_lf w with hd | hd <;> rw [hd]
        · exact h
        · simpa only [space_mem_dropWhile_lf] using h
      · have h := State.after_command hw.2
        simpa only [hasCommandWord, List.cons_append, commandPart, decide_eq_true_eq, hx, if_false,
          State.next, space_mem_dropWhile_lf] using h
    rw [hafter]
    split_ifs at hword ⊢
    · exact State.next_lf_inParams hword
    · exact State.next_lf_beforeParams hword

/-- A line that every reading before the parameters reads differently from a fresh one. -/
def probe : Bytes := text [':', 's', ' ', 'A', 'B', ' ', 'C', '\n']

theorem isLine_probe : IsLine probe :=
  ⟨text [':', 's', ' ', 'A', 'B', ' ', 'C'], by decide, by decide⟩

theorem Reading.out_probe {r : Reading} (h : r.state.beforeParams = true) :
    (reader.out r probe).map TokenLine.message ≠
      (reader.out .start probe).map TokenLine.message := by
  cases r with
  | start | params | trailing | cr => simp [state, State.beforeParams] at h
  | servernameNick t =>
    have hne : t ++ text [':', 's'] ≠ text ['s'] := fun he => by
      simpa [text] using congrArg List.length he
    simpa +decide [probe, text, step, TokenLine.message, Origin.message, TokenLine.addMiddle,
      TokenLine.addParam] using hne
  | user n t | host n t | userHost n u t =>
    simp +decide [probe, text, step, TokenLine.message, Origin.message, TokenLine.addMiddle,
      TokenLine.addParam]
  | command o t | commandNum o t | commandLetter o t =>
    simp +decide [probe, text, step, TokenLine.message, TokenLine.addMiddle, TokenLine.addParam]

theorem Reading.eq_start {r : Reading} (h : r.state = .none) : r = .start := by
  cases r <;> simp_all [Reading.state]

namespace IRCParser

/-- What follows a line is read as by a fresh parser exactly if the line has a command word. -/
theorem messagesOf_line_append_iff {l : Bytes} (hl : IsLine l) :
    (∀ later : List Bytes, (∀ k ∈ later, IsLine k) →
        messagesOf (l ++ later.flatten) = messagesOf l ++ messagesOf later.flatten) ↔
      hasCommandWord l = true := by
  have hend := State.after_line hl
  have hstate : (reader.run .start l).state = State.after .none l := (Reading.buffer_run .start l).2
  rw [← hstate] at hend
  simp only [messagesOf_eq, Machine.Mealy.out_append, List.map_append, List.append_cancel_left_eq]
  constructor
  · intro h
    by_contra hword
    rw [if_neg hword] at hend
    exact Reading.out_probe hend (by simpa using h [probe] (by simpa using isLine_probe))
  · intro hword later _
    rw [if_pos hword] at hend
    rw [Reading.eq_start hend]

theorem messagesOf_lines {ls : List Bytes} (hls : ∀ l ∈ ls, IsLine l)
    (hword : ∀ l ∈ ls.dropLast, hasCommandWord l = true) :
    messagesOf ls.flatten = ls.flatMap messagesOf := by
  induction ls with
  | nil => rfl
  | cons l ls ih =>
    cases ls with
    | nil => simp
    | cons k ls =>
      have hl := (messagesOf_line_append_iff (hls l (by simp))).mpr (hword l (by simp))
      have hrest := ih (fun j hj => hls j (by simp [hj])) (fun j hj => hword j (by simp [hj]))
      rw [List.flatten_cons, hl _ (fun j hj => hls j (by simp [hj])), hrest]
      rfl

/-- Line isolation: lines with a command word, the last one apart, are read one by one,
and the command word is what a line needs to leave every later line alone. -/
theorem line_isolation {ls : List Bytes} (hls : ∀ l ∈ ls, IsLine l) :
    ((∀ l ∈ ls.dropLast, hasCommandWord l = true) →
        messagesOf ls.flatten = ls.flatMap messagesOf) ∧
      ∀ l ∈ ls,
        ((∀ later : List Bytes, (∀ k ∈ later, IsLine k) →
            messagesOf (l ++ later.flatten) = messagesOf l ++ messagesOf later.flatten) ↔
          hasCommandWord l = true) := by
  constructor
  · exact messagesOf_lines hls
  · intro l hl
    exact messagesOf_line_append_iff (hls l hl)

/-- `"PING x\n"` in front of `":s AB C\n"`. -/
theorem line_isolation_ping :
    messagesOf [text ['P', 'I', 'N', 'G', ' ', 'x', '\n'], probe].flatten =
      [text ['P', 'I', 'N', 'G', ' ', 'x', '\n'], probe].flatMap messagesOf := by
  have hlines : ∀ l ∈ [text ['P', 'I', 'N', 'G', ' ', 'x', '\n'], probe], IsLine l := by
    intro l hl
    rcases List.mem_cons.mp hl with rfl | hl
    · exact ⟨text ['P', 'I', 'N', 'G', ' ', 'x'], by decide, by decide⟩
    · rw [List.mem_singleton.mp hl]
      exact isLine_probe
  exact (line_isolation hlines).1 (by decide)

/-- An empty line before `"PING x\n"` becomes the first byte of its command. -/
theorem line_interference :
    ¬ ∀ ls : List Bytes, (∀ l ∈ ls, IsLine l) → messagesOf ls.flatten = ls.flatMap messagesOf := by
  intro h
  have hlines : ∀ l ∈ [text ['\n'], text ['P', 'I', 'N', 'G', ' ', 'x', '\n']], IsLine l := by
    intro l hl
    rcases List.mem_cons.mp hl with rfl | hl
    · exact ⟨[], by decide, by decide⟩
    · rw [List.mem_singleton.mp hl]
      exact ⟨text ['P', 'I', 'N', 'G', ' ', 'x'], by decide, by decide⟩
  have h := h _ hlines
  revert h
  decide

end IRCParser
end IrcBot.Irc

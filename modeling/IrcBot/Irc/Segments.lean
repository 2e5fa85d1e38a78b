import IrcBot.Irc.Reading

/-! What the reader does on each part of a line: origin, command, middle parameters,
trailing parameter and line end. -/
namespace IrcBot.Irc

/-- A byte string that ends neither a server name nor a nick. -/
def IsName (w : Bytes) : Prop := ∀ x ∈ w, x ≠ Chr.space ∧ x ≠ Chr.bang ∧ x ≠ Chr.atSign

/-- A byte string that does not end a user. -/
def IsUser (w : Bytes) : Prop := ∀ x ∈ w, x ≠ Chr.space ∧ x ≠ Chr.atSign

/-- A byte string that does not end a host. -/
def IsHost (w : Bytes) : Prop := ∀ x ∈ w, x ≠ Chr.space

/-- A nonempty byte string of letters only or of digits only. -/
def IsWord (w : Bytes) : Prop :=
  w ≠ [] ∧ ((∀ x ∈ w, isLetter x = true) ∨ ∀ x ∈ w, isDigit x = true)

/-- A byte string that stays one parameter in front of the trailing one. -/
def IsMiddle (w : Bytes) : Prop :=
  ∀ x ∈ w, x ≠ Chr.colon ∧ x ≠ Chr.space ∧ x ≠ Chr.nul ∧ x ≠ Chr.cr ∧ x ≠ Chr.lf

/-- A byte string that stays one trailing parameter. -/
def IsTrailing (w : Bytes) : Prop := ∀ x ∈ w, x ≠ Chr.nul ∧ x ≠ Chr.cr ∧ x ≠ Chr.lf

section
variable (w : Bytes)

instance : Decidable (IsName w) := inferInstanceAs (Decidable (∀ x ∈ w, _))
instance : Decidable (IsUser w) := inferInstanceAs (Decidable (∀ x ∈ w, _))
instance : Decidable (IsHost w) := inferInstanceAs (Decidable (∀ x ∈ w, _))
instance : Decidable (IsWord w) := inferInstanceAs (Decidable (_ ∧ _))
instance : Decidable (IsMiddle w) := inferInstanceAs (Decidable (∀ x ∈ w, _))
instance : Decidable (IsTrailing w) := inferInstanceAs (Decidable (∀ x ∈ w, _))

end

namespace Origin

/-- The origin with its colon and one space, as it stands in a line. -/
def text : Origin → Bytes
  | .absent => []
  | .server s => [Chr.colon] ++ s ++ [Chr.space]
  | .user n u => [Chr.colon] ++ n ++ [Chr.bang] ++ u ++ [Chr.space]
  | .host n h => [Chr.colon] ++ n ++ [Chr.atSign] ++ h ++ [Chr.space]
  | .userHost n u h =>
    [Chr.colon] ++ n ++ [Chr.bang] ++ u ++ [Chr.atSign] ++ h ++ [Chr.space]

/-- No part of the origin contains a byte that ends it. -/
def Clean : Origin → Prop
  | .absent => True
  | .server s => IsName s
  | .user n u => IsName n ∧ IsUser u
  | .host n h => IsName n ∧ IsHost h
  | .userHost n u h => IsName n ∧ IsUser u ∧ IsHost h

/-- The commands the lexer accepts after this origin. Without an origin the first byte
has already been taken in the initial state, whatever it is. -/
def Accepts (c : Bytes) : Origin → Prop
  | .absent => ∃ x w, c = x :: w ∧ x ≠ Chr.colon ∧ IsWord w
  | _ => IsWord c

end Origin

namespace Reading

/-- The command `c` has been read. -/
def HasCommand (o : Origin) (c : Bytes) (r : Reading) : Prop :=
  r = .commandNum o c ∨ r = .commandLetter o c

private theorem collect_name {w : Bytes} (hw : IsName w) :
    reader.Silent (.servernameNick []) w (.servernameNick w) :=
  Machine.Mealy.Silent.collect _ (fun t x hx => by simp [step, hw x hx]) []

private theorem collect_user (n : Bytes) {w : Bytes} (hw : IsUser w) :
    reader.Silent (.user n []) w (.user n w) :=
  Machine.Mealy.Silent.collect _ (fun t x hx => by simp [step, hw x hx]) []

private theorem collect_host (n : Bytes) {w : Bytes} (hw : IsHost w) :
    reader.Silent (.host n []) w (.host n w) :=
  Machine.Mealy.Silent.collect _ (fun t x hx => by simp [step, hw x hx]) []

private theorem collect_userHost (n u : Bytes) {w : Bytes} (hw : IsHost w) :
    reader.Silent (.userHost n u []) w (.userHost n u w) :=
  Machine.Mealy.Silent.collect _ (fun t x hx => by simp [step, hw x hx]) []

private theorem nick_bang {n : Bytes} (hn : IsName n) :
    reader.Silent .start ([Chr.colon] ++ n ++ [Chr.bang]) (.user n []) :=
  ((Machine.Mealy.Silent.one (by simp [step])).append (collect_name hn)).append
    (.one (by simp +decide [step]))

private theorem nick_at {n : Bytes} (hn : IsName n) :
    reader.Silent .start ([Chr.colon] ++ n ++ [Chr.atSign]) (.host n []) :=
  ((Machine.Mealy.Silent.one (by simp [step])).append (collect_name hn)).append
    (.one (by simp +decide [step]))

/-- A clean origin is read up to the start of the command. -/
theorem silent_origin {o : Origin} (ho : o.Clean) (hne : o ≠ .absent) :
    reader.Silent .start o.text (.command o []) := by
  cases o with
  | absent => exact absurd rfl hne
  | server s =>
    exact ((Machine.Mealy.Silent.one (by simp [step])).append (collect_name ho)).append
      (.one (by simp [step]))
  | user n u =>
    exact ((nick_bang ho.1).append (collect_user n ho.2)).append (.one (by simp [step]))
  | host n h =>
    exact ((nick_at ho.1).append (collect_host n ho.2)).append (.one (by simp [step]))
  | userHost n u h =>
    exact ((((nick_bang ho.1).append (collect_user n ho.2.1)).append
      (.one (by simp +decide [step]))).append (collect_userHost n u ho.2.2)).append
      (.one (by simp [step]))

/-- Spaces in front of the command are skipped. -/
theorem silent_command_spaces (o : Origin) (t : Bytes) (n : ℕ) :
    reader.Silent (.command o t) (List.replicate n Chr.space) (.command o t) :=
  .stay fun x hx => by
    rw [List.eq_of_mem_replicate hx]
    simp +decide [step]

/-- A word of letters or of digits is read as one command. -/
theorem silent_word (o : Origin) (t : Bytes) {w : Bytes} (hw : IsWord w) :
    ∃ r, reader.Silent (.command o t) w r ∧ HasCommand o (t ++ w) r := by
  obtain ⟨hne, hall⟩ := hw
  obtain ⟨x, w, rfl⟩ := List.exists_cons_of_ne_nil hne
  have happ : t ++ x :: w = (t ++ [x]) ++ w := by simp
  rcases hall with hl | hd
  · have hx := hl x (by simp)
    have hxd : isDigit x = false := by
      by_contra h
      rw [Bool.not_eq_false] at h
      rw [not_isLetter_of_isDigit h] at hx
      exact Bool.noConfusion hx
    have hrest := Machine.Mealy.Silent.collect (M := reader) (w := w) (.commandLetter o ·)
      (fun t y hy => by simp [step, hl y (by simp [hy])]) (t ++ [x])
    exact ⟨_, .cons (by simp [step, hx, hxd]) hrest, Or.inr (by rw [happ])⟩
  · have hx := hd x (by simp)
    have hrest := Machine.Mealy.Silent.collect (M := reader) (w := w) (.commandNum o ·)
      (fun t y hy => by simp [step, hd y (by simp [hy])]) (t ++ [x])
    exact ⟨_, .cons (by simp [step, hx]) hrest, Or.inl (by rw [happ])⟩

/-- Origin, further spaces and command. -/
theorem silent_head {o : Origin} {c : Bytes} (ho : o.Clean) (hc : o.Accepts c) (n : ℕ)
    (hn : o = .absent → n = 0) :
    ∃ r, reader.Silent .start (o.text ++ List.replicate n Chr.space ++ c) r ∧
      HasCommand o c r := by
  by_cases hne : o = .absent
  · subst hne
    rw [hn rfl]
    obtain ⟨x, w, rfl, hx, hw⟩ := hc
    obtain ⟨r, hr, hcmd⟩ := silent_word .absent [x] hw
    exact ⟨r, .cons (by simp [step, hx]) hr, hcmd⟩
  · have hw : IsWord c := by cases o <;> first | exact absurd rfl hne | exact hc
    obtain ⟨r, hr, hcmd⟩ := silent_word o [] hw
    exact ⟨r, ((silent_origin ho hne).append (silent_command_spaces o [] n)).append hr, hcmd⟩

theorem HasCommand.step_space {o : Origin} {c : Bytes} {r : Reading} (h : HasCommand o c r) :
    r.step Chr.space = (.params ⟨o, c, []⟩ [], []) := by
  rcases h with rfl | rfl <;> simp +decide [step]

/-- After the command a space is read like a space between parameters. -/
theorem HasCommand.run_space {o : Origin} {c : Bytes} {r : Reading} (h : HasCommand o c r)
    (w : Bytes) :
    reader.run r (Chr.space :: w) = reader.run (.params ⟨o, c, []⟩ []) (Chr.space :: w) ∧
      reader.out r (Chr.space :: w) = reader.out (.params ⟨o, c, []⟩ []) (Chr.space :: w) := by
  have hp : (params ⟨o, c, []⟩ []).step Chr.space = (params ⟨o, c, []⟩ [], []) := by
    simp +decide [step, TokenLine.addMiddle]
  simp only [Machine.Mealy.run_cons, Machine.Mealy.out_cons, reader_step, h.step_space, hp, and_self]

/-- Spaces between parameters finish the one before and are skipped. -/
theorem silent_spaces (l : TokenLine) (t : Bytes) (n : ℕ) :
    reader.Silent (.params l t) (List.replicate (n + 1) Chr.space) (.params (l.addMiddle t) []) := by
  rw [List.replicate_succ]
  refine .cons (by simp +decide [step]) (.stay fun x hx => ?_)
  rw [List.eq_of_mem_replicate hx]
  simp +decide [step, TokenLine.addMiddle]

theorem silent_middle (l : TokenLine) {w : Bytes} (hw : IsMiddle w) :
    reader.Silent (.params l []) w (.params l w) :=
  Machine.Mealy.Silent.collect _ (fun t x hx => by simp [step, hw x hx]) []

theorem silent_trailing (l : TokenLine) (t : Bytes) {w : Bytes} (hw : IsTrailing w) :
    reader.Silent (.trailing l t) w (.trailing l (t ++ w)) :=
  Machine.Mealy.Silent.collect _ (fun t x hx => by simp [step, hw x hx]) t

/-- CR LF, or a bare LF. -/
def crlf (withCR : Bool) : Bytes := if withCR then [Chr.cr, Chr.lf] else [Chr.lf]

theorem run_params_crlf (l : TokenLine) (t : Bytes) (b : Bool) :
    reader.run (.params l t) (crlf b) = .start ∧
      reader.out (.params l t) (crlf b) = [l.addMiddle t] := by
  cases b <;> simp +decide [crlf, step]

theorem run_trailing_crlf (l : TokenLine) (t : Bytes) (b : Bool) :
    reader.run (.trailing l t) (crlf b) = .start ∧
      reader.out (.trailing l t) (crlf b) = [l.addParam t] := by
  cases b <;> simp +decide [crlf, step]

end Reading
end IrcBot.Irc

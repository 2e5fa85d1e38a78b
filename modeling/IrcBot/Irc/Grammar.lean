import IrcBot.Irc.Segments

/-! The message grammar of the protocol, for messages with parameters: a line is a
structure whose fields carry the grammar's conditions, so that only well-formed lines
exist. The lexer takes every colon after the command for the start of the trailing
parameter; lines without a colon inside a middle parameter are read as the grammar
says. -/
namespace IrcBot.Irc

/-- Bytes of a server name, nick, user or host in the grammar. -/
def IsPart (w : Bytes) : Prop :=
  w ≠ [] ∧ ∀ x ∈ w, x ≠ Chr.space ∧ x ≠ Chr.bang ∧ x ≠ Chr.atSign ∧ x ≠ Chr.nul ∧
    x ≠ Chr.cr ∧ x ≠ Chr.lf

def Origin.WellFormed : Origin → Prop
  | .absent => True
  | .server s => IsPart s
  | .user n u => IsPart n ∧ IsPart u
  | .host n h => IsPart n ∧ IsPart h
  | .userHost n u h => IsPart n ∧ IsPart u ∧ IsPart h

/-- At least two letters, or exactly three digits. -/
def IsCommand (c : Bytes) : Prop :=
  (2 ≤ c.length ∧ ∀ x ∈ c, isLetter x = true) ∨ (c.length = 3 ∧ ∀ x ∈ c, isDigit x = true)

/-- A middle parameter of the grammar: a colon is excluded as the first byte only. -/
structure Middle where
  /-- Number of spaces in front, less one. -/
  gap : ℕ
  value : Bytes
  nonempty : value ≠ []
  head_ne_colon : value.head nonempty ≠ Chr.colon
  bytes : ∀ x ∈ value, x ≠ Chr.space ∧ x ≠ Chr.nul ∧ x ≠ Chr.cr ∧ x ≠ Chr.lf

structure Trailing where
  /-- Number of spaces in front, less one. -/
  gap : ℕ
  value : Bytes
  bytes : IsTrailing value

/-- A line of the grammar with at least one parameter. -/
structure GrammarLine where
  origin : Origin
  /-- Number of spaces between origin and command, less one; 0 without an origin. -/
  gap : ℕ
  command : Bytes
  middles : List Middle
  trailing : Option Trailing
  withCR : Bool
  origin_wf : origin.WellFormed
  gap_absent : origin = .absent → gap = 0
  command_wf : IsCommand command
  has_params : middles ≠ [] ∨ trailing.isSome = true

def spaces (gap : ℕ) : Bytes := List.replicate (gap + 1) Chr.space

def Middle.render (m : Middle) : Bytes := spaces m.gap ++ m.value

def Trailing.render (t : Trailing) : Bytes := spaces t.gap ++ [Chr.colon] ++ t.value

/-- The trailing parameter, if there is one, as it stands in the line. -/
def renderTrailing : Option Trailing → Bytes
  | none => []
  | some t => t.render

namespace GrammarLine

def render (l : GrammarLine) : Bytes :=
  l.origin.text ++ List.replicate l.gap Chr.space ++ l.command ++
    l.middles.flatMap Middle.render ++ renderTrailing l.trailing ++ Reading.crlf l.withCR

/-- The parameters of the line: the middles, then the trailing one. -/
def params (l : GrammarLine) : List Bytes :=
  l.middles.map Middle.value ++ (l.trailing.map Trailing.value).toList

/-- The message the grammar gives to the line. -/
def message (l : GrammarLine) : IRCMessage :=
  (⟨l.origin, l.command, l.params⟩ : TokenLine).message

end GrammarLine

theorem Origin.WellFormed.clean {o : Origin} (h : o.WellFormed) : o.Clean := by
  have hname : ∀ w, IsPart w → IsName w := fun w hw x hx =>
    ⟨(hw.2 x hx).1, (hw.2 x hx).2.1, (hw.2 x hx).2.2.1⟩
  have huser : ∀ w, IsPart w → IsUser w := fun w hw x hx => ⟨(hw.2 x hx).1, (hw.2 x hx).2.2.1⟩
  have hhost : ∀ w, IsPart w → IsHost w := fun w hw x hx => (hw.2 x hx).1
  cases o with
  | absent => trivial
  | server s => exact hname s h
  | user n u => exact ⟨hname n h.1, huser u h.2⟩
  | host n a => exact ⟨hname n h.1, hhost a h.2⟩
  | userHost n u a => exact ⟨hname n h.1, huser u h.2.1, hhost a h.2.2⟩

/-- Every command of the grammar is accepted with and without an origin. -/
theorem IsCommand.accepts {c : Bytes} (h : IsCommand c) (o : Origin) : o.Accepts c := by
  have hword : IsWord c := by
    rcases h with ⟨hlen, hall⟩ | ⟨hlen, hall⟩
    · exact ⟨by rintro rfl; simp at hlen, Or.inl hall⟩
    · exact ⟨by rintro rfl; simp at hlen, Or.inr hall⟩
  cases o with
  | server | user | host | userHost => exact hword
  | absent =>
    cases c with
    | nil => exact absurd rfl hword.1
    | cons x w =>
      refine ⟨x, w, rfl, ?_, ?_⟩
      · rintro rfl
        rcases h with ⟨-, hall⟩ | ⟨-, hall⟩ <;> exact absurd (hall _ List.mem_cons_self) (by decide)
      · rcases h with ⟨hlen, hall⟩ | ⟨hlen, hall⟩
        · exact ⟨by rintro rfl; simp at hlen, Or.inl fun y hy => hall y (by simp [hy])⟩
        · exact ⟨by rintro rfl; simp at hlen, Or.inr fun y hy => hall y (by simp [hy])⟩

theorem Middle.isMiddle {m : Middle} (h : Chr.colon ∉ m.value) : IsMiddle m.value := fun x hx =>
  ⟨fun hc => h (hc ▸ hx), m.bytes x hx⟩

namespace Reading

/-- Middle parameters without colons: the last one stays in the buffer. -/
theorem silent_middles (l : TokenLine) (t : Bytes) (ms : List Middle)
    (h : ∀ m ∈ ms, Chr.colon ∉ m.value) :
    ∃ l' t', reader.Silent (.params l t) (ms.flatMap Middle.render) (.params l' t') ∧
      l'.addMiddle t' =
        { l.addMiddle t with params := (l.addMiddle t).params ++ ms.map Middle.value } := by
  induction ms generalizing l t with
  | nil => exact ⟨l, t, .nil, by simp⟩
  | cons m ms ih =>
    have hm := silent_middle (l.addMiddle t) (Middle.isMiddle (h m (by simp)))
    obtain ⟨l', t', hsilent, hparams⟩ :=
      ih (l.addMiddle t) m.value fun k hk => h k (by simp [hk])
    refine ⟨l', t', ((silent_spaces l t m.gap).append hm).append hsilent, ?_⟩
    rw [hparams]
    simp [TokenLine.addMiddle, TokenLine.addParam, m.nonempty]

/-- A colon inside a middle parameter: it vanishes, and the rest of the line up to its
end goes into the same parameter. -/
theorem out_colon (l : TokenLine) (t u z : Bytes) (gap : ℕ) (b : Bool) (hu : IsMiddle u)
    (hz : IsTrailing z) :
    reader.out (.params l t) (spaces gap ++ u ++ [Chr.colon] ++ z ++ crlf b) =
      [(l.addMiddle t).addParam (u ++ z)] := by
  have hcolon : reader.Silent (.params (l.addMiddle t) u) [Chr.colon] (.trailing (l.addMiddle t) u) :=
    .one (by simp [step])
  have h := (((silent_spaces l t gap).append (silent_middle (l.addMiddle t) hu)).append
    hcolon).append (silent_trailing (l.addMiddle t) u hz)
  rw [spaces, h.out_append]
  exact (run_trailing_crlf _ _ b).2

end Reading

namespace GrammarLine

/-- Everything after the command. -/
def body (l : GrammarLine) : Bytes :=
  l.middles.flatMap Middle.render ++ renderTrailing l.trailing ++ Reading.crlf l.withCR

theorem body_eq_space_cons (l : GrammarLine) : ∃ w, l.body = Chr.space :: w := by
  unfold body
  cases hm : l.middles with
  | cons m ms => exact ⟨_, rfl⟩
  | nil =>
    cases ht : l.trailing with
    | some t => exact ⟨_, rfl⟩
    | none =>
      have := l.has_params
      simp [hm, ht] at this

/-- Head and body of a line are read one after the other. -/
theorem messagesOf_render (l : GrammarLine) :
    IRCParser.messagesOf l.render =
      (reader.out (.params ⟨l.origin, l.command, []⟩ []) l.body).map TokenLine.message := by
  obtain ⟨r, hr, hcmd⟩ := Reading.silent_head l.origin_wf.clean (l.command_wf.accepts l.origin)
    l.gap l.gap_absent
  obtain ⟨w, hw⟩ := l.body_eq_space_cons
  have hsplit : l.render = l.origin.text ++ List.replicate l.gap Chr.space ++ l.command ++ l.body := by
    simp [render, body]
  rw [IRCParser.messagesOf_eq, hsplit, hr.out_append, hw, (hcmd.run_space w).2]

theorem isTrailing_rest (ms : List Middle) (t : Option Trailing) :
    IsTrailing (ms.flatMap Middle.render ++ renderTrailing t) := by
  have hspaces : ∀ gap x, x ∈ spaces gap → x ≠ Chr.nul ∧ x ≠ Chr.cr ∧ x ≠ Chr.lf := by
    intro gap x hx
    rw [List.eq_of_mem_replicate hx]
    decide
  intro x hx
  rcases List.mem_append.mp hx with hx | hx
  · obtain ⟨m, -, hx⟩ := List.mem_flatMap.mp hx
    rcases List.mem_append.mp hx with hx | hx
    · exact hspaces m.gap x hx
    · exact (m.bytes x hx).2
  · cases t with
    | none => simp [renderTrailing] at hx
    | some t =>
      rcases List.mem_append.mp hx with hx | hx
      · rcases List.mem_append.mp hx with hx | hx
        · exact hspaces t.gap x hx
        · rw [List.mem_singleton.mp hx]
          decide
      · exact t.bytes x hx

/-- Lines without a colon in a middle parameter. -/
theorem messagesOf_render_of_no_colon (l : GrammarLine)
    (h : ∀ m ∈ l.middles, Chr.colon ∉ m.value) :
    IRCParser.messagesOf l.render = [l.message] := by
  obtain ⟨l', t', hmid, hparams⟩ :=
    Reading.silent_middles ⟨l.origin, l.command, []⟩ [] l.middles h
  rw [l.messagesOf_render, body, List.append_assoc, hmid.out_append]
  cases ht : l.trailing with
  | none =>
    rw [renderTrailing, List.nil_append, (Reading.run_params_crlf l' t' l.withCR).2, hparams]
    simp [message, params, ht, TokenLine.addMiddle]
  | some t =>
    have hout := Reading.out_colon l' t' [] t.value t.gap l.withCR (by simp [IsMiddle]) t.bytes
    rw [List.append_nil, List.nil_append] at hout
    rw [renderTrailing, Trailing.render, hout, hparams]
    simp [message, params, ht, TokenLine.addMiddle, TokenLine.addParam]

/-- The first colon in a middle parameter. -/
private theorem exists_first_colon {ms : List Middle} (h : ¬ ∀ m ∈ ms, Chr.colon ∉ m.value) :
    ∃ pre m post u v, ms = pre ++ m :: post ∧ (∀ k ∈ pre, Chr.colon ∉ k.value) ∧
      m.value = u ++ Chr.colon :: v ∧ Chr.colon ∉ u := by
  induction ms with
  | nil => simp at h
  | cons m ms ih =>
    by_cases hm : Chr.colon ∈ m.value
    · obtain ⟨u, v, huv, hu⟩ := List.eq_append_cons_of_mem hm
      exact ⟨[], m, ms, u, v, rfl, by simp, huv, hu⟩
    · obtain ⟨pre, k, post, u, v, rfl, hpre, hk, hu⟩ := ih (by simpa [hm] using h)
      exact ⟨m :: pre, k, post, u, v, rfl, by simpa [hm] using hpre, hk, hu⟩

/-- A colon in a middle parameter never survives. -/
theorem messagesOf_render_of_colon (l : GrammarLine)
    (h : ¬ ∀ m ∈ l.middles, Chr.colon ∉ m.value) :
    IRCParser.messagesOf l.render ≠ [l.message] := by
  obtain ⟨pre, m, post, u, v, hms, hpre, hm, hu⟩ := exists_first_colon h
  obtain ⟨l', t', hmid, hparams⟩ :=
    Reading.silent_middles ⟨l.origin, l.command, []⟩ [] pre hpre
  set z := v ++ (post.flatMap Middle.render ++ renderTrailing l.trailing) with hz
  have hu' : IsMiddle u := fun x hx =>
    ⟨fun hc => hu (hc ▸ hx), m.bytes x (by simp [hm, hx])⟩
  have hz' : IsTrailing z := fun x hx => by
    rcases List.mem_append.mp hx with hx | hx
    · exact (m.bytes x (by simp [hm, hx])).2
    · exact isTrailing_rest post l.trailing x hx
  have hbody : l.body = pre.flatMap Middle.render ++
      (spaces m.gap ++ u ++ [Chr.colon] ++ z ++ Reading.crlf l.withCR) := by
    simp [body, hms, Middle.render, hm, hz]
  rw [l.messagesOf_render, hbody, hmid.out_append, Reading.out_colon _ _ _ _ _ _ hu' hz', hparams]
  intro heq
  -- the message read has one parameter from this middle on, made of `u` and the rest
  have hps : pre.map Middle.value ++ [u ++ z] =
      pre.map Middle.value ++ (m.value :: (post.map Middle.value ++
        (l.trailing.map Trailing.value).toList)) := by
    have := congrArg IRCMessage.params (List.head_eq_of_cons_eq heq)
    simpa [message, params, hms, TokenLine.message, TokenLine.addMiddle, TokenLine.addParam]
      using this
  obtain ⟨hval, hrest⟩ := List.cons_eq_cons.mp (List.append_cancel_left hps)
  obtain ⟨hpost, htr⟩ := List.append_eq_nil_iff.mp hrest.symm
  have hzv : z = v := by
    have hp : post = [] := List.map_eq_nil_iff.mp hpost
    cases ht : l.trailing with
    | none => simp [hz, hp, ht, renderTrailing]
    | some t => simp [ht] at htr
  rw [hm, hzv] at hval
  simpa using congrArg List.length (List.append_cancel_left hval)

/-- Completeness for the grammar: the parser reads a line as the grammar does exactly if no
middle parameter has a colon in it. -/
theorem messagesOf_render_iff (l : GrammarLine) :
    IRCParser.messagesOf l.render = [l.message] ↔ ∀ m ∈ l.middles, Chr.colon ∉ m.value := by
  constructor
  · intro h
    by_contra hc
    exact l.messagesOf_render_of_colon hc h
  · exact l.messagesOf_render_of_no_colon

/-- `"MODE a:b\n"` is read with the parameter `ab`. -/
def modeLine : GrammarLine where
  origin := .absent
  gap := 0
  command := text ['M', 'O', 'D', 'E']
  middles := [⟨0, text ['a', ':', 'b'], by decide, by decide, by decide +kernel⟩]
  trailing := none
  withCR := false
  origin_wf := trivial
  gap_absent := fun _ => rfl
  command_wf := Or.inl (by decide +kernel)
  has_params := Or.inl (by simp)

theorem messagesOf_render_modeLine :
    ¬ ∀ l : GrammarLine, IRCParser.messagesOf l.render = [l.message] := by
  intro h
  have h := h modeLine
  revert h
  decide

end GrammarLine
end IrcBot.Irc

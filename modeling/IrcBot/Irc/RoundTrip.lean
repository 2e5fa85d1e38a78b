import IrcBot.Irc.Emitted

/-! The messages that `toString` and the parser carry around unchanged. A canonical
message is written as one line whose parts the lexer does not cut elsewhere; a message
that is read back from its own text has the shape of an emitted line. -/
namespace IrcBot.Irc
namespace IRCMessage

def HasServername (m : IRCMessage) : Prop :=
  m.servername ≠ [] ∧ IsName m.servername ∧ m.nick = [] ∧ m.user = [] ∧ m.host = []

def HasNick (m : IRCMessage) : Prop :=
  m.servername = [] ∧ m.nick ≠ [] ∧ IsName m.nick ∧ (m.user ≠ [] ∨ m.host ≠ []) ∧
    IsUser m.user ∧ IsHost m.host

def HasNoOrigin (m : IRCMessage) : Prop :=
  m.servername = [] ∧ m.nick = [] ∧ m.user = [] ∧ m.host = []

section
variable (m : IRCMessage)

instance : Decidable m.HasServername := inferInstanceAs (Decidable (_ ∧ _))
instance : Decidable m.HasNick := inferInstanceAs (Decidable (_ ∧ _))
instance : Decidable m.HasNoOrigin := inferInstanceAs (Decidable (_ ∧ _))

end

/-- Messages whose fields stand in a line without being cut. -/
structure Canonical (m : IRCMessage) : Prop where
  origin : m.HasServername ∨ m.HasNick ∨ m.HasNoOrigin
  command_origin : m.HasServername ∨ m.HasNick → IsWord m.command
  command_absent : m.HasNoOrigin → m.command.head? ≠ some Chr.colon ∧ IsWord m.command.tail
  params : m.params ≠ []
  middles : ∀ p ∈ m.params.dropLast, p ≠ [] ∧ IsMiddle p
  last : ∀ p ∈ m.params.getLast?, IsTrailing p

instance (m : IRCMessage) : Decidable m.Canonical :=
  decidable_of_iff
    ((m.HasServername ∨ m.HasNick ∨ m.HasNoOrigin) ∧
      (m.HasServername ∨ m.HasNick → IsWord m.command) ∧
      (m.HasNoOrigin → m.command.head? ≠ some Chr.colon ∧ IsWord m.command.tail) ∧
      m.params ≠ [] ∧ (∀ p ∈ m.params.dropLast, p ≠ [] ∧ IsMiddle p) ∧
      ∀ p ∈ m.params.getLast?, IsTrailing p)
    ⟨fun ⟨h1, h2, h3, h4, h5, h6⟩ => ⟨h1, h2, h3, h4, h5, h6⟩,
      fun ⟨h1, h2, h3, h4, h5, h6⟩ => ⟨h1, h2, h3, h4, h5, h6⟩⟩

/-- The origin as the text of a message shows it. -/
def origin (m : IRCMessage) : Origin :=
  if m.servername ≠ [] then .server m.servername
  else if m.nick = [] then .absent
  else if m.user = [] then
    if m.host = [] then .server m.nick else .host m.nick m.host
  else if m.host = [] then .user m.nick m.user
  else .userHost m.nick m.user m.host

theorem originString_eq (m : IRCMessage) : m.originString = m.origin.text := by
  by_cases hs : m.servername = [] <;> by_cases hn : m.nick = [] <;> by_cases hu : m.user = [] <;>
    by_cases hh : m.host = [] <;>
    simp [originString, origin, Origin.text, hs, hn, hu, hh]

/-- A message whose fields are those of its origin, its command and its parameters. -/
theorem eq_message {m : IRCMessage} {o : Origin} (h : o.message = { m with command := [], params := [] }) :
    (⟨o, m.command, m.params⟩ : TokenLine).message = m := by
  simp [TokenLine.message, h]

theorem accepts_absent_iff {c : Bytes} :
    Origin.absent.Accepts c ↔ c.head? ≠ some Chr.colon ∧ IsWord c.tail := by
  constructor
  · rintro ⟨x, w, rfl, hx, hw⟩
    exact ⟨by simpa using hx, hw⟩
  · rintro ⟨hx, hw⟩
    cases c with
    | nil => exact absurd rfl hw.1
    | cons x w => exact ⟨x, w, rfl, by simpa using hx, hw⟩

/-- The origin of a canonical message is clean and gives back its fields. -/
theorem Canonical.origin_clean {m : IRCMessage} (h : m.Canonical) :
    m.origin.Clean ∧ m.origin.message = { m with command := [], params := [] } ∧
      m.origin.Accepts m.command := by
  obtain ⟨hs, hname, hn, hu, hh⟩ | ⟨hs, hn, hname, hne, hu, hh⟩ | ⟨hs, hn, hu, hh⟩ := h.origin
  · have hc := h.command_origin (Or.inl ⟨hs, hname, hn, hu, hh⟩)
    simp [IRCMessage.origin, hs, hn, hu, hh, Origin.Clean, hname, Origin.message, Origin.Accepts, hc]
  · have hc := h.command_origin (Or.inr ⟨hs, hn, hname, hne, hu, hh⟩)
    by_cases hu0 : m.user = [] <;> by_cases hh0 : m.host = []
    · simp [hu0, hh0] at hne
    all_goals
      simp [IRCMessage.origin, hs, hn, hu0, hh0, Origin.Clean, hname, hu, hh, Origin.message,
        Origin.Accepts, hc]
  · have hc := accepts_absent_iff.mpr (h.command_absent ⟨hs, hn, hu, hh⟩)
    simp [IRCMessage.origin, hs, hn, hu, hh, Origin.Clean, Origin.message, hc]

end IRCMessage

namespace Reading

/-- The parameters as `toString` writes them, with the line end. -/
theorem run_paramsString (l : TokenLine) (t : Bytes) (ps : List Bytes) (hne : ps ≠ [])
    (hmid : ∀ p ∈ ps.dropLast, p ≠ [] ∧ IsMiddle p) (hlast : ∀ p ∈ ps.getLast?, IsTrailing p) :
    reader.run (.params l t) (IRCMessage.paramsString ps ++ crlf true) = .start ∧
      reader.out (.params l t) (IRCMessage.paramsString ps ++ crlf true) =
        [{ l.addMiddle t with params := (l.addMiddle t).params ++ ps }] := by
  have hspace : reader.Silent (.params l t) [Chr.space] (.params (l.addMiddle t) []) :=
    silent_spaces l t 0
  fun_induction IRCMessage.paramsString ps generalizing l t with
  | case1 => exact absurd rfl hne
  | case2 last =>
    have hcolon : reader.Silent (.params (l.addMiddle t) []) [Chr.colon]
        (.trailing (l.addMiddle t) []) := .one (by simp [step])
    have h : reader.Silent (.params l t) ([Chr.space, Chr.colon] ++ last)
        (.trailing (l.addMiddle t) last) :=
      (hspace.append hcolon).append (silent_trailing (l.addMiddle t) [] (hlast last rfl))
    rw [h.run_append, h.out_append]
    exact run_trailing_crlf (l.addMiddle t) last true
  | case3 p ps hps ih =>
    have hps' : ps ≠ [] := fun h0 => hps (by rw [h0])
    have hp := hmid p (by cases ps <;> simp_all)
    have h := hspace.append (silent_middle (l.addMiddle t) hp.2)
    rw [List.append_assoc, h.run_append, h.out_append]
    obtain ⟨hrun, hout⟩ := ih (l.addMiddle t) p hps'
      (fun q hq => hmid q (by rw [List.dropLast_cons_of_ne_nil hps']; exact List.mem_cons_of_mem _ hq))
      (fun q hq => hlast q (by rwa [List.getLast?_cons_of_ne_nil hps']))
      (silent_spaces (l.addMiddle t) p 0)
    refine ⟨hrun, hout.trans ?_⟩
    have hadd : ((l.addMiddle t).addMiddle p) = (l.addMiddle t).addParam p := by
      rw [TokenLine.addMiddle, if_pos hp.1]
    rw [hadd]
    simp [TokenLine.addParam]

theorem HasCommand.out_crlf {o : Origin} {c : Bytes} {r : Reading} (h : HasCommand o c r) :
    reader.out r (crlf true) = [] := by
  rcases h with rfl | rfl <;> simp +decide [crlf, step]

end Reading

namespace IRCMessage

theorem toString_eq (m : IRCMessage) :
    m.toString = m.origin.text ++ m.command ++ (paramsString m.params ++ Reading.crlf true) := by
  simp [toString, originString_eq, Reading.crlf]

theorem paramsString_eq_space_cons {ps : List Bytes} (h : ps ≠ []) :
    ∃ w, paramsString ps = Chr.space :: w := by
  fun_cases paramsString ps with
  | case1 => exact absurd rfl h
  | case2 | case3 => exact ⟨_, rfl⟩

/-- The text of a canonical message is read as its line, up to the start of the next. -/
theorem Canonical.run_toString {m : IRCMessage} (h : m.Canonical) :
    reader.run .start m.toString = .start ∧
      reader.out .start m.toString = [⟨m.origin, m.command, m.params⟩] := by
  obtain ⟨hclean, -, hacc⟩ := h.origin_clean
  obtain ⟨r, hr, hcmd⟩ := Reading.silent_head hclean hacc 0 (fun _ => rfl)
  rw [List.replicate_zero, List.append_nil] at hr
  obtain ⟨w, hw⟩ := paramsString_eq_space_cons h.params
  have hspace := hcmd.run_space (w ++ Reading.crlf true)
  rw [← List.cons_append, ← hw] at hspace
  have hparams := Reading.run_paramsString ⟨m.origin, m.command, []⟩ [] m.params h.params
    h.middles h.last
  rw [toString_eq, hr.run_append, hr.out_append, hspace.1, hspace.2]
  exact ⟨hparams.1, by simpa [TokenLine.addMiddle] using hparams.2⟩

theorem Canonical.messages_toString {ms : List IRCMessage} (h : ∀ m ∈ ms, m.Canonical) :
    IRCParser.messagesOf (ms.flatMap fun m => m.toString) = ms := by
  have hout : (reader.out .start (ms.flatMap fun m => m.toString)).map TokenLine.message = ms := by
    induction ms with
    | nil => rfl
    | cons m ms ih =>
      obtain ⟨hrun, hm⟩ := (h m (by simp)).run_toString
      have hmsg := eq_message (h m (by simp)).origin_clean.2.1
      rw [List.flatMap_cons, Machine.Mealy.out_append, hrun, hm, List.map_append, List.map_singleton,
        hmsg, ih fun k hk => h k (by simp [hk])]
      rfl
  rw [IRCParser.messagesOf_eq, hout]

/-- A line read from a text that starts with the origin of `m` has this origin. -/
private theorem origin_of_out {m : IRCMessage} {l : TokenLine} {ls : List TokenLine} {w : Bytes}
    (hclean : m.origin.Clean) (hne : m.origin ≠ .absent)
    (h : reader.out .start (m.origin.text ++ w) = l :: ls) : l.origin = m.origin := by
  rw [(Reading.silent_origin hclean hne).out_append] at h
  have hafter : Reading.AfterOrigin m.origin (.command m.origin []) := rfl
  exact hafter.out_head h

/-- A line read from a text that starts with another byte than a colon has no origin. -/
private theorem absent_of_out {x : Byte} {w : Bytes} {l : TokenLine} {ls : List TokenLine}
    (hx : x ≠ Chr.colon) (h : reader.out .start (x :: w) = l :: ls) : l.origin = .absent := by
  have hstep : reader.step .start x = (.command .absent [x], []) := by simp [Reading.step, hx]
  have hafter : Reading.AfterOrigin .absent (.command .absent [x]) := rfl
  rw [← List.singleton_append, (Machine.Mealy.Silent.one hstep).out_append w] at h
  exact hafter.out_head h

/-- A message with the fields of a clean origin is written with a clean origin. -/
private theorem origin_clean_of_message {m : IRCMessage} {o : Origin} (ho : o.Clean)
    (hm : o.message = { m with command := [], params := [] }) : m.origin.Clean := by
  cases o with
  | absent =>
    simp only [Origin.message, IRCMessage.mk.injEq] at hm
    obtain ⟨hs, -, hn, -⟩ := hm
    simp [origin, ← hs, ← hn, Origin.Clean]
  | server s =>
    simp only [Origin.message, IRCMessage.mk.injEq] at hm
    obtain ⟨hs, -, hn, -⟩ := hm
    by_cases h : s = []
    · simp [origin, ← hs, ← hn, h, Origin.Clean]
    · have ho : IsName s := ho
      simp [origin, ← hs, h, Origin.Clean, ho]
  | user n u =>
    simp only [Origin.message, IRCMessage.mk.injEq] at hm
    obtain ⟨hs, hu, hn, hh, -⟩ := hm
    obtain ⟨hn', hu'⟩ : IsName n ∧ IsUser u := ho
    by_cases h : n = []
    · simp [origin, ← hs, ← hn, h, Origin.Clean]
    · by_cases h0 : u = [] <;> simp [origin, ← hs, ← hn, ← hu, ← hh, h, h0, Origin.Clean, hn', hu']
  | host n a =>
    simp only [Origin.message, IRCMessage.mk.injEq] at hm
    obtain ⟨hs, hu, hn, hh, -⟩ := hm
    obtain ⟨hn', ha'⟩ : IsName n ∧ IsHost a := ho
    by_cases h : n = []
    · simp [origin, ← hs, ← hn, h, Origin.Clean]
    · by_cases h0 : a = [] <;> simp [origin, ← hs, ← hn, ← hu, ← hh, h, h0, Origin.Clean, hn', ha']
  | userHost n u a =>
    simp only [Origin.message, IRCMessage.mk.injEq] at hm
    obtain ⟨hs, hu, hn, hh, -⟩ := hm
    obtain ⟨hn', hu', ha'⟩ : IsName n ∧ IsUser u ∧ IsHost a := ho
    by_cases h : n = []
    · simp [origin, ← hs, ← hn, h, Origin.Clean]
    · by_cases h0 : u = [] <;> by_cases h1 : a = [] <;>
        simp [origin, ← hs, ← hn, ← hu, ← hh, h, h0, h1, Origin.Clean, hn', hu', ha']

/-- An origin that gives back all four fields is one of the canonical ones. -/
private theorem canonical_origin {m : IRCMessage} (hclean : m.origin.Clean)
    (hm : m.origin.message = { m with command := [], params := [] }) :
    (m.HasServername ∧ m.origin ≠ .absent) ∨ (m.HasNick ∧ m.origin ≠ .absent) ∨
      (m.HasNoOrigin ∧ m.origin = .absent) := by
  unfold origin at hclean hm ⊢
  split_ifs at hclean hm ⊢ with hs hn hu hh hh
  · simp only [Origin.message, IRCMessage.mk.injEq] at hm
    exact Or.inl ⟨⟨hs, hclean, hm.2.2.1.symm, hm.2.1.symm, hm.2.2.2.1.symm⟩, by simp⟩
  · simp only [Origin.message, IRCMessage.mk.injEq] at hm
    exact Or.inr (Or.inr ⟨⟨hm.1.symm, hn, hm.2.1.symm, hm.2.2.2.1.symm⟩, rfl⟩)
  · simp only [Origin.message, IRCMessage.mk.injEq] at hm
    exact absurd hm.2.2.1.symm hn
  · exact Or.inr (Or.inl ⟨⟨not_not.mp hs, hn, hclean.1, Or.inr hh, by simp [hu, IsUser], hclean.2⟩,
      by simp⟩)
  · exact Or.inr (Or.inl ⟨⟨not_not.mp hs, hn, hclean.1, Or.inl hu, hclean.2, by simp [hh, IsHost]⟩,
      by simp⟩)
  · exact Or.inr (Or.inl ⟨⟨not_not.mp hs, hn, hclean.1, Or.inl hu, hclean.2⟩, by simp⟩)

private theorem Accepts.isWord {o : Origin} {c : Bytes} (h : o.Accepts c) (hne : o ≠ .absent) :
    IsWord c := by
  cases o with
  | absent => exact absurd rfl hne
  | server | user | host | userHost => exact h

private theorem IsWord.head_ne_colon {c : Bytes} (h : IsWord c) :
    ∃ x w, c = x :: w ∧ x ≠ Chr.colon := by
  obtain ⟨hne, hall⟩ := h
  obtain ⟨x, w, rfl⟩ := List.exists_cons_of_ne_nil hne
  refine ⟨x, w, rfl, ?_⟩
  rintro rfl
  rcases hall with hall | hall <;> exact absurd (hall _ List.mem_cons_self) (by decide)

/-- A message read back from its own text is canonical. -/
theorem canonical_of_messagesOf {m : IRCMessage} (h : IRCParser.messagesOf m.toString = [m]) :
    m.Canonical := by
  rw [IRCParser.messagesOf_eq, List.map_eq_singleton_iff] at h
  obtain ⟨l, hout, hl⟩ := h
  have hmem : l ∈ reader.out .start m.toString := by simp [hout]
  have hshaped := Reading.out_start_shaped hmem
  have hacc := Reading.out_start_accepts hmem
  have hcommand : l.command = m.command := congrArg IRCMessage.command hl
  have hparams : l.params = m.params := congrArg IRCMessage.params hl
  have hfields : l.origin.message = { m with command := [], params := [] } := by
    rw [← hl]
    cases h : l.origin <;> simp [TokenLine.message, Origin.message, h]
  have hclean := origin_clean_of_message hshaped.origin hfields
  rw [toString_eq] at hout
  -- the origin read is the origin written: both decide how the text starts
  have horigin : l.origin = m.origin := by
    by_cases hne : m.origin = .absent
    · by_contra hlne
      rw [hne] at hlne
      obtain ⟨x, w, hc, hx⟩ := IsWord.head_ne_colon (Accepts.isWord hacc hlne)
      rw [hne, ← hcommand, hc] at hout
      exact hlne (absent_of_out hx hout)
    · rw [List.append_assoc] at hout
      exact origin_of_out hclean hne hout
  rw [horigin, hcommand] at hacc
  rw [horigin] at hfields
  have hcases := canonical_origin hclean hfields
  have hne : m.params ≠ [] := by
    intro h0
    obtain ⟨r, hr, hcmd⟩ := Reading.silent_head hclean hacc 0 (fun _ => rfl)
    rw [List.replicate_zero, List.append_nil] at hr
    rw [h0, paramsString, List.nil_append, hr.out_append, hcmd.out_crlf] at hout
    exact absurd hout (by simp)
  refine ⟨?_, ?_, ?_, hne, hparams ▸ hshaped.middles, fun p hp => ?_⟩
  · obtain ⟨h, -⟩ | ⟨h, -⟩ | ⟨h, -⟩ := hcases
    · exact Or.inl h
    · exact Or.inr (Or.inl h)
    · exact Or.inr (Or.inr h)
  · intro h
    obtain ⟨-, h0⟩ | ⟨-, h0⟩ | ⟨hno, -⟩ := hcases
    · exact Accepts.isWord hacc h0
    · exact Accepts.isWord hacc h0
    · rcases h with h | h
      · exact absurd hno.1 h.1
      · exact absurd hno.2.1 h.2.1
  · intro h
    obtain ⟨hs, -⟩ | ⟨hn, -⟩ | ⟨-, h0⟩ := hcases
    · exact absurd h.1 hs.1
    · exact absurd h.2.1 hn.2.1
    · exact accepts_absent_iff.mp (h0 ▸ hacc)
  · exact hshaped.bytes p (hparams ▸ List.mem_of_mem_getLast? hp)

/-- The round trip holds exactly for canonical messages, and a stream of them is read back
message by message. -/
theorem messagesOf_toString_iff :
    (∀ m : IRCMessage, IRCParser.messagesOf m.toString = [m] ↔ m.Canonical) ∧
      ∀ ms : List IRCMessage, (∀ m ∈ ms, m.Canonical) →
        IRCParser.messagesOf (ms.flatMap fun m => m.toString) = ms := by
  constructor
  · intro m
    constructor
    · exact canonical_of_messagesOf
    · intro h
      have hm : ∀ m' ∈ [m], m'.Canonical := by simpa using h
      simpa using Canonical.messages_toString hm
  · intro ms
    exact Canonical.messages_toString

/-- `"PING :a b"` and `":n@h PRIVMSG #c :"` as one stream. -/
theorem messagesOf_toString_stream :
    let ping : IRCMessage := { command := text ['P', 'I', 'N', 'G'], params := [text ['a', ' ', 'b']] }
    let privmsg : IRCMessage :=
      { nick := text ['n'], host := text ['h'], command := text ['P', 'R', 'I', 'V', 'M', 'S', 'G']
        params := [text ['#', 'c'], []] }
    IRCParser.messagesOf (ping.toString ++ privmsg.toString) = [ping, privmsg] := by
  intro ping privmsg
  have hping : ping.Canonical := by decide +kernel
  have hprivmsg : privmsg.Canonical := by decide +kernel
  exact messagesOf_toString_iff.2 [ping, privmsg] (by simp [hping, hprivmsg])

end IRCMessage
end IrcBot.Irc

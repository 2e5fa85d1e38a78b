import IrcBot.Irc.Shape
import IrcBot.Irc.Lines

/-! Origin and command of the messages that the parser emits. The states before the command
keep every byte that does not end their token, the initial state keeps the first byte of a
command unchecked, and the end of a call can take the command away altogether; the bytes of
the stream decide which of this happens to a line. -/
namespace IrcBot.Irc

/-- Bytes that no part of a message may contain. -/
def isControl (x : Byte) : Bool := x = Chr.nul ∨ x = Chr.cr ∨ x = Chr.lf

theorem isControl_separators : isControl Chr.colon = false ∧ isControl Chr.bang = false ∧
    isControl Chr.atSign = false ∧ isControl Chr.space = false := ⟨rfl, rfl, rfl, rfl⟩

/-- Two digits or two letters. -/
def sameKind (x y : Byte) : Bool := (isDigit x && isDigit y) || (isLetter x && isLetter y)

namespace IRCMessage

/-- Origin and command without separators, so that the message is one line of text. -/
structure Clean (m : IRCMessage) : Prop where
  command : IsWord m.command
  parts : ∀ w ∈ [m.servername, m.nick, m.user, m.host, m.command],
    Chr.space ∉ w ∧ Chr.nul ∉ w ∧ Chr.cr ∉ w ∧ Chr.lf ∉ w
  line : ∃ w, m.toString = w ++ [Chr.cr, Chr.lf] ∧ Chr.cr ∉ w ∧ Chr.lf ∉ w

end IRCMessage

namespace State

/-- Reading the bytes completes the current line. -/
def completesLine (q : State) : Bytes → Bool
  | [] => false
  | x :: w => (q.inParams && x = Chr.lf) || (q.next x).completesLine w

/-- The byte has no place in the token that takes it and that the rest `v` of the call
finishes: a control byte in the origin, or a first byte of the line that is not of the kind
of the next letter or digit. -/
def spoils (q : State) (x : Byte) (v : Bytes) : Bool :=
  match q with
  | .none => x ≠ Chr.colon && endsToken .command v &&
      (v.find? fun y => isDigit y || isLetter y).any fun y => !sameKind x y
  | .servernameNick | .user | .host => isControl x && q.endsToken v
  | _ => false

theorem spoils_inParams {q : State} (h : q.inParams = true) (x : Byte) (v : Bytes) :
    q.spoils x v = false := by
  cases q <;> first | rfl | exact absurd h (by decide)

/-- A call begins inside the command, and the space behind the command is the first of its
bytes that belongs to the command or ends it. -/
def cutsOff (q : State) (a : Bytes) : Bool :=
  match q with
  | .commandNum | .commandLetter =>
    (a.find? fun x => q.puts x || q.ends x).any fun x => x = Chr.space
  | _ => false

/-- No byte of the call spoils a token of a line that the call or the bytes after it complete. -/
def unspoilt (q : State) (rest : Bytes) : Bytes → Bool
  | [] => true
  | x :: v => !(q.spoils x v && (q.next x).completesLine (v ++ rest)) && (q.next x).unspoilt rest v

/-- No byte and no cut of the calls spoils a token of a line that is completed. -/
def tidy (q : State) : List Bytes → Bool
  | [] => true
  | a :: chunks =>
    !(q.cutsOff a && q.completesLine (a ++ chunks.flatten)) && q.unspoilt chunks.flatten a &&
      (q.after a).tidy chunks

end State

/-- The parts of an origin. -/
def Origin.parts : Origin → List Bytes
  | .absent => []
  | .server s => [s]
  | .user n u => [n, u]
  | .host n h => [n, h]
  | .userHost n u h => [n, u, h]

/-- The byte string has no control byte. -/
def NoControl (w : Bytes) : Prop := ∀ x ∈ w, isControl x = false

theorem noControl_nil : NoControl [] := List.forall_mem_nil _

theorem noControl_singleton {x : Byte} : NoControl [x] ↔ isControl x = false :=
  List.forall_mem_singleton

theorem noControl_append {t u : Bytes} : NoControl (t ++ u) ↔ NoControl t ∧ NoControl u :=
  List.forall_mem_append

theorem noControl_concat {t : Bytes} {x : Byte} :
    NoControl (t ++ [x]) ↔ NoControl t ∧ isControl x = false := by
  rw [noControl_append, noControl_singleton]

/-- A line whose message is clean. -/
structure TokenLine.Tidy (l : TokenLine) : Prop where
  origin : ∀ w ∈ l.origin.parts, NoControl w
  command : IsWord l.command

namespace Reading

/-- The tokens of the line that are finished are tidy. -/
def Tidy : Reading → Prop
  | .start | .servernameNick _ => True
  | .user n _ | .host n _ => NoControl n
  | .userHost n u _ => NoControl n ∧ NoControl u
  | .command o _ | .commandNum o _ | .commandLetter o _ => ∀ w ∈ o.parts, NoControl w
  | .params l _ | .trailing l _ | .cr l => l.Tidy

/-- The rest `v` of the call finishes the current token, and the token is not tidy. -/
def Spoilt (r : Reading) (v : Bytes) : Prop :=
  match r with
  | .servernameNick t | .user _ t | .host _ t | .userHost _ _ t =>
    r.state.endsToken v = true ∧ ¬ NoControl t
  | .command _ t =>
    r.state.endsToken v = true ∧
      ∃ x ∈ t, (v.find? fun y => isDigit y || isLetter y).any (fun y => !sameKind x y) = true
  | .commandNum _ t =>
    (r.state.endsToken v = true ∧ ∃ x ∈ t, isDigit x = false) ∨ t = [] ∧ r.state.cutsOff v = true
  | .commandLetter _ t =>
    (r.state.endsToken v = true ∧ ∃ x ∈ t, isLetter x = false) ∨ t = [] ∧ r.state.cutsOff v = true
  | _ => False

/-- What is in the buffer of the command belongs to it. -/
def Kinded : Reading → Prop
  | .commandNum _ t => t = [] ∨ ∃ x ∈ t, isDigit x = true
  | .commandLetter _ t => t = [] ∨ ∃ x ∈ t, isLetter x = true
  | _ => True

/-- A byte more in a token of the origin, if the token is finished. -/
theorem noControl_of_ends (ends : Bool) (t : Bytes) (x : Byte) :
    (ends = true → NoControl t ∧ isControl x = false) ↔
      (ends = true → NoControl t) ∧ (isControl x = true → ends = false) := by
  cases ends <;> simp

theorem not_spoilt_nil (r : Reading) : ¬ r.Spoilt [] := by
  cases r <;> simp [Spoilt, State.endsToken, state, State.cutsOff]

theorem Kinded.step {r : Reading} (h : r.Kinded) (x : Byte) : (r.step x).1.Kinded := by
  cases r with
  | start | servernameNick | user | host | userHost | params | trailing | cr =>
    simp only [Reading.step]
    split_ifs <;> trivial
  | command o t =>
    simp only [Reading.step]
    split_ifs with hd hl
    · exact Or.inr ⟨x, by simp, hd⟩
    · exact Or.inr ⟨x, by simp, hl⟩
    · trivial
  | commandNum o t =>
    simp only [Reading.step]
    split_ifs with hd hs
    · exact Or.inr ⟨x, by simp, hd⟩
    · trivial
    · exact h
  | commandLetter o t =>
    simp only [Reading.step]
    split_ifs with hl hs
    · exact Or.inr ⟨x, by simp, hl⟩
    · trivial
    · exact h

theorem kinded_forget (r : Reading) : r.forget.Kinded := by
  cases r <;> simp [forget, Kinded]

theorem tidy_forget (r : Reading) : r.forget.Tidy ↔ r.Tidy := by cases r <;> exact Iff.rfl

/-- At the beginning of a call only a command that is cut off is spoilt already. -/
theorem spoilt_forget (r : Reading) (a : Bytes) : r.forget.Spoilt a ↔ r.state.cutsOff a = true := by
  cases r <;> simp [forget, Spoilt, noControl_nil, state, State.cutsOff]

theorem tidy_addMiddle (l : TokenLine) (t : Bytes) : (l.addMiddle t).Tidy ↔ l.Tidy := by
  unfold TokenLine.addMiddle
  split_ifs
  · exact ⟨fun h => ⟨h.origin, h.command⟩, fun h => ⟨h.origin, h.command⟩⟩
  · exact Iff.rfl

theorem tidy_addParam (l : TokenLine) (t : Bytes) : (l.addParam t).Tidy ↔ l.Tidy :=
  ⟨fun h => ⟨h.origin, h.command⟩, fun h => ⟨h.origin, h.command⟩⟩

/-- A command is tidy when it ends, if it is not empty and of the kind of its state. -/
theorem tidy_command {o : Origin} {t : Bytes} :
    (⟨o, t, []⟩ : TokenLine).Tidy ↔ (∀ w ∈ o.parts, NoControl w) ∧ IsWord t :=
  ⟨fun h => ⟨h.origin, h.command⟩, fun h => ⟨h.1, h.2⟩⟩

/-- Bytes of two kinds, one of which is there: they are all of this kind or mixed. -/
private theorem all_iff_of_exists {p q : Byte → Bool} (hpq : ∀ x, p x = true → q x = false)
    {t : Bytes} (h : t = [] ∨ ∃ x ∈ t, p x = true) :
    t ≠ [] ∧ ((∀ x ∈ t, q x = true) ∨ ∀ x ∈ t, p x = true) ↔ (∀ x ∈ t, p x = true) ∧ t ≠ [] := by
  constructor
  · rintro ⟨hne, hq | hp⟩
    · obtain rfl | ⟨x, hx, hpx⟩ := h
      · exact absurd rfl hne
      · exact absurd (hq x hx) (by rw [hpq x hpx]; exact Bool.false_ne_true)
    · exact ⟨hp, hne⟩
  · rintro ⟨hp, hne⟩
    exact ⟨hne, Or.inr hp⟩

theorem isWord_iff_digits {t : Bytes} (h : t = [] ∨ ∃ x ∈ t, isDigit x = true) :
    IsWord t ↔ (∀ x ∈ t, isDigit x = true) ∧ t ≠ [] :=
  all_iff_of_exists (fun _ => not_isLetter_of_isDigit) h

theorem isWord_iff_letters {t : Bytes} (h : t = [] ∨ ∃ x ∈ t, isLetter x = true) :
    IsWord t ↔ (∀ x ∈ t, isLetter x = true) ∧ t ≠ [] := by
  have hdigit : ∀ x, isLetter x = true → isDigit x = false := by
    intro x hl
    by_contra hd
    rw [not_isLetter_of_isDigit (Bool.not_eq_false _ ▸ hd)] at hl
    cases hl
  rw [IsWord, or_comm]
  exact all_iff_of_exists hdigit h

section
attribute [local simp] Reading.step Tidy Spoilt state State.spoils State.endsToken State.ends
  State.next noControl_nil noControl_concat

/-- One byte, with the rest of the call after it: tidy tokens stay tidy unless the byte
spoils its token. -/
theorem tidy_step {r : Reading} (hr : r.Kinded) (x : Byte) (v : Bytes)
    (hout : (r.step x).2 = []) :
    (r.step x).1.Tidy ∧ ¬ (r.step x).1.Spoilt v ↔
      r.Tidy ∧ ¬ r.Spoilt (x :: v) ∧ r.state.spoils x v = false := by
  cases r with
  | start =>
    by_cases hx : x = Chr.colon <;> simp [hx, Origin.parts]
  | servernameNick t =>
    by_cases hs : x = Chr.space
    · simp [hs, Origin.parts, isControl_separators]
    by_cases hb : x = Chr.bang
    · subst hb
      simp [hs, isControl_separators]
    by_cases ha : x = Chr.atSign
    · subst ha
      simp [hs, hb, isControl_separators]
    simp [hs, hb, ha, noControl_of_ends]
  | user n t =>
    by_cases hs : x = Chr.space
    · simp [hs, Origin.parts, isControl_separators]
    by_cases ha : x = Chr.atSign
    · subst ha
      simp [hs, isControl_separators]
    simp [hs, ha, noControl_of_ends]
  | host n t =>
    by_cases hs : x = Chr.space
    · simp [hs, Origin.parts, isControl_separators]
    simp [hs, noControl_of_ends]
  | userHost n u t =>
    by_cases hs : x = Chr.space
    · simp [hs, Origin.parts, isControl_separators, and_assoc]
    simp [hs, noControl_of_ends]
  | command o t =>
    by_cases hd : isDigit x = true
    · have hl : isLetter x = false := not_isLetter_of_isDigit hd
      simp [hd, hl, sameKind]
    by_cases hl : isLetter x = true
    · simp [hd, hl, sameKind]
    · simp [hd, hl]
  | commandNum o t =>
    by_cases hd : isDigit x = true
    · have hs : x ≠ Chr.space := by rintro rfl; revert hd; decide
      simp [hd, hs, State.cutsOff, State.puts]
    by_cases hs : x = Chr.space
    · subst hs
      simp [hd, tidy_command, isWord_iff_digits hr, State.cutsOff, State.puts]
    · simp [hd, hs, State.cutsOff, State.puts]
  | commandLetter o t =>
    by_cases hl : isLetter x = true
    · have hs : x ≠ Chr.space := by rintro rfl; revert hl; decide
      simp [hl, hs, State.cutsOff, State.puts]
    by_cases hs : x = Chr.space
    · subst hs
      simp [hl, tidy_command, isWord_iff_letters hr, State.cutsOff, State.puts]
    · simp [hl, hs, State.cutsOff, State.puts]
  | params l t =>
    simp only [Reading.step] at hout ⊢
    split_ifs at hout ⊢ <;> simp_all [tidy_addMiddle]
  | trailing l t | cr l =>
    simp only [Reading.step] at hout ⊢
    split_ifs at hout ⊢ <;> simp_all [tidy_addParam]

end

/-- A byte completes the line that has been read, or none. -/
theorem step_cases (r : Reading) (x : Byte) :
    (∃ l, (r.state.inParams && decide (x = Chr.lf)) = true ∧ r.step x = (.start, [l]) ∧
        (l.Tidy ↔ r.Tidy)) ∨
      (r.state.inParams && decide (x = Chr.lf)) = false ∧ (r.step x).2 = [] := by
  cases r with
  | start | servernameNick | user | host | userHost | command | commandNum | commandLetter =>
    refine Or.inr ⟨rfl, ?_⟩
    simp only [Reading.step]
    split_ifs <;> rfl
  | params l t =>
    by_cases hx : x = Chr.lf
    · subst hx
      exact Or.inl ⟨l.addMiddle t, rfl, rfl, tidy_addMiddle l t⟩
    · refine Or.inr ⟨by simp [hx], ?_⟩
      simp only [Reading.step, hx, if_false]
      split_ifs <;> rfl
  | trailing l t =>
    by_cases hx : x = Chr.lf
    · subst hx
      exact Or.inl ⟨l.addParam t, rfl, rfl, tidy_addParam l t⟩
    · refine Or.inr ⟨by simp [hx], ?_⟩
      simp only [Reading.step, hx, if_false]
      split_ifs <;> rfl
  | cr l =>
    by_cases hx : x = Chr.lf
    · subst hx
      exact Or.inl ⟨l, rfl, rfl, Iff.rfl⟩
    · exact Or.inr ⟨by simp [hx], by simp [Reading.step, hx]⟩

theorem not_spoilt_inParams {r : Reading} (h : r.state.inParams = true) (v : Bytes) :
    ¬ r.Spoilt v := by
  cases r <;> simp_all [state, State.inParams, Spoilt]

/-- The lines completed in the rest `v` of a call are tidy, and the line at its end is so if
it is completed later, exactly if the current token and the bytes of `v` are all right. -/
theorem tidy_run {r : Reading} (hr : r.Kinded) (v rest : Bytes) :
    (∀ l ∈ reader.out r v, l.Tidy) ∧
        ((reader.run r v).state.completesLine rest = true → (reader.run r v).Tidy) ↔
      (r.state.completesLine (v ++ rest) = true → r.Tidy ∧ ¬ r.Spoilt v) ∧
        r.state.unspoilt rest v = true := by
  induction v generalizing r with
  | nil => simp [not_spoilt_nil, State.unspoilt]
  | cons x v ih =>
    have hrest := ih (hr.step x)
    rw [state_step] at hrest
    simp only [Machine.Mealy.out_cons, Machine.Mealy.run_cons, reader_step, List.cons_append,
      List.forall_mem_append, and_assoc, hrest, State.completesLine, State.unspoilt,
      Bool.and_eq_true, Bool.not_eq_true', Bool.and_eq_false_iff]
    obtain ⟨l, hends, hstep, hl⟩ | ⟨hends, hout⟩ := step_cases r x
    · -- the line ends here, and the next one begins with nothing in the buffer
      have hparams : r.state.inParams = true := (Bool.and_eq_true_iff.mp hends).1
      have hspoilt : ¬ r.Spoilt (x :: v) := not_spoilt_inParams hparams (x :: v)
      have hspoils : r.state.spoils x v = false := State.spoils_inParams hparams x v
      have hstart : Tidy .start ∧ ¬ Spoilt .start v := ⟨trivial, not_false⟩
      simp [hends, hstep, hl, hspoilt, hspoils, hstart]
    · have htidy := tidy_step hr x v hout
      rw [hout, hends, htidy]
      cases (r.state.next x).completesLine (v ++ rest) with
      | false => simp
      | true => simp [and_assoc]

end Reading

/-- The reader as a machine over whole calls, each of which begins with an empty buffer. -/
def callReader : Machine.Mealy Reading Bytes TokenLine :=
  ⟨fun r a => (reader.run r.forget a, reader.out r.forget a)⟩

theorem callReader_step (r : Reading) (a : Bytes) :
    callReader.step r a = (reader.run r.forget a, reader.out r.forget a) := rfl

theorem Reading.foldl_parse (r : Reading) (ms : List IRCMessage) (chunks : List Bytes) :
    chunks.foldl IRCParser.parse (r.parser ms) =
      (callReader.run r chunks).parser (ms ++ (callReader.out r chunks).map TokenLine.message) := by
  induction chunks generalizing r ms with
  | nil => simp
  | cons a chunks ih =>
    rw [List.foldl_cons, Reading.parse_reading, ih, Machine.Mealy.run_cons, Machine.Mealy.out_cons,
      callReader_step, List.map_append, List.append_assoc]

/-- The lines completed in a sequence of calls are tidy exactly if what has been read of the
current line is, or is not completed, and the calls are tidy. -/
theorem Reading.tidy_calls (r : Reading) (chunks : List Bytes) :
    (∀ l ∈ callReader.out r chunks, l.Tidy) ↔
      (r.state.completesLine chunks.flatten = true → r.Tidy) ∧ r.state.tidy chunks = true := by
  induction chunks generalizing r with
  | nil => simp [State.completesLine, State.tidy]
  | cons a chunks ih =>
    have hcall := tidy_run (kinded_forget r) a chunks.flatten
    rw [tidy_forget, spoilt_forget, state_forget] at hcall
    have hstate : (reader.run r.forget a).state = r.state.after a := by
      rw [(buffer_run r.forget a).2, state_forget]
    rw [Machine.Mealy.out_cons, callReader_step, List.forall_mem_append, ih, ← and_assoc, hcall,
      hstate, State.tidy, List.flatten_cons]
    cases r.state.completesLine (a ++ chunks.flatten) with
    | false => simp
    | true => simp [and_assoc]

theorem Origin.forall_parts {P : Bytes → Prop} (hnil : P []) (o : Origin) :
    (∀ w ∈ o.parts, P w) ↔
      ∀ w ∈ [o.message.servername, o.message.nick, o.message.user, o.message.host], P w := by
  cases o <;> simp [Origin.parts, Origin.message, hnil]

theorem Origin.Clean.space_notMem {o : Origin} (h : o.Clean) : ∀ w ∈ o.parts, Chr.space ∉ w := by
  have hname {n : Bytes} (hn : IsName n) : Chr.space ∉ n := fun hx => (hn _ hx).1 rfl
  have huser {u : Bytes} (hu : IsUser u) : Chr.space ∉ u := fun hx => (hu _ hx).1 rfl
  have hhost {a : Bytes} (ha : IsHost a) : Chr.space ∉ a := fun hx => ha _ hx rfl
  cases o with
  | absent => simp [Origin.parts]
  | server s => simpa [Origin.parts] using hname h
  | user n u => simpa [Origin.parts] using ⟨hname h.1, huser h.2⟩
  | host n a => simpa [Origin.parts] using ⟨hname h.1, hhost h.2⟩
  | userHost n u a => simpa [Origin.parts] using ⟨hname h.1, huser h.2.1, hhost h.2.2⟩

theorem noControl_iff {w : Bytes} : NoControl w ↔ Chr.nul ∉ w ∧ Chr.cr ∉ w ∧ Chr.lf ∉ w := by
  constructor
  · intro h
    refine ⟨fun hx => ?_, fun hx => ?_, fun hx => ?_⟩ <;> exact absurd (h _ hx) (by decide)
  · rintro ⟨hn, hr, hf⟩ x hx
    refine decide_eq_false ?_
    rintro (rfl | rfl | rfl)
    · exact hn hx
    · exact hr hx
    · exact hf hx

/-- Letters and digits are neither separators nor control bytes. -/
theorem IsWord.separators_notMem {w : Bytes} (h : IsWord w) :
    Chr.space ∉ w ∧ Chr.nul ∉ w ∧ Chr.cr ∉ w ∧ Chr.lf ∉ w := by
  rcases h.2 with hall | hall <;>
    refine ⟨fun hx => ?_, fun hx => ?_, fun hx => ?_, fun hx => ?_⟩ <;>
    exact absurd (hall _ hx) (by decide)

namespace IRCMessage

theorem noControl_originString {m : IRCMessage}
    (h : ∀ w ∈ [m.servername, m.nick, m.user, m.host], NoControl w) : NoControl m.originString := by
  simp only [List.forall_mem_cons] at h
  obtain ⟨hservername, hnick, huser, hhost, -⟩ := h
  obtain ⟨hcolon, hbang, hat, hspace⟩ := isControl_separators
  unfold originString
  split_ifs <;> simp only [noControl_append, noControl_singleton, noControl_nil, and_true, *]

theorem noControl_paramsString {ps : List Bytes} (h : ∀ t ∈ ps, NoControl t) :
    NoControl (paramsString ps) := by
  obtain ⟨hcolon, -, -, hspace⟩ := isControl_separators
  induction ps with
  | nil => exact noControl_nil
  | cons p ps ih =>
    obtain ⟨hp, hps⟩ := List.forall_mem_cons.mp h
    cases ps with
    | nil =>
      change NoControl ([Chr.space] ++ ([Chr.colon] ++ p))
      rw [noControl_append, noControl_append, noControl_singleton, noControl_singleton]
      exact ⟨hspace, hcolon, hp⟩
    | cons q ps =>
      change NoControl ([Chr.space] ++ p ++ paramsString (q :: ps))
      rw [noControl_append, noControl_append, noControl_singleton]
      exact ⟨⟨hspace, hp⟩, ih hps⟩

/-- Without control bytes in its fields a message is written as one line. -/
theorem toString_line {m : IRCMessage}
    (hparts : ∀ w ∈ [m.servername, m.nick, m.user, m.host], NoControl w)
    (hcommand : NoControl m.command) (hparams : ∀ t ∈ m.params, NoControl t) :
    ∃ w, m.toString = w ++ [Chr.cr, Chr.lf] ∧ Chr.cr ∉ w ∧ Chr.lf ∉ w := by
  have hall : NoControl (m.originString ++ m.command ++ paramsString m.params) := by
    rw [noControl_append, noControl_append]
    exact ⟨⟨noControl_originString hparts, hcommand⟩, noControl_paramsString hparams⟩
  exact ⟨_, rfl, (noControl_iff.mp hall).2⟩

end IRCMessage

/-- The message of a line in shape is clean exactly if the line is tidy. -/
theorem TokenLine.Shaped.clean_iff {l : TokenLine} (h : l.Shaped) : l.message.Clean ↔ l.Tidy := by
  constructor
  · intro hc
    refine ⟨(Origin.forall_parts noControl_nil l.origin).mpr fun w hw => ?_, hc.command⟩
    exact noControl_iff.mpr (hc.parts w (List.mem_append_left [l.command] hw)).2
  · intro ht
    have hparts := (Origin.forall_parts noControl_nil l.origin).mp ht.origin
    have hspace := (Origin.forall_parts List.not_mem_nil l.origin).mp h.origin.space_notMem
    have hcommand := ht.command.separators_notMem
    refine ⟨ht.command, fun w hw => ?_, ?_⟩
    · obtain hw | hw := List.mem_append.mp (show w ∈ [_, _, _, _] ++ [l.command] from hw)
      · exact ⟨hspace w hw, noControl_iff.mp (hparts w hw)⟩
      · rw [List.mem_singleton.mp hw]
        exact hcommand
    · refine IRCMessage.toString_line hparts (noControl_iff.mpr hcommand.2) fun t ht' => ?_
      exact noControl_iff.mpr (h.message.bytes t ht')

namespace IRCParser

/-- All messages that a parser emits in a sequence of calls are clean exactly if no byte
and no cut of the calls spoils a token of a completed line. -/
theorem emitted_clean_iff (chunks : List Bytes) :
    (∀ m ∈ (chunks.foldl parse {}).messages, m.Clean) ↔ State.tidy .none chunks = true := by
  have hshaped : ∀ l ∈ callReader.out .start chunks, l.Shaped :=
    callReader.out_invariant (I := Reading.Shaped)
      (fun r a h => reader.run_invariant (fun _ x h => h.step x) h.forget a)
      (fun r a h => reader.out_invariant (fun _ x h => h.step x) (fun _ _ h _ => h.out) h.forget a)
      (s := .start) trivial chunks
  have hstart : ({} : IRCParser) = Reading.start.parser [] := rfl
  rw [hstart, Reading.foldl_parse]
  change (∀ m ∈ [] ++ (callReader.out .start chunks).map TokenLine.message, m.Clean) ↔ _
  rw [List.nil_append, List.forall_mem_map, forall₂_congr fun l hl => (hshaped l hl).clean_iff,
    Reading.tidy_calls]
  exact and_iff_right fun _ => trivial

/-- A message with an origin that is cut behind its command. -/
example : State.tidy .none [text ":a!b@c PRIVMSG ".toList, text "#d :e\r\n".toList] = true := by
  decide

/-- The message after an empty line has the line end in its command. -/
theorem emitted_not_clean :
    ¬ ∀ chunks : List Bytes, ∀ m ∈ (chunks.foldl parse {}).messages, m.Clean := by
  intro h
  have hclean := h [text "\r\nPING :x\r\n".toList]
    { command := text "\rPING".toList, params := [text ['x']] } (by decide)
  exact absurd hclean.command (by decide)

end IRCParser
end IrcBot.Irc

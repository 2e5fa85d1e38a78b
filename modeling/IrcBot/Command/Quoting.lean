import IrcBot.Command.Reference

/-! Commands whose arguments are all quoted, and what the parser makes of them. -/
namespace IrcBot.CommandParser

/-- A backslash before every double quote and backslash. -/
def escaped (argument : Bytes) : Bytes :=
  argument.flatMap fun x => if x = Chr.dquote ∨ x = Chr.backslash then [Chr.backslash, x] else [x]

/-- An argument between double quotes. -/
def quoted (argument : Bytes) : Bytes := Chr.dquote :: escaped argument ++ [Chr.dquote]

/-- Text of a command, each argument quoted. -/
def quotedCommand (config : ParserConfig) (name : Bytes) (arguments : List Bytes) : Bytes :=
  (if config.prefixChar = Chr.nul then [] else [config.prefixChar]) ++ name ++
    arguments.flatMap fun a => Chr.space :: quoted a

theorem body_quotedCommand (config : ParserConfig) (name : Bytes) (arguments : List Bytes) :
    body config (quotedCommand config name arguments) =
      name ++ arguments.flatMap fun a => Chr.space :: quoted a := by
  unfold body quotedCommand
  split <;> simp

theorem classify_escaped (a xs : Bytes) :
    classify (some Chr.dquote) (escaped a ++ xs) =
      a.map some ++ classify (some Chr.dquote) xs := by
  induction a with
  | nil => rfl
  | cons x a ih =>
    unfold escaped at ih ⊢
    rw [List.flatMap_cons, List.append_assoc, List.map_cons, List.cons_append, ← ih]
    by_cases hx : x = Chr.dquote ∨ x = Chr.backslash
    · rw [if_pos hx]
      exact classify_backslash _ _
    · rw [if_neg hx, List.singleton_append]
      have hne : some Chr.dquote ≠ some x := fun h => hx (.inl (Option.some.inj h).symm)
      rw [classify_cons (fun h => hx (.inr h)), if_neg hne,
        if_pos Option.isSome_some]

theorem classify_quoted (a xs : Bytes) :
    classify none (quoted a ++ xs) = a.map some ++ classify none xs := by
  unfold quoted
  have hopen : ∀ ys, classify none (Chr.dquote :: ys) = classify (some Chr.dquote) ys := by
    intro ys
    rw [classify_cons (by decide)]
    rfl
  have hclose : ∀ ys, classify (some Chr.dquote) (Chr.dquote :: ys) = classify none ys := by
    intro ys
    rw [classify_cons (by decide)]
    rfl
  rw [List.append_assoc, List.cons_append, hopen, classify_escaped, List.singleton_append, hclose]

/-- Quoted arguments are the segments, and the last one is kept as every last segment is. -/
theorem segments_quoted (a : Bytes) (arguments : List Bytes) :
    segments (classify none (quoted a ++ arguments.flatMap fun a => Chr.space :: quoted a)) =
      kept (a :: arguments) := by
  induction arguments generalizing a with
  | nil =>
    rw [List.flatMap_nil, classify_quoted, classify_nil, List.append_nil, segments_literals,
      kept_singleton]
  | cons b arguments ih =>
    rw [List.flatMap_cons, List.cons_append, classify_quoted, classify_space, segments_separator,
      ih b, kept_cons a (by simp)]

theorem leadingWord_quoted (arguments : List Bytes) :
    leadingWord (arguments.flatMap fun a => Chr.space :: quoted a) = [] := by
  cases arguments with
  | nil => rfl
  | cons a arguments =>
    rw [List.flatMap_cons, List.cons_append]
    exact leadingWord_space _

theorem arguments_quoted (arguments : List Bytes) :
    ((rest (arguments.flatMap fun a => Chr.space :: quoted a)).map fun r =>
      segments (classify none r)).getD [] = kept arguments := by
  cases arguments with
  | nil => rfl
  | cons a arguments =>
    rw [List.flatMap_cons, List.cons_append, rest_space]
    exact segments_quoted a arguments

/-- What the parser makes of a command with quoted arguments. -/
theorem parse_quotedCommand (config : ParserConfig) {name : Bytes}
    (hname : ∀ x ∈ name, isCommandCharacter x = true) (arguments : List Bytes) :
    parse config (quotedCommand config name arguments) = .ok ⟨name, kept arguments⟩ := by
  have hspace : Chr.space ∉ name := fun h => absurd (hname _ h) (by decide)
  have hword : leadingWord (body config (quotedCommand config name arguments)) = name := by
    rw [body_quotedCommand]
    exact leadingWord_append hspace (leadingWord_quoted arguments)
  have hrest := arguments_quoted arguments
  have hok : ¬ Rejected config (quotedCommand config name arguments) := by
    rintro (⟨hp, x, hx, hne⟩ | ⟨x, hx, hn⟩)
    · rw [quotedCommand, if_neg hp] at hx
      exact hne (Option.some.inj hx).symm
    · rw [hword] at hx
      exact hn (.inl (hname x hx))
  rw [parse_of_not_rejected hok, reading, readBody, hword, commandName_eq_self hname,
    body_quotedCommand, rest_append hspace, hrest]

/-- Quoting loses nothing exactly when the last argument is not empty. -/
theorem parse_quotedCommand_iff (config : ParserConfig) {name : Bytes}
    (hname : ∀ x ∈ name, isCommandCharacter x = true) (arguments : List Bytes) :
    parse config (quotedCommand config name arguments) = .ok ⟨name, arguments⟩ ↔
      arguments.getLast? ≠ some [] := by
  rw [parse_quotedCommand config hname, ← kept_eq_self_iff]
  constructor
  · intro h
    exact (Command.mk.inj (Except.ok.inj h)).2
  · intro h
    rw [h]

theorem parse_quotedCommand_say :
    parse ⟨0x2f⟩ (quotedCommand ⟨0x2f⟩ (text "say".toList)
        [[], [Chr.space, Chr.backslash, Chr.lf, Chr.dquote]]) =
      .ok ⟨text "say".toList, [[], [Chr.space, Chr.backslash, Chr.lf, Chr.dquote]]⟩ :=
  (parse_quotedCommand_iff ⟨0x2f⟩ (List.all_eq_true.mp (by decide)) _).mpr (by decide)

/-- The last argument of `/say ""` is lost. -/
theorem parse_quotedCommand_empty :
    ¬ ∀ (config : ParserConfig) (name : Bytes) (arguments : List Bytes), name ≠ [] →
      (∀ x ∈ name, isCommandCharacter x = true) →
        parse config (quotedCommand config name arguments) = .ok ⟨name, arguments⟩ := by
  intro h
  have hname : ∀ x ∈ text "say".toList, isCommandCharacter x = true :=
    List.all_eq_true.mp (by decide)
  have hsay := h ⟨0x2f⟩ (text "say".toList) [[]] (by decide) hname
  rw [parse_quotedCommand ⟨0x2f⟩ hname] at hsay
  simp at hsay

end IrcBot.CommandParser

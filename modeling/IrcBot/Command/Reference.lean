import IrcBot.Command.CommandParser
import Mathlib.Data.List.ReduceOption

/-! Reference reading of a command in two stages, classification of the bytes and
splitting at the separators, and the equality of the parser with it. -/
namespace IrcBot.CommandParser

/-- Classified bytes of the arguments: `some b` is a literal byte of an argument and
`none` a separator. The first argument is the quotation mark that is open, if any. -/
def classify (opened : Option Byte) : Bytes → List (Option Byte)
  | [] => []
  | x :: xs =>
    if x = Chr.backslash then
      match xs with
      | [] => []
      | y :: ys => some y :: classify opened ys
    else if opened = some x then classify none xs
    else if opened.isSome then some x :: classify opened xs
    else if x = Chr.quote ∨ x = Chr.dquote then classify (some x) xs
    else if x = Chr.cr then classify none xs
    else if x = Chr.space ∨ x = Chr.lf then none :: classify none xs
    else some x :: classify none xs

/-- All segments but the last one, and the last one only when it is not empty. -/
def kept (all : List Bytes) : List Bytes :=
  all.dropLast ++ all.getLast?.toList.filter (· ≠ [])

/-- Segments of classified bytes that become arguments. -/
def segments (ws : List (Option Byte)) : List Bytes :=
  kept ((ws.splitOn none).map List.reduceOption)

/-- The input without its prefix. -/
def body (config : ParserConfig) (input : Bytes) : Bytes :=
  if config.prefixChar = Chr.nul then input else input.tail

/-- What stands before the first space. -/
def leadingWord (body : Bytes) : Bytes := body.takeWhile (· ≠ Chr.space)

/-- What stands after the first space, when there is one. -/
def rest (body : Bytes) : Option Bytes := (body.dropWhile (· ≠ Chr.space)).tail?

/-- Bytes that the command part may have. -/
def IsAccepted (x : Byte) : Prop := isCommandCharacter x ∨ x = Chr.cr ∨ x = Chr.lf

instance : DecidablePred IsAccepted := fun x =>
  inferInstanceAs (Decidable (isCommandCharacter x ∨ x = Chr.cr ∨ x = Chr.lf))

/-- The command part with CR and LF removed. -/
def commandName (word : Bytes) : Bytes := word.filter fun x => x ≠ Chr.cr ∧ x ≠ Chr.lf

/-- Inputs that have no reading. -/
def Rejected (config : ParserConfig) (input : Bytes) : Prop :=
  (config.prefixChar ≠ Chr.nul ∧ ∃ x ∈ input.head?, x ≠ config.prefixChar) ∨
    ∃ x ∈ leadingWord (body config input), ¬ IsAccepted x

instance (config : ParserConfig) (input : Bytes) : Decidable (Rejected config input) :=
  inferInstanceAs (Decidable (_ ∨ _))

/-- Command and arguments that a body says. -/
def readBody (body : Bytes) : Command where
  command := commandName (leadingWord body)
  arguments := ((rest body).map fun r => segments (classify none r)).getD []

/-- Command and arguments that an input says. -/
def reading (config : ParserConfig) (input : Bytes) : Command := readBody (body config input)

@[simp] theorem kept_nil : kept [] = [] := rfl

@[simp] theorem kept_singleton (token : Bytes) :
    kept [token] = if token = [] then [] else [token] := by
  unfold kept
  by_cases h : token = [] <;> simp [h]

theorem kept_cons (token : Bytes) {all : List Bytes} (h : all ≠ []) :
    kept (token :: all) = token :: kept all := by
  unfold kept
  rw [List.dropLast_cons_of_ne_nil h, List.getLast?_cons_of_ne_nil h, List.cons_append]

theorem kept_eq_self_iff (all : List Bytes) : kept all = all ↔ all.getLast? ≠ some [] := by
  induction all with
  | nil => simp
  | cons token all ih =>
    by_cases h : all = []
    · subst h
      by_cases ht : token = [] <;> simp [ht]
    · rw [kept_cons token h, List.getLast?_cons_of_ne_nil h, List.cons.injEq]
      simpa using ih

theorem reduceOption_literals (token : Bytes) : (token.map some).reduceOption = token := by
  unfold List.reduceOption
  rw [List.filterMap_map]
  exact List.filterMap_some

@[simp] theorem segments_literals (token : Bytes) :
    segments (token.map some) = if token = [] then [] else [token] := by
  have hno : none ∉ token.map some := by simp
  unfold segments
  rw [List.splitOn_eq_singleton hno, List.map_singleton, reduceOption_literals, kept_singleton]

@[simp] theorem segments_separator (token : Bytes) (ws : List (Option Byte)) :
    segments (token.map some ++ none :: ws) = token :: segments ws := by
  have hno : none ∉ token.map some := by simp
  have hne : (ws.splitOn none).map List.reduceOption ≠ [] := by simp
  unfold segments
  rw [List.splitOn_append_cons_self_of_not_mem hno, List.map_cons, reduceOption_literals,
    kept_cons _ hne]

@[simp] theorem classify_nil (q : Option Byte) : classify q [] = [] := by unfold classify; rfl

/-- Classification of what follows a backslash. -/
def literalNext (opened : Option Byte) : Bytes → List (Option Byte)
  | [] => []
  | y :: ys => some y :: classify opened ys

theorem classify_backslash (q : Option Byte) (xs : Bytes) :
    classify q (Chr.backslash :: xs) = literalNext q xs := by
  rw [classify.eq_def]
  cases xs <;> simp [literalNext]

theorem classify_cons {q : Option Byte} {x : Byte} (hx : x ≠ Chr.backslash) (xs : Bytes) :
    classify q (x :: xs) =
      if q = some x then classify none xs
      else if q.isSome then some x :: classify q xs
      else if x = Chr.quote ∨ x = Chr.dquote then classify (some x) xs
      else if x = Chr.cr then classify none xs
      else if x = Chr.space ∨ x = Chr.lf then none :: classify none xs
      else some x :: classify none xs := by
  rw [classify.eq_def]
  simp only [hx, if_false]

theorem classify_space (xs : Bytes) :
    classify none (Chr.space :: xs) = none :: classify none xs := by
  rw [classify_cons (by decide)]
  rfl

namespace Locals

/-- The quotation that the two flags describe. -/
def opened (l : Locals) : Option Byte :=
  if l.isQuoted then some (if l.isDquote then Chr.dquote else Chr.quote) else none

/-- Classification of the rest of the input from where the loop is. -/
def classified (l : Locals) (xs : Bytes) : List (Option Byte) :=
  if 0 < l.doEscape then literalNext l.opened xs else classify l.opened xs

/-- Arguments that the loop has when it gets through the rest of the input. -/
def rest (l : Locals) (xs : Bytes) : List Bytes :=
  l.cmd.arguments ++ segments (l.token.map some ++ l.classified xs)

@[simp] theorem classified_nil (l : Locals) : l.classified [] = [] := by
  unfold classified literalNext
  simp

theorem classified_of_le {l : Locals} (h : l.doEscape ≤ 0) (xs : Bytes) :
    l.classified xs = classify l.opened xs := by
  have hn : ¬ 0 < l.doEscape := by omega
  unfold classified
  rw [if_neg hn]

/-- A byte that the loop appends to the token is a literal of the classification. -/
theorem rest_put {l : Locals} {x : Byte} {xs : Bytes} (he : l.doEscape ≤ 1)
    (h : l.classified (x :: xs) = some x :: classify l.opened xs) :
    (l.put x).countDown.rest xs = l.rest (x :: xs) := by
  have hc : (l.put x).countDown.doEscape ≤ 0 := by
    change l.doEscape - 1 ≤ 0
    omega
  have ho : (l.put x).countDown.opened = l.opened := rfl
  unfold rest
  rw [classified_of_le hc, ho, h]
  simp [put, countDown]

/-- A byte other than a quote inside a quotation is literal. -/
theorem rest_argument_quoted {l : Locals} {x : Byte} (he : l.doEscape ≤ 0) (hx : x ≠ Chr.backslash)
    (hquote : x ≠ Chr.quote) (hdquote : x ≠ Chr.dquote) (hq : l.isQuoted = true) (xs : Bytes) :
    (l.argument x).countDown.rest xs = l.rest (x :: xs) := by
  have ho : l.opened ≠ some x := by
    unfold opened
    cases l.isDquote <;> simp [hq, Ne.symm hquote, Ne.symm hdquote]
  have hs : l.opened.isSome = true := by simp [opened, hq]
  unfold argument
  rw [if_neg (by omega), if_neg hx, if_neg hquote, if_neg hdquote, if_pos hq]
  apply rest_put (by omega)
  rw [classified_of_le he, classify_cons hx, if_neg ho, if_pos hs]

/-- Outside of quotations a byte is dropped, a separator or literal. -/
theorem rest_argument_bare {l : Locals} {x : Byte} (he : l.doEscape ≤ 0) (hx : x ≠ Chr.backslash)
    (hquote : x ≠ Chr.quote) (hdquote : x ≠ Chr.dquote) (hq : l.isQuoted = false) (xs : Bytes) :
    (l.argument x).countDown.rest xs = l.rest (x :: xs) := by
  have ho : l.opened = none := by simp [opened, hq]
  have hc : l.classified (x :: xs) =
      if x = Chr.cr then classify none xs
      else if x = Chr.space ∨ x = Chr.lf then none :: classify none xs
      else some x :: classify none xs := by
    simp [classified_of_le he, classify_cons hx, ho, hquote, hdquote]
  unfold argument
  rw [if_neg (by omega), if_neg hx, if_neg hquote, if_neg hdquote, if_neg (by simp [hq])]
  by_cases hcr : x = Chr.cr
  · rw [if_pos hcr] at hc ⊢
    rw [rest, rest, hc, classified_of_le (by simp [countDown]; omega)]
    simp [countDown, opened, hq]
  rw [if_neg hcr] at hc ⊢
  by_cases hsep : x = Chr.space ∨ x = Chr.lf
  · rw [if_pos hsep] at hc ⊢
    rw [rest, rest, hc, segments_separator, classified_of_le (by simp [countDown]; omega)]
    simp [countDown, opened, hq]
  · rw [if_neg hsep] at hc ⊢
    exact rest_put (by omega) (hc.trans (by rw [ho]))

/-- A byte outside an escape does to the loop what the classification says of it. -/
theorem rest_argument {l : Locals} {x : Byte} (he : l.doEscape ≤ 0) (hx : x ≠ Chr.backslash)
    (xs : Bytes) : (l.argument x).countDown.rest xs = l.rest (x :: xs) := by
  have hn : ¬ 0 < l.doEscape := by omega
  have hn1 : ¬ 1 < l.doEscape := by omega
  have hne : Chr.dquote ≠ Chr.quote := by decide
  by_cases hquote : x = Chr.quote
  · subst hquote
    unfold argument
    rw [if_neg hn, if_neg hx]
    cases hq : l.isQuoted <;> cases hd : l.isDquote <;>
      simp [rest, classified, opened, put, countDown, classify_cons hx, hq, hd, hn, hn1, hne]
  by_cases hdquote : x = Chr.dquote
  · subst hdquote
    unfold argument
    rw [if_neg hn, if_neg hx]
    cases hq : l.isQuoted <;> cases hd : l.isDquote <;>
      simp [rest, classified, opened, put, countDown, classify_cons hx, hq, hd, hn, hn1, hne,
        hne.symm]
  cases hq : l.isQuoted with
  | true => exact rest_argument_quoted he hx hquote hdquote hq xs
  | false => exact rest_argument_bare he hx hquote hdquote hq xs

/-- One turn of the loop in its last state. -/
theorem rest_turn {l : Locals} (he : l.doEscape ≤ 1) (x : Byte) (xs : Bytes) :
    (l.argument x).countDown.rest xs = l.rest (x :: xs) := by
  by_cases hp : 0 < l.doEscape
  · have ha : l.argument x = l.put x := by
      unfold argument
      rw [if_pos hp]
    rw [ha]
    apply rest_put he
    unfold classified literalNext
    rw [if_pos hp]
  · have hle : l.doEscape ≤ 0 := by omega
    by_cases hx : x = Chr.backslash
    · have ha : l.argument x = { l with doEscape := 2 } := by
        unfold argument
        rw [if_neg hp, if_pos hx]
      rw [ha, hx, rest, rest, classified_of_le hle, classify_backslash]
      rfl
    · exact rest_argument hle hx xs

@[simp] theorem argument_command (l : Locals) (x : Byte) :
    (l.argument x).cmd.command = l.cmd.command := by
  unfold argument put
  repeat' split
  all_goals rfl

end Locals

/-- The loop in its last state reads the rest of the input as the classification does. -/
theorem scan_argument {config : ParserConfig} {l : Locals} (h : l.state = .argument)
    (he : l.doEscape ≤ 1) (xs : Bytes) :
    (scan config l xs).map Locals.finish = .ok ⟨l.cmd.command, l.rest xs⟩ := by
  induction xs generalizing l with
  | nil =>
    change Except.ok l.finish = _
    unfold Locals.finish Locals.rest
    rw [h, Locals.classified_nil, List.append_nil, segments_literals]
    by_cases ht : l.token = [] <;> simp [ht]
  | cons x xs ih =>
    have hd : dispatch config l x = .ok (l.argument x) := by
      unfold dispatch
      rw [h]
    have hs : (l.argument x).countDown.state = .argument := (l.argument_state x).trans h
    have hle : (l.argument x).countDown.doEscape ≤ 1 := by
      have hor := l.argument_doEscape x
      change (l.argument x).doEscape - 1 ≤ 1
      omega
    rw [scan_cons_ok hd, ih hs hle, Locals.rest_turn he]
    simp [Locals.countDown]

/-- The loop in its command state: no quotation, no escape and no argument so far. -/
structure Locals.InCommand (l : Locals) : Prop where
  state : l.state = .command
  isQuoted : l.isQuoted = false
  doEscape : l.doEscape ≤ 0
  cmd : l.cmd = {}

namespace Locals.InCommand

theorem put {l : Locals} (h : l.InCommand) (x : Byte) : (l.put x).countDown.InCommand where
  state := h.state
  isQuoted := h.isQuoted
  doEscape := by
    have := h.doEscape
    change l.doEscape - 1 ≤ 0
    omega
  cmd := h.cmd

theorem countDown {l : Locals} (h : l.InCommand) : l.countDown.InCommand where
  state := h.state
  isQuoted := h.isQuoted
  doEscape := by
    have := h.doEscape
    change l.doEscape - 1 ≤ 0
    omega
  cmd := h.cmd

end Locals.InCommand

theorem leadingWord_space (xs : Bytes) : leadingWord (Chr.space :: xs) = [] := by
  unfold leadingWord
  rw [List.takeWhile_cons_of_neg (by simp)]

theorem leadingWord_cons {x : Byte} (hx : x ≠ Chr.space) (xs : Bytes) :
    leadingWord (x :: xs) = x :: leadingWord xs := by
  unfold leadingWord
  rw [List.takeWhile_cons_of_pos (by simpa using hx)]

theorem rest_space (xs : Bytes) : rest (Chr.space :: xs) = some xs := by
  unfold rest
  rw [List.dropWhile_cons_of_neg (by simp)]
  rfl

theorem rest_cons {x : Byte} (hx : x ≠ Chr.space) (xs : Bytes) : rest (x :: xs) = rest xs := by
  unfold rest
  rw [List.dropWhile_cons_of_pos (by simpa using hx)]

theorem leadingWord_append {name : Bytes} (h : Chr.space ∉ name) {xs : Bytes}
    (hxs : leadingWord xs = []) : leadingWord (name ++ xs) = name := by
  unfold leadingWord at hxs ⊢
  have hall : ∀ x ∈ name, decide (x ≠ Chr.space) = true := by
    intro x hx
    exact decide_eq_true (ne_of_mem_of_not_mem hx h)
  rw [List.takeWhile_append_of_pos hall, hxs, List.append_nil]

theorem rest_append {name : Bytes} (h : Chr.space ∉ name) (xs : Bytes) :
    rest (name ++ xs) = rest xs := by
  have hall : ∀ x ∈ name, decide (x ≠ Chr.space) = true := by
    intro x hx
    exact decide_eq_true (ne_of_mem_of_not_mem hx h)
  unfold rest
  rw [List.dropWhile_append_of_pos hall]

theorem commandName_eq_self {name : Bytes} (h : ∀ x ∈ name, isCommandCharacter x = true) :
    commandName name = name := by
  unfold commandName
  rw [List.filter_eq_self]
  intro x hx
  have hc := h x hx
  refine decide_eq_true ⟨?_, ?_⟩ <;> rintro rfl <;> exact absurd hc (by decide)

theorem not_isAccepted_space : ¬ IsAccepted Chr.space := by decide

/-- A byte of the command part leaves the loop in its command state. -/
theorem dispatch_accepted (config : ParserConfig) {l : Locals} (hl : l.InCommand) {x : Byte}
    (hx : IsAccepted x) :
    ∃ l', dispatch config l x = .ok l' ∧ l'.countDown.InCommand ∧
      l'.token = l.token ++ commandName [x] := by
  unfold dispatch
  rw [hl.state]
  by_cases hc : isCommandCharacter x = true
  · refine ⟨l.put x, if_pos hc, hl.put x, ?_⟩
    have hcr : x ≠ Chr.cr := by
      rintro rfl
      exact absurd hc (by decide)
    have hlf : x ≠ Chr.lf := by
      rintro rfl
      exact absurd hc (by decide)
    simp [Locals.put, commandName, hcr, hlf]
  · have hend : x = Chr.cr ∨ x = Chr.lf := hx.resolve_left hc
    have hspace : x ≠ Chr.space := by
      rintro rfl
      exact not_isAccepted_space hx
    refine ⟨l, ?_, hl.countDown, ?_⟩
    · dsimp only
      rw [if_neg hc, if_neg hspace, if_pos hend]
    · rcases hend with rfl | rfl <;> simp [commandName]

theorem dispatch_rejected (config : ParserConfig) {l : Locals} (hl : l.InCommand) {x : Byte}
    (hx : ¬ IsAccepted x) (hspace : x ≠ Chr.space) :
    dispatch config l x = .error ⟨oneCharacter x, text "a-zA-Z0-9-".toList⟩ := by
  unfold IsAccepted at hx
  unfold dispatch
  rw [hl.state]
  dsimp only
  rw [if_neg (fun hc => hx (.inl hc)), if_neg hspace, if_neg (fun he => hx (.inr he))]

theorem dispatch_space (config : ParserConfig) {l : Locals} (hl : l.InCommand) :
    dispatch config l Chr.space =
      .ok { l with cmd := { l.cmd with command := l.token }, token := [], state := .argument } := by
  unfold dispatch
  rw [hl.state]
  rfl

/-- The exception of the command part names the first byte that has no place in it. -/
theorem scan_command_error (config : ParserConfig) {l : Locals} (hl : l.InCommand) {b : Bytes}
    (h : ∃ x ∈ leadingWord b, ¬ IsAccepted x) :
    ∃ x ∈ (leadingWord b).find? (¬ IsAccepted ·),
      scan config l b = .error ⟨oneCharacter x, text "a-zA-Z0-9-".toList⟩ := by
  induction b generalizing l with
  | nil => simp [leadingWord] at h
  | cons y ys ih =>
    have hspace : y ≠ Chr.space := by
      rintro rfl
      simp [leadingWord_space] at h
    rw [leadingWord_cons hspace] at h ⊢
    by_cases hy : IsAccepted y
    · obtain ⟨l', hd, hl', -⟩ := dispatch_accepted config hl hy
      rw [List.exists_mem_cons_iff] at h
      obtain ⟨z, hz, hz'⟩ := h.resolve_left (not_not_intro hy)
      rw [scan_cons_ok hd, List.find?_cons_of_neg (by simpa using hy)]
      exact ih hl' ⟨z, hz, hz'⟩
    · refine ⟨y, ?_, scan_cons_error (dispatch_rejected config hl hy hspace) ys⟩
      rw [List.find?_cons_of_pos (by simpa using hy)]
      rfl

theorem readBody_space (xs : Bytes) :
    readBody (Chr.space :: xs) = ⟨[], segments (classify none xs)⟩ := by
  unfold readBody
  rw [leadingWord_space, rest_space]
  rfl

theorem readBody_cons {x : Byte} (hx : x ≠ Chr.space) (xs : Bytes) :
    readBody (x :: xs) = ⟨commandName [x] ++ (readBody xs).command, (readBody xs).arguments⟩ := by
  unfold readBody
  rw [leadingWord_cons hx, rest_cons hx]
  unfold commandName
  rw [← List.filter_append]
  rfl

/-- The loop in its command state reads what follows as the reference does. -/
theorem scan_command (config : ParserConfig) {l : Locals} (hl : l.InCommand) {b : Bytes}
    (h : ∀ x ∈ leadingWord b, IsAccepted x) :
    (scan config l b).map Locals.finish =
      .ok ⟨l.token ++ (readBody b).command, (readBody b).arguments⟩ := by
  induction b generalizing l with
  | nil =>
    change Except.ok l.finish = _
    unfold Locals.finish
    rw [hl.state, hl.cmd]
    by_cases ht : l.token = [] <;> simp [ht, readBody, leadingWord, commandName, rest]
  | cons x xs ih =>
    by_cases hspace : x = Chr.space
    · subst hspace
      have hle := hl.doEscape
      have hn : l.doEscape - 1 ≤ 1 := by omega
      rw [scan_cons_ok (dispatch_space config hl), scan_argument rfl hn, readBody_space,
        Locals.rest, Locals.classified_of_le (by simp only [Locals.countDown]; omega)]
      simp [Locals.countDown, Locals.opened, hl.cmd, hl.isQuoted]
    · rw [leadingWord_cons hspace, List.forall_mem_cons] at h
      obtain ⟨l', hd, hl', htoken⟩ := dispatch_accepted config hl h.1
      have hcd : l'.countDown.token = l.token ++ commandName [x] := htoken
      rw [scan_cons_ok hd, ih hl' h.2, hcd, readBody_cons hspace, List.append_assoc]

theorem parse_eq (config : ParserConfig) (input : Bytes) :
    parse config input = (scan config (initial config) input).map Locals.finish := by
  unfold parse
  cases scan config (initial config) input <;> rfl

/-- State of the loop when it stands at the body. -/
theorem exists_inCommand {config : ParserConfig} {input : Bytes} (hne : input ≠ [])
    (h : config.prefixChar = Chr.nul ∨ input.head? = some config.prefixChar) :
    ∃ l : Locals, l.InCommand ∧ l.token = [] ∧
      scan config (initial config) input = scan config l (body config input) := by
  unfold initial body
  by_cases hp : config.prefixChar = Chr.nul
  · refine ⟨{ state := .command }, ⟨rfl, rfl, Int.le_refl 0, rfl⟩, rfl, ?_⟩
    rw [if_pos hp, if_pos hp]
  · obtain ⟨x, xs, rfl⟩ := List.exists_cons_of_ne_nil hne
    have hx : x = config.prefixChar := by simpa using h.resolve_left hp
    have hd : dispatch config {} x = .ok { state := .command } := if_pos hx
    refine ⟨{ state := .command, doEscape := -1 }, ⟨rfl, rfl, by decide, rfl⟩, rfl, ?_⟩
    rw [if_neg hp, if_neg hp, scan_cons_ok hd]
    rfl

theorem parse_nil (config : ParserConfig) : parse config [] = .ok {} := by
  unfold parse initial
  split <;> rfl

/-- Whether the input starts as a command does. -/
theorem rejected_iff {config : ParserConfig} {input : Bytes}
    (h : config.prefixChar = Chr.nul ∨ input.head? = some config.prefixChar) :
    Rejected config input ↔ ∃ x ∈ leadingWord (body config input), ¬ IsAccepted x := by
  unfold Rejected
  constructor
  · rintro (⟨hp, x, hx, hne⟩ | hw)
    · have hx' : some x = some config.prefixChar := (Option.mem_def.mp hx).symm.trans (h.resolve_left hp)
      exact absurd (Option.some.inj hx') hne
    · exact hw
  · exact .inr

/-- The exception names a byte of the input. -/
theorem parse_of_rejected {config : ParserConfig} {input : Bytes} (h : Rejected config input) :
    ∃ x ∈ input, ∃ expected, parse config input = .error ⟨oneCharacter x, expected⟩ := by
  cases input with
  | nil =>
    rcases h with ⟨-, x, hx, -⟩ | ⟨x, hx, -⟩
    · cases hx
    · simp [body, leadingWord] at hx
  | cons y ys =>
    by_cases hp : config.prefixChar = Chr.nul ∨ (y :: ys).head? = some config.prefixChar
    · obtain ⟨l, hl, -, hscan⟩ := exists_inCommand (by simp) hp
      obtain ⟨x, hx, he⟩ := scan_command_error config hl ((rejected_iff hp).mp h)
      have hbody : x ∈ body config (y :: ys) :=
        List.takeWhile_subset _ (List.mem_of_find?_eq_some hx)
      refine ⟨x, ?_, text "a-zA-Z0-9-".toList, ?_⟩
      · unfold body at hbody
        split at hbody
        · exact hbody
        · exact List.mem_of_mem_tail hbody
      · rw [parse_eq, hscan, he]
        rfl
    · rw [not_or] at hp
      have hy : y ≠ config.prefixChar := by simpa using hp.2
      have hd : dispatch config {} y =
          .error ⟨oneCharacter y, oneCharacter config.prefixChar⟩ := if_neg hy
      refine ⟨y, by simp, oneCharacter config.prefixChar, ?_⟩
      rw [parse_eq]
      unfold initial
      rw [if_neg hp.1, scan_cons_error hd]
      rfl

theorem parse_of_not_rejected {config : ParserConfig} {input : Bytes}
    (h : ¬ Rejected config input) : parse config input = .ok (reading config input) := by
  cases input with
  | nil =>
    rw [parse_nil]
    simp [reading, readBody, body, leadingWord, commandName, rest]
  | cons y ys =>
    have hp : config.prefixChar = Chr.nul ∨ (y :: ys).head? = some config.prefixChar := by
      by_contra hp
      rw [not_or] at hp
      exact h (.inl ⟨hp.1, y, rfl, by simpa using hp.2⟩)
    obtain ⟨l, hl, htoken, hscan⟩ := exists_inCommand (by simp) hp
    have hw : ∀ x ∈ leadingWord (body config (y :: ys)), IsAccepted x := by
      intro x hx
      by_contra hn
      exact h ((rejected_iff hp).mpr ⟨x, hx, hn⟩)
    rw [parse_eq, hscan, scan_command config hl hw, htoken]
    rfl

/-- The parser is its reference reading: it throws on the inputs that have none and
returns what every other input says. -/
theorem parse_eq_reading (config : ParserConfig) (input : Bytes) :
    ((∃ e, parse config input = .error e) ↔ Rejected config input) ∧
      (¬ Rejected config input → parse config input = .ok (reading config input)) := by
  refine ⟨⟨?_, ?_⟩, parse_of_not_rejected⟩
  · rintro ⟨e, he⟩
    by_contra hn
    rw [parse_of_not_rejected hn] at he
    cases he
  · intro h
    obtain ⟨x, -, expected, he⟩ := parse_of_rejected h
    exact ⟨_, he⟩

end IrcBot.CommandParser

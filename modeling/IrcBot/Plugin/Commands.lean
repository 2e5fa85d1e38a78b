import IrcBot.Command.CommandParser
import IrcBot.Plugin.Plugin

/-! Which messages a plugin takes for commands, and which the parser takes to have the prefix
of one. The parser knows a configuration without a prefix, the plugin does not. -/
namespace IrcBot
open Irc

namespace CommandParser

/-- The state in which the loop throws. -/
def throwsIn (config : ParserConfig) : Locals → Bytes → Option State
  | _, [] => none
  | l, x :: xs =>
    match dispatch config l x with
    | .error _ => some l.state
    | .ok l' => throwsIn config l'.countDown xs

/-- The parser throws where it expects the prefix. -/
def RejectsPrefix (config : ParserConfig) (command : Bytes) : Prop :=
  throwsIn config (initial config) command = some .start

theorem dispatch_state_ne {config : ParserConfig} {l l' : Locals} {x : Byte}
    (h : dispatch config l x = .ok l') : l'.countDown.state ≠ .start := by
  change l'.state ≠ .start
  unfold dispatch at h
  split at h
  · split at h <;> cases h
    exact nofun
  · rename_i hl
    split_ifs at h <;> cases h
    · exact hl ▸ nofun
    · exact nofun
    · exact hl ▸ nofun
  · rename_i hl
    cases h
    rw [Locals.argument_state, hl]
    exact nofun

/-- Past the prefix the loop throws in another state, if it does. -/
theorem throwsIn_ne_start {config : ParserConfig} {l : Locals} (hl : l.state ≠ .start)
    (xs : Bytes) : throwsIn config l xs ≠ some .start := by
  induction xs generalizing l with
  | nil => exact nofun
  | cons x xs ih =>
    unfold throwsIn
    cases hd : dispatch config l x with
    | error e => exact fun h => hl (Option.some.inj h)
    | ok k => exact ih (dispatch_state_ne hd)

theorem rejectsPrefix_iff {config : ParserConfig} {command : Bytes} (hne : command ≠ []) :
    RejectsPrefix config command ↔
      config.prefixChar ≠ Chr.nul ∧ command.head? ≠ some config.prefixChar := by
  unfold RejectsPrefix initial
  cases command with
  | nil => exact (hne rfl).elim
  | cons x xs =>
    by_cases hnul : config.prefixChar = Chr.nul
    · rw [if_pos hnul]
      exact iff_of_false (throwsIn_ne_start State.noConfusion (x :: xs)) fun h => h.1 hnul
    · rw [if_neg hnul]
      by_cases hx : x = config.prefixChar
      · have hd : dispatch config {} x = .ok { state := .command } := if_pos hx
        rw [throwsIn, hd]
        refine iff_of_false (throwsIn_ne_start State.noConfusion xs) fun h => h.2 ?_
        rw [List.head?_cons, hx]
      · have hd : dispatch config {} x =
            .error ⟨oneCharacter x, oneCharacter config.prefixChar⟩ := if_neg hx
        rw [throwsIn, hd]
        exact iff_of_true rfl ⟨hnul, fun h => hx (Option.some.inj h)⟩

end CommandParser

namespace Plugin
open CommandParser

/-- The plugin takes the message for a command, and lets it pass, exactly if the parser does
not miss the prefix in `s`. -/
structure Recognises (p : Plugin) (m : IRCMessage) (config : ParserConfig) (s : Bytes) : Prop where
  isCommand : p.isCommand m = true ↔ ¬ RejectsPrefix config s
  preFilter : p.preFilter m = true ↔ ¬ RejectsPrefix config s
  expected : ¬ RejectsPrefix config s ↔
    config.prefixChar = Chr.nul ∨ s.head? = some config.prefixChar

section
variable {p : Plugin} {m : IRCMessage} {config : ParserConfig} {s : Bytes}

theorem isCommand_iff (hp : p.commandParser = some config.prefixChar) (hm : m.command = privmsg)
    (hs : m.params.getLast? = some s) (hne : s ≠ []) :
    p.isCommand m = true ↔ s.head? = some config.prefixChar := by
  have hlen : ¬ m.params.length < 1 := by
    intro hlt
    have hnil : m.params = [] := List.length_eq_zero_iff.mp (by omega)
    rw [hnil] at hs
    cases hs
  have hfirst : commandPrefix m = config.prefixChar ↔ s.head? = some config.prefixChar := by
    rw [commandPrefix, hs]
    cases s with
    | nil => exact (hne rfl).elim
    | cons x xs => exact Option.some_inj.symm
  unfold isCommand
  rw [hp, ← hfirst]
  simp [hlen, hm]

theorem preFilter_eq_isCommand (hp : p.commandParser = some config.prefixChar) :
    p.preFilter m = p.isCommand m := if_pos (by rw [hp]; exact nofun)

/-- With a prefix the two always agree; without one, only on strings that start with NUL. -/
theorem recognises_iff (hp : p.commandParser = some config.prefixChar) (hm : m.command = privmsg)
    (hs : m.params.getLast? = some s) (hne : s ≠ []) :
    Recognises p m config s ↔ config.prefixChar ≠ Chr.nul ∨ s.head? = some Chr.nul := by
  have hcmd := isCommand_iff hp hm hs hne
  have hreject : ¬ RejectsPrefix config s ↔
      config.prefixChar = Chr.nul ∨ s.head? = some config.prefixChar := by
    rw [rejectsPrefix_iff hne]
    tauto
  constructor
  · intro h
    have hagree := h.isCommand
    rw [hcmd, hreject] at hagree
    by_cases hnul : config.prefixChar = Chr.nul
    · exact .inr (hnul ▸ hagree.mpr (.inl hnul))
    · exact .inl hnul
  · intro h
    have hagree : p.isCommand m = true ↔ ¬ RejectsPrefix config s := by
      rw [hcmd, hreject]
      constructor
      · exact .inr
      · rintro (hnul | hhead)
        · rw [hnul]
          exact h.resolve_left (not_not.mpr hnul)
        · exact hhead
    exact ⟨hagree, preFilter_eq_isCommand hp ▸ hagree, hreject⟩

end

/-- The command `/op` for a plugin with the prefix `/`. -/
def opCommand : IRCMessage :=
  { command := privmsg, params := [text ['b', 'o', 't'], text ['/', 'o', 'p']] }

theorem recognises_opCommand :
    Recognises { id := [], commandParser := some 0x2f } opCommand ⟨0x2f⟩ (text ['/', 'o', 'p']) :=
  (recognises_iff rfl rfl rfl (by decide)).mpr (.inl (by decide))

/-- Without a prefix the parser accepts `/op` past its prefix stage, the plugin drops it. -/
theorem opCommand_dropped : ¬ ∀ (p : Plugin) (m : IRCMessage) (config : ParserConfig) (s : Bytes),
    p.commandParser = some config.prefixChar → m.command = privmsg →
      m.params.getLast? = some s → s ≠ [] → Recognises p m config s := by
  intro h
  have hdrop := h { id := [], commandParser := some Chr.nul } opCommand ⟨Chr.nul⟩
    (text ['/', 'o', 'p']) rfl rfl rfl (by decide)
  have hpass := hdrop.preFilter.mpr (by unfold RejectsPrefix; decide)
  exact absurd hpass (by decide)

end Plugin
end IrcBot

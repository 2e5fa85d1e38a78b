import IrcBot.Plugins.Clipboard

/-! What one message may do to the lists: the one under its own key can grow by the text of
the message or lose an entry, and every other list stays as it is. -/
namespace IrcBot.Plugins.Clipboard
open Irc

/-- The step from `c` to `d` keeps to the list of the message. -/
structure Confined (c : Clipboard) (cmd : IRCMessage) (d : Clipboard) : Prop where
  others : ∀ k, k ≠ key cmd → d.list k = c.list k
  saved : ∀ content, data cmd = clipSave ++ content → d.list (key cmd) =
    if content.length ≤ c.messageSize ∧ (c.list (key cmd)).length < c.size then
      c.list (key cmd) ++ [content] else c.list (key cmd)
  removed : clipRm <+: data cmd → d.list (key cmd) = c.list (key cmd) ∨
    ∃ i < (c.list (key cmd)).length, d.list (key cmd) = (c.list (key cmd)).eraseIdx i
  unchanged : ¬ clipSave <+: data cmd → ¬ clipRm <+: data cmd →
    d.list (key cmd) = c.list (key cmd)

section
variable {c d : Clipboard} {cmd : IRCMessage} {out : List IRCMessage}

/-- No text both saves and removes. -/
theorem not_clipRm_clipSave (content : Bytes) : ¬ clipRm <+: clipSave ++ content := by
  rintro ⟨rest, hrest⟩
  have hfive := congrArg (·.getD 5 Chr.nul) hrest
  exact absurd hfive (by change ¬ Chr.dash = Chr.space; decide)

theorem confined_of_onMessage (h : c.onMessage cmd = .ok (d, out)) : Confined c cmd d := by
  obtain ⟨-, hhandle⟩ := onMessage_eq_ok h
  have hothers : ∀ k, k ≠ key cmd → d.list k = c.list k := by
    intro k hk
    rcases handle_cases hhandle with rfl | ⟨entries, rfl⟩
    · rfl
    · exact list_put_ne hk entries
  by_cases hsave : clipSave <+: data cmd
  · obtain ⟨content, hdata⟩ := hsave
    rw [← hdata, handle_save] at hhandle
    obtain ⟨rfl, -⟩ := Prod.mk.inj (Except.ok.inj hhandle)
    refine ⟨hothers, ?_, ?_, ?_⟩
    · intro content' hdata'
      rw [← List.append_cancel_left (hdata.trans hdata')]
      exact save_list content
    · intro hrm
      exact absurd (hdata ▸ hrm) (not_clipRm_clipSave content)
    · intro hnot
      exact absurd ⟨content, hdata⟩ hnot
  · have hnosave : ∀ content, data cmd ≠ clipSave ++ content :=
      fun content hdata => hsave ⟨content, hdata.symm⟩
    by_cases hrm : clipRm <+: data cmd
    · rw [handle_rm hrm] at hhandle
      refine ⟨hothers, fun content hdata => absurd hdata (hnosave content), fun _ => ?_,
        fun _ hnot => absurd hrm hnot⟩
      rcases rm_cases hhandle with rfl | ⟨i, hi, rfl⟩
      · exact .inl (list_touch _ _)
      · exact .inr ⟨i, hi, list_put_self _⟩
    · obtain ⟨d', out', hother, hd⟩ := handle_other c (key cmd) hsave hrm
      rw [hother] at hhandle
      obtain ⟨rfl, -⟩ := Prod.mk.inj (Except.ok.inj hhandle)
      refine ⟨hothers, fun content hdata => absurd hdata (hnosave content),
        fun hnot => absurd hnot hrm, fun _ _ => ?_⟩
      rcases hd with rfl | rfl
      · rfl
      · exact list_touch _ _

end

/-- Every step of a run without a fault keeps to the list of its message. -/
theorem isolated {config : ClipboardConfig} (before : List IRCMessage) (cmd : IRCMessage)
    (after : List IRCMessage) {e : Clipboard} {out : List IRCMessage}
    (h : machine.run (new config) (before ++ cmd :: after) = .ok (e, out)) :
    ∃ c os d os', machine.run (new config) before = .ok (c, os) ∧ c.onMessage cmd = .ok (d, os') ∧
      Confined c cmd d := by
  obtain ⟨c, os, d, os', hbefore, hstep⟩ := Machine.Fallible.step_of_run h
  exact ⟨c, os, d, os', hbefore, hstep, confined_of_onMessage hstep⟩

/-- A message from `a` to the bot that saves a text. -/
def saveMessage (content : Bytes) : IRCMessage :=
  { nick := text ['a'], command := Plugin.privmsg, params := [text ['b'], clipSave ++ content] }

theorem isolated_saveMessage : ∃ c os d os',
    machine.run (new ⟨5, 20⟩) [saveMessage (text ['x'])] = .ok (c, os) ∧
      c.onMessage (saveMessage (text ['y'])) = .ok (d, os') ∧
      Confined c (saveMessage (text ['y'])) d :=
  isolated [saveMessage (text ['x'])] (saveMessage (text ['y'])) [] rfl

end IrcBot.Plugins.Clipboard

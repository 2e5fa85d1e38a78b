import IrcBot.Plugins.Isolation

/-! The limits of the clipboards. They are those of the last configuration that the plugin was
given by `setConfig`; a plugin that is loaded is given none and has the constructor's. -/
namespace IrcBot.Plugins.Clipboard
open Irc

/-- The limits hold for the entries stored. -/
def Within (c : Clipboard) : Prop :=
  ∀ k, (c.list k).length ≤ c.size ∧ ∀ e ∈ c.list k, e.length ≤ c.messageSize

/-- The clipboards keep the limits of the configuration, and take every entry these allow. -/
structure Follows (config : ClipboardConfig) (c : Clipboard) : Prop where
  entries : ∀ k, (c.list k).length ≤ config.size
  lengths : ∀ k, ∀ e ∈ c.list k, e.length ≤ config.messageSize
  accepts : ∀ cmd content, filter cmd = true → 2 ≤ cmd.params.length →
    data cmd = clipSave ++ content → content.length ≤ config.messageSize →
      (c.list (key cmd)).length < config.size →
        ∃ d out, c.onMessage cmd = .ok (d, out) ∧ d.list (key cmd) = c.list (key cmd) ++ [content]

section
variable {c d : Clipboard} {cmd : IRCMessage} {cmds : List IRCMessage} {out : List IRCMessage}
  {content : Bytes}

theorem onMessage_limits (h : c.onMessage cmd = .ok (d, out)) :
    d.size = c.size ∧ d.messageSize = c.messageSize := by
  rcases handle_cases (onMessage_eq_ok h).2 with rfl | ⟨entries, rfl⟩ <;> exact ⟨rfl, rfl⟩

theorem onMessage_save (hlen : 2 ≤ cmd.params.length) (hdata : data cmd = clipSave ++ content) :
    ∃ d out, c.onMessage cmd = .ok (d, out) ∧ d.list (key cmd) =
      if content.length ≤ c.messageSize ∧ (c.list (key cmd)).length < c.size then
        c.list (key cmd) ++ [content] else c.list (key cmd) := by
  obtain ⟨⟨d, out⟩, hd⟩ : ∃ r, c.save (key cmd) content = r := ⟨_, rfl⟩
  have hstep : c.onMessage cmd = .ok (d, out) := by
    rw [onMessage_of_two hlen, hdata, handle_save, hd]
  exact ⟨d, out, hstep, (confined_of_onMessage hstep).saved content hdata⟩

theorem Within.onMessage (hc : c.Within) (h : c.onMessage cmd = .ok (d, out)) : d.Within := by
  have hframe := confined_of_onMessage h
  obtain ⟨hsize, hmessage⟩ := onMessage_limits h
  intro k
  rw [hsize, hmessage]
  obtain ⟨hentries, hlengths⟩ := hc k
  by_cases hk : k = key cmd
  · subst hk
    by_cases hsave : clipSave <+: data cmd
    · obtain ⟨content, hdata⟩ := hsave
      rw [hframe.saved content hdata.symm]
      split_ifs with hroom
      · refine ⟨by rw [List.length_append]; exact hroom.2, fun e he => ?_⟩
        rcases List.mem_append.mp he with hold | hnew
        · exact hlengths e hold
        · rw [List.mem_singleton.mp hnew]
          exact hroom.1
      · exact ⟨hentries, hlengths⟩
    · by_cases hrm : clipRm <+: data cmd
      · rcases hframe.removed hrm with hsame | ⟨i, hi, hgone⟩
        · rw [hsame]
          exact ⟨hentries, hlengths⟩
        · rw [hgone]
          refine ⟨?_, fun e he => hlengths e (List.mem_of_mem_eraseIdx he)⟩
          exact (List.length_eraseIdx_le _ i).trans hentries
      · rw [hframe.unchanged hsave hrm]
        exact ⟨hentries, hlengths⟩
  · rw [hframe.others k hk]
    exact ⟨hentries, hlengths⟩

/-- The limits do not change during a run, and hold after it. -/
theorem run_within (hc : c.Within) (h : machine.run c cmds = .ok (d, out)) :
    d.Within ∧ d.size = c.size ∧ d.messageSize = c.messageSize := by
  refine Machine.Fallible.run_invariant (M := machine)
    (I := fun s => s.Within ∧ s.size = c.size ∧ s.messageSize = c.messageSize) ?_ ⟨hc, rfl, rfl⟩ h
  rintro s cmd t os ⟨hs, hsize, hmessage⟩ hstep
  obtain ⟨hsize', hmessage'⟩ := onMessage_limits hstep
  exact ⟨hs.onMessage hstep, hsize'.trans hsize, hmessage'.trans hmessage⟩

/-- A plugin whose limits are those of a configuration follows it from then on. -/
theorem follows_of_run {config : ClipboardConfig} (hc : c.Within) (hsize : c.size = config.size)
    (hmessage : c.messageSize = config.messageSize) (h : machine.run c cmds = .ok (d, out)) :
    Follows config d := by
  obtain ⟨hd, hsize', hmessage'⟩ := run_within hc h
  rw [hsize] at hsize'
  rw [hmessage] at hmessage'
  refine ⟨fun k => hsize' ▸ (hd k).1, fun k => hmessage' ▸ (hd k).2, ?_⟩
  intro cmd content _ hlen hdata hfits hfree
  obtain ⟨d', out', hstep, hlist⟩ := onMessage_save (c := d) hlen hdata
  rw [if_pos ⟨hmessage'.symm ▸ hfits, hsize'.symm ▸ hfree⟩] at hlist
  exact ⟨d', out', hstep, hlist⟩

theorem within_of_empty (h : ∀ k, c.list k = []) : c.Within := by
  intro k
  rw [h k]
  exact ⟨Nat.zero_le _, nofun⟩

/-- One that gets its configuration by `setConfig` when it is loaded would follow it. -/
theorem follows_of_onNewConfiguration (config : ClipboardConfig)
    (h : machine.run ((new config).onNewConfiguration config) cmds = .ok (d, out)) :
    Follows config d :=
  follows_of_run (within_of_empty fun _ => rfl) rfl rfl h

theorem key_saveMessage (content : Bytes) : key (saveMessage content) = text ['a'] := by
  have hkey : keyOf (text ['b']) (text ['a']) = text ['a'] := by decide
  exact hkey

theorem onMessage_saveMessage (c : Clipboard) (content : Bytes) :
    ∃ d out, c.onMessage (saveMessage content) = .ok (d, out) ∧ d.list (text ['a']) =
      if content.length ≤ c.messageSize ∧ (c.list (text ['a'])).length < c.size then
        c.list (text ['a']) ++ [content] else c.list (text ['a']) := by
  have hlen : 2 ≤ (saveMessage content).params.length := le_refl 2
  have hsave := onMessage_save (c := c) hlen (show data (saveMessage content) = clipSave ++ content from rfl)
  rwa [key_saveMessage] at hsave

/-- Saving the empty text fills the list as far as the constructor's limit. -/
theorem run_saves (hsize : c.size = 10) (n : ℕ) (hn : (c.list (text ['a'])).length + n ≤ 10) :
    ∃ d out, machine.run c (List.replicate n (saveMessage [])) = .ok (d, out) ∧ d.size = 10 ∧
      (d.list (text ['a'])).length = (c.list (text ['a'])).length + n := by
  induction n generalizing c with
  | zero => exact ⟨c, [], rfl, hsize, rfl⟩
  | succ n ih =>
    obtain ⟨c', os, hstep, hlist⟩ := onMessage_saveMessage c []
    have hsize' := (onMessage_limits hstep).1
    rw [if_pos ⟨Nat.zero_le _, by omega⟩] at hlist
    have hlength := congrArg List.length hlist
    rw [List.length_append, List.length_singleton] at hlength
    obtain ⟨d, out, hrun, hd, hmany⟩ := ih (hsize'.trans hsize) (by omega)
    refine ⟨d, os ++ out, Machine.Fallible.run_cons_ok hstep hrun, hd, ?_⟩
    omega

/-- A plugin that follows a configuration takes a text that this allows. -/
theorem Follows.accepts_saveMessage {config : ClipboardConfig} (h : Follows config c)
    (content : Bytes) (hfits : content.length ≤ config.messageSize) (hfree : (c.list (text ['a'])).length < config.size) :
    content.length ≤ c.messageSize ∧ (c.list (text ['a'])).length < c.size := by
  obtain ⟨d, out, hstep, hgrown⟩ := h.accepts (saveMessage content) content rfl (le_refl 2) rfl hfits
    (by rwa [key_saveMessage])
  obtain ⟨d', out', hstep', hlist⟩ := onMessage_saveMessage c content
  rw [hstep] at hstep'
  obtain ⟨rfl, -⟩ := Prod.mk.inj (Except.ok.inj hstep')
  rw [key_saveMessage] at hgrown
  by_contra hroom
  rw [if_neg hroom] at hlist
  have := congrArg List.length (hlist.symm.trans hgrown)
  rw [List.length_append, List.length_singleton] at this
  omega

/-- The text of a message is stored if it has at most 512 bytes, whatever the configuration. -/
theorem length_le_of_follows {config : ClipboardConfig}
    (h : ∀ cmds c out, (∀ cmd ∈ cmds, filter cmd = true) →
      machine.run (new config) cmds = .ok (c, out) → Follows config c)
    (content : Bytes) (hlen : content.length ≤ 512) : content.length ≤ config.messageSize := by
  obtain ⟨d, os, hstep, hlist⟩ := onMessage_saveMessage (new config) content
  rw [if_pos ⟨hlen, Nat.zero_lt_succ 9⟩] at hlist
  have hstored := h [saveMessage content] d (os ++ [])
    (fun cmd hcmd => by rw [List.mem_singleton.mp hcmd]; rfl)
    (Machine.Fallible.run_cons_ok hstep rfl)
  apply hstored.lengths (text ['a'])
  rw [hlist]
  exact List.mem_append_right _ (List.mem_singleton.mpr rfl)

end

/-- A loaded plugin follows its configuration exactly if that has the constructor's limits. -/
theorem limits_iff (config : ClipboardConfig) :
    (∀ cmds c out, (∀ cmd ∈ cmds, filter cmd = true) → machine.run (new config) cmds = .ok (c, out) →
      Follows config c) ↔ config.size = 10 ∧ config.messageSize = 512 := by
  constructor
  · intro h
    have hnew := h [] (new config) [] nofun rfl
    obtain ⟨full, out, hrun, hsize, hlength⟩ := run_saves (c := new config) rfl 10 (le_refl 10)
    have hfull := h _ full out (fun cmd hcmd => by rw [List.eq_of_mem_replicate hcmd]; rfl) hrun
    have hten : (full.list (text ['a'])).length = 10 := hlength
    have hsizes : config.size = 10 := by
      have hle := hfull.entries (text ['a'])
      by_contra hne
      have hroom := (hfull.accepts_saveMessage [] (Nat.zero_le _) (by omega)).2
      omega
    have hfree : ((new config).list (text ['a'])).length < config.size := by
      rw [hsizes]
      exact Nat.zero_lt_succ 9
    refine ⟨hsizes, Nat.le_antisymm ?_ ?_⟩
    · -- an entry of 513 bytes would have to be taken
      by_contra hlarge
      have hlen : (List.replicate 513 Chr.space).length = 513 := List.length_replicate
      have hfits := (hnew.accepts_saveMessage (List.replicate 513 Chr.space)
        (by omega) hfree).1
      have hmessage : (new config).messageSize = 512 := rfl
      omega
    · -- one of 512 bytes is stored
      have hlen : (List.replicate 512 Chr.space).length = 512 := List.length_replicate
      have hle := length_le_of_follows h (List.replicate 512 Chr.space) (by omega)
      omega
  · rintro ⟨hsize, hmessage⟩ cmds c out - hrun
    exact follows_of_run (within_of_empty fun _ => rfl) hsize.symm hmessage.symm hrun

/-- With the limits of the example configuration a text of 21 bytes is stored. -/
theorem limits_ignored : ¬ ∀ (config : ClipboardConfig) cmds c out,
    (∀ cmd ∈ cmds, filter cmd = true) → machine.run (new config) cmds = .ok (c, out) →
      Follows config c := by
  intro h
  have hlen : (List.replicate 21 Chr.space).length = 21 := List.length_replicate
  have hle := length_le_of_follows (h ⟨5, 20⟩) (List.replicate 21 Chr.space) (by omega)
  have hmessage : (ClipboardConfig.mk 5 20).messageSize = 20 := rfl
  omega

end IrcBot.Plugins.Clipboard

import IrcBot.Machine.Fallible
import IrcBot.Plugins.Helpers

/-! The plugin that registers the bot and tries its alternative nicks. Every reply that the
nick is in use takes the next of them, also when none is left. -/
namespace IrcBot.Plugins
open Irc

structure InitConfig where
  nick : Bytes
  user : Bytes
  realName : Bytes
  alternativeNicks : List Bytes
  deriving DecidableEq, Repr

structure Init where
  config : InitConfig
  altNicks : List Bytes := []
  altNicksIndex : UInt32 := 0
  deriving DecidableEq, Repr

namespace Init

/-- A message that tries the alternative nick at an index. -/
structure Sent where
  entry : UInt32
  message : IRCMessage
  deriving DecidableEq, Repr

def nickMsg (nick : Bytes) : IRCMessage :=
  { command := text ['N', 'I', 'C', 'K'], params := [nick] }

def userMsg (user realName : Bytes) : IRCMessage :=
  { command := text ['U', 'S', 'E', 'R'], params := [user, text ['0'], text ['*'], realName] }

def onInit (s : Init) : Init × List IRCMessage :=
  ({ s with altNicks := s.altNicks ++ s.config.alternativeNicks },
    [nickMsg s.config.nick, userMsg s.config.user s.config.realName])

/-- `ERR_NICKNAMEINUSE` -/
def nicknameInUse : Bytes := text ['4', '3', '3']

def filter (cmd : IRCMessage) : Bool :=
  cmd.command = text ['4', '3', '1'] ∨ cmd.command = nicknameInUse
    ∨ cmd.command = text ['4', '3', '7'] ∨ cmd.command = text ['4', '3', '2']
    ∨ cmd.command = text ['4', '3', '6'] ∨ cmd.command = text ['4', '8', '4']

/-- `++m_alt_nicks_index` -/
def advance (s : Init) : Init := { s with altNicksIndex := s.altNicksIndex + 1 }

def onMessage (s : Init) (cmd : IRCMessage) : Except Fault (Init × List Sent) :=
  if cmd.command = nicknameInUse then
    match s.altNicks[s.altNicksIndex.toNat]? with
    | none => .error .outOfRange
    | some nick => .ok (s.advance, [⟨s.altNicksIndex, nickMsg nick⟩])
  else .ok (s, [])

def machine : Machine.Fallible Fault Init IRCMessage Sent := ⟨onMessage⟩

/-- Each message tries a nick of the list, and one that stands after those tried before. -/
structure InOrder (nicks : List Bytes) (sent : List Sent) : Prop where
  listed : ∀ x ∈ sent, ∃ nick, nicks[x.entry.toNat]? = some nick ∧ x.message = nickMsg nick
  order : sent.Pairwise fun x y => x.entry < y.entry

/-- The replies that the nick is in use. -/
def inUse (replies : List IRCMessage) : ℕ := replies.countP fun cmd => cmd.command = nicknameInUse

section
variable {s t : Init} {cmd : IRCMessage} {replies : List IRCMessage} {sent : List Sent}

theorem inUse_cons_of_eq (h : cmd.command = nicknameInUse) :
    inUse (cmd :: replies) = inUse replies + 1 :=
  List.countP_cons_of_pos (by simpa using h)

theorem inUse_cons_of_ne (h : cmd.command ≠ nicknameInUse) : inUse (cmd :: replies) = inUse replies :=
  List.countP_cons_of_neg (by simpa using h)

theorem onMessage_of_ne (h : cmd.command ≠ nicknameInUse) : s.onMessage cmd = .ok (s, []) := if_neg h

theorem onMessage_of_lt (h : cmd.command = nicknameInUse)
    (hlt : s.altNicksIndex.toNat < s.altNicks.length) :
    s.onMessage cmd =
      .ok (s.advance, [⟨s.altNicksIndex, nickMsg s.altNicks[s.altNicksIndex.toNat]⟩]) := by
  rw [onMessage, if_pos h, List.getElem?_eq_getElem hlt]

theorem onMessage_of_le (h : cmd.command = nicknameInUse)
    (hle : s.altNicks.length ≤ s.altNicksIndex.toNat) :
    s.onMessage cmd = .error .outOfRange := by
  rw [onMessage, if_pos h, List.getElem?_eq_none hle]

theorem advance_index {i : ℕ} (hi : s.altNicksIndex.toNat = i % 2 ^ 32) :
    s.advance.altNicksIndex.toNat = (i + 1) % 2 ^ 32 := by
  rw [advance, UInt32.toNat_add, hi]
  change (i % 2 ^ 32 + 1) % 2 ^ 32 = _
  omega

/-- The replies are handled without a fault exactly if the index stays inside the list. -/
theorem run_ok_iff {i : ℕ} (hi : s.altNicksIndex.toNat = i % 2 ^ 32) :
    (∃ r, machine.run s replies = .ok r) ↔
      ∀ j < inUse replies, (i + j) % 2 ^ 32 < s.altNicks.length := by
  induction replies generalizing s i with
  | nil => exact iff_of_true ⟨_, rfl⟩ nofun
  | cons cmd replies ih =>
    by_cases hcmd : cmd.command = nicknameInUse
    · rw [inUse_cons_of_eq hcmd]
      by_cases hlt : s.altNicksIndex.toNat < s.altNicks.length
      · have hstep : machine.step s cmd = _ := onMessage_of_lt hcmd hlt
        have hrest := ih (advance_index hi)
        constructor
        · rintro ⟨⟨t, sent⟩, hrun⟩ j hj
          obtain ⟨t', os₁, os₂, hfirst, htail, -⟩ := Machine.Fallible.of_run_cons hrun
          rw [hstep] at hfirst
          cases hfirst
          cases j with
          | zero => omega
          | succ j =>
            have := hrest.mp ⟨_, htail⟩ j (by omega)
            rwa [Nat.add_assoc, Nat.add_comm 1 j] at this
        · intro hall
          obtain ⟨⟨t, sent⟩, htail⟩ := hrest.mpr fun j hj => by
            have := hall (j + 1) (by omega)
            rwa [Nat.add_assoc, Nat.add_comm 1 j]
          exact ⟨_, Machine.Fallible.run_cons_ok hstep htail⟩
      · have hstep : machine.step s cmd = _ := onMessage_of_le hcmd (Nat.le_of_not_lt hlt)
        refine iff_of_false ?_ fun hall => hlt ?_
        · rintro ⟨r, hrun⟩
          rw [Machine.Fallible.run_cons_error hstep] at hrun
          cases hrun
        · have := hall 0 (by omega)
          rwa [hi]
    · have hstep : machine.step s cmd = .ok (s, []) := onMessage_of_ne hcmd
      rw [inUse_cons_of_ne hcmd, ← ih hi]
      constructor
      · rintro ⟨⟨t, sent⟩, hrun⟩
        obtain ⟨t', os₁, os₂, hfirst, htail, -⟩ := Machine.Fallible.of_run_cons hrun
        rw [hstep] at hfirst
        cases hfirst
        exact ⟨_, htail⟩
      · rintro ⟨⟨t, sent⟩, htail⟩
        exact ⟨_, Machine.Fallible.run_cons_ok hstep htail⟩

/-- The nicks tried by a run are those at the indices from `i` on, modulo `2 ^ 32`. -/
theorem run_entries {i : ℕ} (hi : s.altNicksIndex.toNat = i % 2 ^ 32)
    (h : machine.run s replies = .ok (t, sent)) :
    (sent.map fun x => x.entry.toNat) =
        (List.range (inUse replies)).map (fun j => (i + j) % 2 ^ 32) ∧
      ∀ x ∈ sent, ∃ nick, s.altNicks[x.entry.toNat]? = some nick ∧ x.message = nickMsg nick := by
  induction replies generalizing s i sent with
  | nil =>
    cases h
    exact ⟨rfl, nofun⟩
  | cons cmd replies ih =>
    obtain ⟨t', os₁, os₂, hfirst, htail, rfl⟩ := Machine.Fallible.of_run_cons h
    by_cases hcmd : cmd.command = nicknameInUse
    · by_cases hlt : s.altNicksIndex.toNat < s.altNicks.length
      · have hstep : machine.step s cmd = _ := onMessage_of_lt hcmd hlt
        rw [hstep] at hfirst
        cases hfirst
        obtain ⟨hentries, hlisted⟩ := ih (advance_index hi) htail
        constructor
        · rw [inUse_cons_of_eq hcmd, List.range_succ_eq_map, List.map_cons, List.map_map,
            List.map_append, hentries, List.map_singleton, hi, Nat.add_zero, List.singleton_append]
          congr 1
          apply List.map_congr_left
          intro j _
          change _ = (i + (j + 1)) % 2 ^ 32
          omega
        · intro x hx
          rcases List.mem_append.mp hx with hnow | hlater
          · obtain rfl := List.mem_singleton.mp hnow
            exact ⟨_, List.getElem?_eq_getElem hlt, rfl⟩
          · exact hlisted x hlater
      · have hstep : machine.step s cmd = _ := onMessage_of_le hcmd (Nat.le_of_not_lt hlt)
        rw [hstep] at hfirst
        cases hfirst
    · have hstep : machine.step s cmd = .ok (s, []) := onMessage_of_ne hcmd
      rw [hstep] at hfirst
      cases hfirst
      rw [inUse_cons_of_ne hcmd]
      exact ih hi htail

end

/-- Counting modulo `w` goes up as long as it does not pass `w`. -/
theorem pairwise_range_mod_iff {w n : ℕ} (hw : 0 < w) :
    ((List.range n).map fun j => j % w).Pairwise (· < ·) ↔ n ≤ w := by
  rw [List.pairwise_map]
  constructor
  · intro h
    by_contra hlt
    have hpair := List.pairwise_iff_getElem.mp h 0 w (by rw [List.length_range]; omega)
      (by rw [List.length_range]; omega) hw
    simp at hpair
  · intro h
    refine List.pairwise_lt_range.imp_of_mem ?_
    intro a b ha hb hab
    have ha' := List.mem_range.mp ha
    have hb' := List.mem_range.mp hb
    rwa [Nat.mod_eq_of_lt (by omega), Nat.mod_eq_of_lt (by omega)]

theorem inUse_filter (replies : List IRCMessage) : inUse (replies.filter filter) = inUse replies := by
  rw [inUse, List.countP_filter]
  apply List.countP_congr
  intro cmd _
  simp only [filter, Bool.and_eq_true, decide_eq_true_eq]
  tauto

/-- The alternative nicks are tried in order and without a fault exactly if no more replies
report a nick in use than there are alternatives, and the index does not wrap. -/
theorem nick_fallback_iff (config : InitConfig) (replies : List IRCMessage) :
    (∃ t sent, machine.run (onInit ⟨config, [], 0⟩).1 (replies.filter filter) = .ok (t, sent) ∧
      InOrder config.alternativeNicks sent) ↔
    inUse replies ≤ config.alternativeNicks.length ∧ inUse replies ≤ 2 ^ 32 := by
  obtain ⟨s, hs⟩ : ∃ s, (onInit ⟨config, [], 0⟩).1 = s := ⟨_, rfl⟩
  have hnicks : s.altNicks = config.alternativeNicks := by rw [← hs]; rfl
  have hindex : s.altNicksIndex.toNat = 0 % 2 ^ 32 := by rw [← hs]; rfl
  rw [hs, ← inUse_filter replies]
  obtain ⟨rs, hrs⟩ : ∃ rs, replies.filter filter = rs := ⟨_, rfl⟩
  rw [hrs]
  have hok : (∃ r, machine.run s rs = .ok r) ↔ _ := run_ok_iff hindex
  constructor
  · rintro ⟨t, sent, hrun, hinorder⟩
    obtain ⟨hentries, -⟩ := run_entries hindex hrun
    have horder : ((List.range (inUse rs)).map fun j => j % 2 ^ 32).Pairwise (· < ·) := by
      simp only [Nat.zero_add] at hentries
      rw [← hentries, List.pairwise_map]
      exact hinorder.order.imp fun hlt => UInt32.lt_iff_toNat_lt.mp hlt
    have hwrap := (pairwise_range_mod_iff (by omega)).mp horder
    refine ⟨?_, hwrap⟩
    by_contra hmany
    have hlast := hok.mp ⟨_, hrun⟩ (inUse rs - 1) (by omega)
    rw [hnicks] at hlast
    omega
  · rintro ⟨hmany, hwrap⟩
    obtain ⟨⟨t, sent⟩, hrun⟩ := hok.mpr fun j hj => by rw [hnicks]; omega
    obtain ⟨hentries, hlisted⟩ := run_entries hindex hrun
    refine ⟨t, sent, hrun, hnicks ▸ hlisted, ?_⟩
    have horder := (pairwise_range_mod_iff (w := 2 ^ 32) (by omega)).mpr hwrap
    simp only [Nat.zero_add] at hentries
    rw [← hentries, List.pairwise_map] at horder
    exact horder.imp fun hlt => UInt32.lt_iff_toNat_lt.mpr hlt

/-- With one alternative nick, the second reply reads beyond the list. -/
theorem nick_fallback_fault : ¬ ∀ (config : InitConfig) (replies : List IRCMessage),
    ∃ t sent, machine.run (onInit ⟨config, [], 0⟩).1 (replies.filter filter) = .ok (t, sent) ∧
      InOrder config.alternativeNicks sent := by
  intro h
  obtain ⟨t, sent, hrun, -⟩ := h ⟨text ['b'], text ['b'], text ['b'], [text ['c']]⟩
    [{ command := nicknameInUse }, { command := nicknameInUse }]
  have hfault : machine.run (onInit ⟨⟨text ['b'], text ['b'], text ['b'], [text ['c']]⟩, [], 0⟩).1
      ([{ command := nicknameInUse }, { command := nicknameInUse }].filter filter) =
      .error .outOfRange := by decide
  rw [hfault] at hrun
  cases hrun

end Init
end IrcBot.Plugins

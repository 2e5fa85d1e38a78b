import IrcBot.Machine.Fallible
import IrcBot.Plugins.Helpers
import Mathlib.Logic.Function.Basic

/-! The clipboard plugin: a list of entries for each channel and for each nick, with commands
to append an entry, to show the list, and to remove the entry at an index. -/
namespace IrcBot.Plugins
open Irc

structure ClipboardConfig where
  size : ℕ
  messageSize : ℕ
  deriving DecidableEq, Repr

/-- `lists` is the map `m_clipboard`. -/
structure Clipboard where
  lists : Bytes → Option (List Bytes)
  size : ℕ
  messageSize : ℕ

/-- `static_cast<int>` of a `size_t` -/
def intOfSize (n : ℕ) : ℤ := Int.bmod n (2 ^ 32)

def privmsgTo (name content : Bytes) : IRCMessage :=
  { command := Plugin.privmsg, params := [name, content] }

theorem intOfSize_le (n : ℕ) : intOfSize n ≤ n := by
  unfold intOfSize
  rw [Int.bmod_def]
  split_ifs <;> omega

theorem intOfSize_of_lt {n : ℕ} (h : n < 2 ^ 31) : intOfSize n = n := by
  unfold intOfSize
  rw [Int.bmod_def]
  omega

namespace Clipboard

/-- `"!clip"` -/
def clip : Bytes := text ['!', 'c', 'l', 'i', 'p']
/-- `"!clip "` -/
def clipSave : Bytes := text ['!', 'c', 'l', 'i', 'p', ' ']
/-- `"!clip-ls"` -/
def clipLs : Bytes := text ['!', 'c', 'l', 'i', 'p', '-', 'l', 's']
/-- `"!clip-help"` -/
def clipHelp : Bytes := text ['!', 'c', 'l', 'i', 'p', '-', 'h', 'e', 'l', 'p']
/-- `"!clip-rm"` -/
def clipRm : Bytes := text ['!', 'c', 'l', 'i', 'p', '-', 'r', 'm']

/-- The constructor does not read the configuration. -/
def new (_ : ClipboardConfig) : Clipboard := { lists := fun _ => none, size := 10, messageSize := 512 }

def onNewConfiguration (c : Clipboard) (config : ClipboardConfig) : Clipboard :=
  { c with size := config.size, messageSize := config.messageSize }

/-- The entries stored under a key; a key without a list has none. -/
def list (c : Clipboard) (key : Bytes) : List Bytes := (c.lists key).getD []

def put (c : Clipboard) (key : Bytes) (entries : List Bytes) : Clipboard :=
  { c with lists := Function.update c.lists key (some entries) }

/-- `m_clipboard[key]` inserts an empty list where there is none. -/
def touch (c : Clipboard) (key : Bytes) : Clipboard := c.put key (c.list key)

/-- Channels share a clipboard, everybody else has one under the nick. -/
def keyOf (target nick : Bytes) : Bytes :=
  if firstChar target ∈ text ['+', '&', '#', '!'] then target else nick

def save (c : Clipboard) (name content : Bytes) : Clipboard × List IRCMessage :=
  if content.length > c.messageSize then
    (c, [privmsgTo name (text "Your message is too big. Limit is ".toList ++ decimal c.messageSize
      ++ text " bytes.".toList)])
  else if (c.list name).length < c.size then (c.put name (c.list name ++ [content]), [])
  else
    (c.touch name,
      [privmsgTo name (text "You have no free slots in clipboard! Remove something!".toList)])

def ls (c : Clipboard) (name : Bytes) : Clipboard × List IRCMessage :=
  (c.touch name, privmsgTo name (text "This is your clipboard:".toList) ::
    (c.list name).mapIdx fun i content =>
      privmsgTo name (decimal i ++ text [' ', '$', ' '] ++ content))

def help (name : Bytes) : IRCMessage :=
  privmsgTo name (text "Commands: !clip - save to clipboard,".toList
    ++ text "!clip-help - this message, ".toList ++ text "!clip-ls - list clipboard content, ".toList
    ++ text "!clip-rm $index - remove paste with number $index".toList)

/-- `index` is compared as a signed number, and added to `begin` whatever its sign. -/
def eraseAt (c : Clipboard) (name : Bytes) (index : ℤ) :
    Except Fault (Clipboard × List IRCMessage) :=
  if index < intOfSize (c.list name).length then
    if index < 0 then .error .badErase
    else .ok (c.put name ((c.list name).eraseIdx index.toNat), [])
  else .ok (c.touch name, [privmsgTo name (text "Index is too large!".toList)])

def rm (c : Clipboard) (name data : Bytes) : Except Fault (Clipboard × List IRCMessage) := do
  let number ← substr data 9
  let index ← stoi number
  c.eraseAt name index

/-- The branches on the text of the message. -/
def handle (c : Clipboard) (name data : Bytes) : Except Fault (Clipboard × List IRCMessage) :=
  if data.take 5 = clip then
    if data.getD 5 Chr.nul = Chr.space then do
      let content ← substr data 6
      return c.save name content
    else if startsWith data clipLs then .ok (c.ls name)
    else if startsWith data clipHelp then .ok (c, [help name])
    else if startsWith data clipRm then c.rm name data
    else .ok (c, [])
  else .ok (c, [])

def onMessage (c : Clipboard) (cmd : IRCMessage) : Except Fault (Clipboard × List IRCMessage) := do
  let target ← param cmd 0
  let name := keyOf target cmd.nick
  let data ← param cmd 1
  c.handle name data

def filter (cmd : IRCMessage) : Bool := cmd.command = Plugin.privmsg

def machine : Machine.Fallible Fault Clipboard IRCMessage IRCMessage := ⟨onMessage⟩

/-- The key of a message. -/
def key (cmd : IRCMessage) : Bytes := keyOf (cmd.params[0]?.getD []) cmd.nick

/-- The text of a message. -/
def data (cmd : IRCMessage) : Bytes := cmd.params[1]?.getD []

section
variable {c d : Clipboard} {cmd : IRCMessage} {out : List IRCMessage} {name data k : Bytes}

@[simp] theorem list_put_self (entries : List Bytes) : (c.put k entries).list k = entries := by
  change (Function.update c.lists k (some entries) k).getD [] = entries
  rw [Function.update_self, Option.getD_some]

theorem list_put_ne {k' : Bytes} (h : k' ≠ k) (entries : List Bytes) :
    (c.put k entries).list k' = c.list k' := by
  change (Function.update c.lists k (some entries) k').getD [] = c.list k'
  rw [Function.update_of_ne h]
  rfl

@[simp] theorem list_touch (k k' : Bytes) : (c.touch k).list k' = c.list k' := by
  by_cases h : k' = k
  · rw [h, touch, list_put_self]
  · exact list_put_ne h _

/-- A fault-free step has a key and a text. -/
theorem onMessage_eq_ok (h : c.onMessage cmd = .ok (d, out)) :
    2 ≤ cmd.params.length ∧ c.handle (key cmd) (Clipboard.data cmd) = .ok (d, out) := by
  unfold onMessage at h
  by_cases hzero : 0 < cmd.params.length
  · rw [param_of_lt hzero] at h
    by_cases hone : 1 < cmd.params.length
    · rw [param_of_lt hone] at h
      refine ⟨hone, ?_⟩
      rw [key, Clipboard.data, List.getElem?_eq_getElem hzero, List.getElem?_eq_getElem hone]
      exact h
    · rw [param_of_le (by omega)] at h
      cases h
  · rw [param_of_le (by omega)] at h
    cases h

theorem onMessage_of_two (h : 2 ≤ cmd.params.length) :
    c.onMessage cmd = c.handle (key cmd) (Clipboard.data cmd) := by
  have hzero : 0 < cmd.params.length := by omega
  have hone : 1 < cmd.params.length := h
  rw [onMessage, param_of_lt hzero, param_of_lt hone, key, Clipboard.data,
    List.getElem?_eq_getElem hzero, List.getElem?_eq_getElem hone]
  rfl

theorem startsWith_iff {start : Bytes} : startsWith data start = true ↔ start <+: data := by
  rw [startsWith, decide_eq_true_eq, List.prefix_iff_eq_take, eq_comm]

theorem handle_save (content : Bytes) :
    c.handle name (clipSave ++ content) = .ok (c.save name content) := by
  have htake : (clipSave ++ content).take 5 = clip := rfl
  have hspace : (clipSave ++ content).getD 5 Chr.nul = Chr.space := rfl
  have hsubstr : substr (clipSave ++ content) 6 = .ok content := by
    rw [substr, if_pos (by rw [List.length_append]; exact Nat.le_add_right _ _)]
    rfl
  rw [handle, if_pos htake, if_pos hspace, hsubstr]
  rfl

theorem handle_rm (h : clipRm <+: data) : c.handle name data = c.rm name data := by
  obtain ⟨suffix, rfl⟩ := h
  have htake : (clipRm ++ suffix).take 5 = clip := rfl
  have hspace : ¬ (clipRm ++ suffix).getD 5 Chr.nul = Chr.space := by
    change ¬ Chr.dash = Chr.space
    decide
  have hls : ¬ startsWith (clipRm ++ suffix) clipLs = true := by
    rw [startsWith, decide_eq_true_eq]
    change ¬ clipRm = clipLs
    decide
  have hhelp : ¬ startsWith (clipRm ++ suffix) clipHelp = true := by
    rw [startsWith_iff]
    rintro ⟨rest, hrest⟩
    have hsix := congrArg (·.getD 6 Chr.nul) hrest
    exact absurd hsix (by change ¬ (0x68 : Byte) = 0x72; decide)
  rw [handle, if_pos htake, if_neg hspace, if_neg hls, if_neg hhelp,
    if_pos (startsWith_iff.mpr ⟨suffix, rfl⟩)]

/-- A text that neither saves nor removes changes no list, but may make an empty one. -/
theorem handle_other (c : Clipboard) (name : Bytes) (hsave : ¬ clipSave <+: data) (hrm : ¬ clipRm <+: data) :
    ∃ d out, c.handle name data = .ok (d, out) ∧ (d = c ∨ d = c.touch name) := by
  unfold handle
  by_cases htake : data.take 5 = clip
  · rw [if_pos htake]
    have hspace : ¬ data.getD 5 Chr.nul = Chr.space := by
      intro hspace
      apply hsave
      have hsplit := List.take_append_drop 5 data
      rw [htake] at hsplit
      cases hrest : data.drop 5 with
      | nil =>
        rw [hrest] at hsplit
        rw [← hsplit] at hspace
        exact absurd hspace (by decide)
      | cons x rest =>
        rw [hrest] at hsplit
        have hx : x = Chr.space := by
          rw [← hsplit] at hspace
          exact hspace
        rw [← hsplit, hx]
        exact ⟨rest, rfl⟩
    rw [if_neg hspace]
    by_cases hls : startsWith data clipLs = true
    · rw [if_pos hls]
      exact ⟨_, _, rfl, .inr rfl⟩
    · rw [if_neg hls]
      by_cases hhelp : startsWith data clipHelp = true
      · rw [if_pos hhelp]
        exact ⟨_, _, rfl, .inl rfl⟩
      · rw [if_neg hhelp, if_neg fun h => hrm (startsWith_iff.mp h)]
        exact ⟨_, _, rfl, .inl rfl⟩
  · rw [if_neg htake]
    exact ⟨_, _, rfl, .inl rfl⟩

theorem save_list (content : Bytes) : (c.save name content).1.list name =
    if content.length ≤ c.messageSize ∧ (c.list name).length < c.size then
      c.list name ++ [content] else c.list name := by
  unfold save
  by_cases hlong : content.length > c.messageSize
  · rw [if_pos hlong, if_neg fun h => Nat.not_le_of_gt hlong h.1]
  · rw [if_neg hlong]
    by_cases hfree : (c.list name).length < c.size
    · rw [if_pos hfree, if_pos ⟨Nat.le_of_not_gt hlong, hfree⟩, list_put_self]
    · rw [if_neg hfree, if_neg fun h => hfree h.2, list_touch]

theorem save_cases (content : Bytes) : (c.save name content).1 = c ∨
    ∃ entries, (c.save name content).1 = c.put name entries := by
  unfold save
  split_ifs
  · exact .inl rfl
  · exact .inr ⟨_, rfl⟩
  · exact .inr ⟨_, rfl⟩

theorem rm_of_short (h : data.length < 9) : c.rm name data = .error .exception := by
  rw [rm, substr, if_neg (by omega)]
  rfl

theorem rm_of_stoi_error (hlen : 9 ≤ data.length) (h : ∀ n, stoi (data.drop 9) ≠ .ok n) :
    c.rm name data = .error .exception := by
  rw [rm, substr, if_pos hlen]
  change (stoi (data.drop 9) >>= c.eraseAt name) = _
  rw [stoi_eq_error h]
  rfl

theorem rm_of_stoi {n : ℤ} (hlen : 9 ≤ data.length) (h : stoi (data.drop 9) = .ok n) :
    c.rm name data = c.eraseAt name n := by
  rw [rm, substr, if_pos hlen]
  change (stoi (data.drop 9) >>= c.eraseAt name) = _
  rw [h, bind_ok]

/-- Removal that ends without a fault takes one entry out of the list or leaves it. -/
theorem rm_cases (h : c.rm name data = .ok (d, out)) : d = c.touch name ∨
    ∃ i < (c.list name).length, d = c.put name ((c.list name).eraseIdx i) := by
  by_cases hlen : 9 ≤ data.length
  · by_cases hstoi : ∃ n, stoi (data.drop 9) = .ok n
    · obtain ⟨n, hn⟩ := hstoi
      rw [rm_of_stoi hlen hn, eraseAt] at h
      have hsize := intOfSize_le (c.list name).length
      split_ifs at h with hlt hneg
      · cases h
        exact .inr ⟨n.toNat, by omega, rfl⟩
      · cases h
        exact .inl rfl
    · rw [rm_of_stoi_error hlen fun n hn => hstoi ⟨n, hn⟩] at h
      cases h
  · rw [rm_of_short (by omega)] at h
    cases h

/-- Whatever the text, a step without a fault writes to no other key. -/
theorem handle_cases (h : c.handle name data = .ok (d, out)) :
    d = c ∨ ∃ entries, d = c.put name entries := by
  by_cases hsave : clipSave <+: data
  · obtain ⟨content, rfl⟩ := hsave
    rw [handle_save] at h
    have hd : (c.save name content).1 = d := congrArg Prod.fst (Except.ok.inj h)
    rw [← hd]
    exact save_cases content
  · by_cases hrm : clipRm <+: data
    · rw [handle_rm hrm] at h
      rcases rm_cases h with rfl | ⟨i, -, rfl⟩
      · exact .inr ⟨_, rfl⟩
      · exact .inr ⟨_, rfl⟩
    · obtain ⟨d', out', hother, hd⟩ := handle_other c name hsave hrm
      rw [hother] at h
      obtain ⟨rfl, -⟩ := Prod.mk.inj (Except.ok.inj h)
      exact hd.imp id fun htouch => ⟨_, htouch⟩

end

end Clipboard
end IrcBot.Plugins

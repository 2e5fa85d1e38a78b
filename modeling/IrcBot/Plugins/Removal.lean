import IrcBot.Plugins.Isolation

/-! Removal of an entry. The number is read from the tenth character on, by a function that
throws where there is none, and compared with the size as a signed number. -/
namespace IrcBot.Plugins.Clipboard
open Irc

/-- The text after `"!clip-rm "`, if the message has one. -/
def argument (text : Bytes) : Option Bytes :=
  if clipRm ++ [Chr.space] <+: text then some (text.drop 9) else none

/-- An argument that names no entry of a list of the size. -/
def NamesNone (size : ℕ) : Option Bytes → Prop
  | none => True
  | some arg => ∀ n, leadingInteger arg = some n → n < 0 ∨ ¬ IntRange n ∨ (size : ℤ) ≤ n

/-- The message is handled; it removes the entry that its argument names, if it names one, and
leaves the list if it names none. -/
structure RemovesExactly (c : Clipboard) (cmd : IRCMessage) (d : Clipboard) : Prop where
  named : ∀ i < (c.list (key cmd)).length, argument (data cmd) = some (decimal i) →
    d.list (key cmd) = (c.list (key cmd)).eraseIdx i
  unnamed : NamesNone (c.list (key cmd)).length (argument (data cmd)) →
    d.list (key cmd) = c.list (key cmd)
  others : ∀ k, k ≠ key cmd → d.list k = c.list k

/-- A number is read, it is not negative if it is below the size, and a number below the
size stands after a space; a size that `int` does not hold is not taken for less than an
index it has. -/
def Removable (size : ℕ) (text : Bytes) : Prop :=
  9 ≤ text.length ∧ ∃ n, leadingInteger (text.drop 9) = some n ∧ IntRange n ∧
    (n < intOfSize size → 0 ≤ n ∧ clipRm ++ [Chr.space] <+: text) ∧
    (intOfSize size ≤ n → clipRm ++ [Chr.space] <+: text → ∀ i < size, text.drop 9 ≠ decimal i)

/-- The messages of `ls` show the entries under the numbers that removal takes. -/
theorem ls_shows (c : Clipboard) (name : Bytes) (i : ℕ) :
    (c.ls name).2[i + 1]? = (c.list name)[i]?.map fun content =>
      privmsgTo name (decimal i ++ text [' ', '$', ' '] ++ content) := by
  rw [ls, List.getElem?_cons_succ, List.getElem?_mapIdx]

section
variable {c d : Clipboard} {cmd : IRCMessage} {out : List IRCMessage} {n : ℤ}

theorem onMessage_rm (hlen : 2 ≤ cmd.params.length) (hrm : clipRm <+: data cmd) :
    c.onMessage cmd = c.rm (key cmd) (data cmd) := by
  rw [onMessage_of_two hlen, handle_rm hrm]

/-- A text that ends with the command faults, and one without a number that `int` holds. -/
theorem number_of_ok (h : c.rm (key cmd) (data cmd) = .ok (d, out)) : 9 ≤ (data cmd).length ∧
    ∃ n, leadingInteger ((data cmd).drop 9) = some n ∧ IntRange n := by
  by_cases hlen : 9 ≤ (data cmd).length
  · by_cases hstoi : ∃ n, stoi ((data cmd).drop 9) = .ok n
    · obtain ⟨n, hn⟩ := hstoi
      exact ⟨hlen, n, stoi_eq_ok_iff.mp hn⟩
    · rw [rm_of_stoi_error hlen fun n hn => hstoi ⟨n, hn⟩] at h
      cases h
  · rw [rm_of_short (by omega)] at h
    cases h

theorem argument_of_space {text : Bytes} (h : clipRm ++ [Chr.space] <+: text) :
    argument text = some (text.drop 9) := if_pos h

theorem argument_of_not {text : Bytes} (h : ¬ clipRm ++ [Chr.space] <+: text) :
    argument text = none := if_neg h

/-- Removing the entry `n` is right exactly if it was asked for. -/
theorem removesExactly_put (hspace : 0 ≤ n) (hlt : n < (c.list (key cmd)).length)
    (hn : leadingInteger ((data cmd).drop 9) = some n) (hrange : IntRange n) :
    RemovesExactly c cmd (c.put (key cmd) ((c.list (key cmd)).eraseIdx n.toNat)) ↔
      clipRm ++ [Chr.space] <+: data cmd := by
  constructor
  · intro h
    by_contra hnot
    have hsame := h.unnamed (by rw [argument_of_not hnot]; trivial)
    have hlen := congrArg List.length hsame
    rw [list_put_self, List.length_eraseIdx_of_lt (by omega)] at hlen
    omega
  · intro h
    refine ⟨?_, ?_, fun k hk => list_put_ne hk _⟩
    · intro i _ harg
      rw [argument_of_space h] at harg
      rw [Option.some.inj harg, leadingInteger_decimal] at hn
      have hi : (i : ℤ) = n := Option.some.inj hn
      rw [list_put_self, ← hi, Int.toNat_natCast]
    · intro hnone
      rw [argument_of_space h] at hnone
      rcases hnone n hn with hneg | hbig | hlarge
      · omega
      · exact (hbig hrange).elim
      · omega

/-- Leaving the list is right exactly if no entry of it was asked for. -/
theorem removesExactly_touch : RemovesExactly c cmd (c.touch (key cmd)) ↔
    (clipRm ++ [Chr.space] <+: data cmd →
      ∀ i < (c.list (key cmd)).length, (data cmd).drop 9 ≠ decimal i) := by
  constructor
  · intro h hspace i hi hdrop
    have hgone := h.named i hi (by rw [argument_of_space hspace, hdrop])
    have hlen := congrArg List.length hgone
    rw [list_touch, List.length_eraseIdx_of_lt hi] at hlen
    omega
  · intro h
    refine ⟨?_, fun _ => list_touch _ _, fun k _ => list_touch _ k⟩
    intro i hi harg
    by_cases hspace : clipRm ++ [Chr.space] <+: data cmd
    · rw [argument_of_space hspace] at harg
      exact (h hspace i hi (Option.some.inj harg)).elim
    · rw [argument_of_not hspace] at harg
      cases harg

theorem exists_ok_iff {P : Clipboard → Prop} : (∃ d' out',
    (Except.ok (d, out) : Except Fault (Clipboard × List IRCMessage)) = .ok (d', out') ∧ P d') ↔
      P d := by
  constructor
  · rintro ⟨d', out', heq, h⟩
    cases heq
    exact h
  · intro h
    exact ⟨d, out, rfl, h⟩

/-- The outcome for a number, by its place between zero and the size. -/
theorem removesExactly_number (hlen : 9 ≤ (data cmd).length)
    (hn : leadingInteger ((data cmd).drop 9) = some n) (hrange : IntRange n) :
    (∃ d out, c.rm (key cmd) (data cmd) = .ok (d, out) ∧ RemovesExactly c cmd d) ↔
      (n < intOfSize (c.list (key cmd)).length → 0 ≤ n ∧ clipRm ++ [Chr.space] <+: data cmd) ∧
      (intOfSize (c.list (key cmd)).length ≤ n → clipRm ++ [Chr.space] <+: data cmd →
        ∀ i < (c.list (key cmd)).length, (data cmd).drop 9 ≠ decimal i) := by
  have hsize := intOfSize_le (c.list (key cmd)).length
  rw [rm_of_stoi hlen (stoi_eq_ok_iff.mpr ⟨hn, hrange⟩), eraseAt]
  by_cases hlt : n < intOfSize (c.list (key cmd)).length
  · rw [if_pos hlt]
    by_cases hneg : n < 0
    · rw [if_pos hneg]
      refine iff_of_false ?_ fun h => by have := (h.1 hlt).1; omega
      rintro ⟨d, out, heq, -⟩
      cases heq
    · rw [if_neg hneg, exists_ok_iff, removesExactly_put (by omega) (by omega) hn hrange]
      constructor
      · intro hspace
        exact ⟨fun _ => ⟨by omega, hspace⟩, fun hge => by omega⟩
      · intro h
        exact (h.1 hlt).2
  · rw [if_neg hlt, exists_ok_iff, removesExactly_touch]
    constructor
    · intro h
      exact ⟨fun hlt' => (hlt hlt').elim, fun _ => h⟩
    · intro h
      exact h.2 (by omega)

end

/-- Removal does what the message asks for exactly if the text is one of these. -/
theorem removal_iff {c : Clipboard} {cmd : IRCMessage} (hparams : 2 ≤ cmd.params.length)
    (hrm : clipRm <+: data cmd) :
    (∃ d out, c.onMessage cmd = .ok (d, out) ∧ RemovesExactly c cmd d) ↔
      Removable (c.list (key cmd)).length (data cmd) := by
  rw [onMessage_rm hparams hrm]
  constructor
  · rintro ⟨d, out, hok, hexact⟩
    obtain ⟨hlen, n, hn, hrange⟩ := number_of_ok hok
    exact ⟨hlen, n, hn, hrange, (removesExactly_number hlen hn hrange).mp ⟨d, out, hok, hexact⟩⟩
  · rintro ⟨hlen, n, hn, hrange, hcond⟩
    exact (removesExactly_number hlen hn hrange).mpr hcond

/-- For a list that is not too long for an `int`, the last condition says nothing. -/
theorem removable_iff {size : ℕ} (hsize : size < 2 ^ 31) (text : Bytes) : Removable size text ↔
    9 ≤ text.length ∧ ∃ n, leadingInteger (text.drop 9) = some n ∧ IntRange n ∧
      (n < size → 0 ≤ n ∧ clipRm ++ [Chr.space] <+: text) := by
  unfold Removable
  rw [intOfSize_of_lt hsize]
  constructor
  · rintro ⟨hlen, n, hn, hrange, hlow, -⟩
    exact ⟨hlen, n, hn, hrange, hlow⟩
  · rintro ⟨hlen, n, hn, hrange, hlow⟩
    refine ⟨hlen, n, hn, hrange, hlow, ?_⟩
    intro hge _ i hi hdrop
    rw [hdrop, leadingInteger_decimal] at hn
    have hin : (i : ℤ) = n := Option.some.inj hn
    omega

/-- A message from `a` to the bot that removes. -/
def removeMessage (rest : Bytes) : IRCMessage :=
  { nick := text ['a'], command := Plugin.privmsg, params := [text ['b'], clipRm ++ rest] }

/-- A clipboard with one entry under `a`. -/
def single : Clipboard := (new ⟨5, 20⟩).put (text ['a']) [text ['x']]

theorem removal_first :
    ∃ d out, single.onMessage (removeMessage (text [' ', '0'])) = .ok (d, out) ∧
      RemovesExactly single (removeMessage (text [' ', '0'])) d := by
  refine (removal_iff (le_refl 2) ⟨text [' ', '0'], rfl⟩).mpr ?_
  rw [removable_iff (by decide)]
  exact ⟨by decide, 0, by decide, by decide, fun _ => ⟨by decide, [0x30], rfl⟩⟩

/-- Without an argument the handler throws. -/
theorem removal_throws : ¬ ∀ (c : Clipboard) (cmd : IRCMessage), 2 ≤ cmd.params.length →
    clipRm <+: data cmd →
      ∃ d out, c.onMessage cmd = .ok (d, out) ∧ RemovesExactly c cmd d := by
  intro h
  obtain ⟨d, out, hok, -⟩ := h single (removeMessage []) (le_refl 2) ⟨[], rfl⟩
  rw [onMessage_rm (le_refl 2) ⟨[], rfl⟩] at hok
  exact absurd (number_of_ok hok).1 (by decide)

end IrcBot.Plugins.Clipboard

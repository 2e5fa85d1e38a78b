import Mathlib.Data.List.Basic

/-! Bytes and byte strings, the character constants of the sources and the
character classes of the lexer. -/
namespace IrcBot

abbrev Byte := UInt8
abbrev Bytes := List UInt8

/-- Byte string of a list of ASCII characters. -/
def text (cs : List Char) : Bytes := cs.map fun c => UInt8.ofNat c.toNat

namespace Chr

abbrev nul : Byte := 0x00
abbrev lf : Byte := 0x0a
abbrev cr : Byte := 0x0d
abbrev space : Byte := 0x20
abbrev bang : Byte := 0x21
abbrev dquote : Byte := 0x22
abbrev quote : Byte := 0x27
abbrev dash : Byte := 0x2d
abbrev colon : Byte := 0x3a
abbrev atSign : Byte := 0x40
abbrev backslash : Byte := 0x5c

end Chr

/-- `'0' <= x and x <= '9'` -/
def isDigit (x : Byte) : Bool := 0x30 ≤ x && x ≤ 0x39

/-- `('a' <= x and x <= 'z') or ('A' <= x and x <= 'Z')` -/
def isLetter (x : Byte) : Bool := (0x61 ≤ x && x ≤ 0x7a) || (0x41 ≤ x && x ≤ 0x5a)

theorem not_isLetter_of_isDigit {x : Byte} (h : isDigit x = true) : isLetter x = false := by
  simp only [isDigit, isLetter, Bool.and_eq_true, decide_eq_true_eq, Bool.or_eq_false_iff,
    Bool.and_eq_false_iff, decide_eq_false_iff_not, UInt8.le_iff_toNat_le] at h ⊢
  have h1 : x.toNat ≤ 57 := h.2
  constructor <;> left <;> intro h2
  · have h3 : 97 ≤ x.toNat := h2
    omega
  · have h3 : 65 ≤ x.toNat := h2
    omega

end IrcBot

import IrcBot.Plugin.Plugin
import Mathlib.Algebra.Group.Int.Defs
import Mathlib.Algebra.Group.Nat.Defs
import Mathlib.Data.Int.Notation
import Mathlib.Data.List.TakeWhile

/-! What the sources of the plugins share: the ways their code can fail, the accesses to the
parameters of a message, `helpers.cpp`, and the conversions between numbers and strings of
the standard library. -/
namespace IrcBot.Plugins
open Irc

/-- What ends the handling of a message: an index beyond the end of a vector or an `erase` in
front of its begin, both undefined, or an exception. -/
inductive Fault
  | outOfRange | badErase | exception
  deriving DecidableEq, Repr

/-- `msg.params[i]` -/
def param (msg : IRCMessage) (i : ℕ) : Except Fault Bytes :=
  match msg.params[i]? with
  | none => .error .outOfRange
  | some p => .ok p

/-- `msg.params.back()` -/
def lastParam (msg : IRCMessage) : Except Fault Bytes :=
  match msg.params.getLast? with
  | none => .error .outOfRange
  | some p => .ok p

/-- The first character of a string; of an empty string it is `'\0'`. -/
def firstChar (s : Bytes) : Byte := s.headD Chr.nul

/-- `s.substr(pos)` -/
def substr (s : Bytes) (pos : ℕ) : Except Fault Bytes :=
  if pos ≤ s.length then .ok (s.drop pos) else .error .exception

def startsWith (str start : Bytes) : Bool := str.take start.length = start

def responseDestination (msg : IRCMessage) (priv : Bool := false) : Except Fault Bytes := do
  if ¬ priv ∧ msg.command = Plugin.privmsg then
    let target ← param msg 0
    if firstChar target ∈ text ['#', '&', '+'] then return target
  return msg.nick

/-- A number as `std::to_string` and the output streams write it. -/
def decimal (n : ℕ) : Bytes := text (Nat.toDigits 10 n)

/-- `std::isspace` -/
def isSpace (x : Byte) : Bool := x = Chr.space || (0x09 ≤ x && x ≤ 0x0d)

/-- The number that a row of digits stands for. -/
def digitsValue (digits : Bytes) : ℕ := digits.foldl (fun n x => 10 * n + (x.toNat - 48)) 0

/-- Space characters, a sign and the digits after it; what follows is not read. -/
def leadingInteger (s : Bytes) : Option ℤ :=
  let unsigned (s : Bytes) : Option ℕ :=
    let digits := s.takeWhile isDigit
    if digits = [] then none else some (digitsValue digits)
  match s.dropWhile isSpace with
  | 0x2d :: s => (unsigned s).map fun n => -(n : ℤ)
  | 0x2b :: s => (unsigned s).map fun n => (n : ℤ)
  | s => (unsigned s).map fun n => (n : ℤ)

/-- The values of `int`. -/
def IntRange (n : ℤ) : Prop := -2 ^ 31 ≤ n ∧ n < 2 ^ 31

instance (n : ℤ) : Decidable (IntRange n) := inferInstanceAs (Decidable (_ ∧ _))

/-- `std::stoi`, which throws `std::invalid_argument` or `std::out_of_range`. -/
def stoi (s : Bytes) : Except Fault ℤ :=
  match leadingInteger s with
  | none => .error .exception
  | some n => if IntRange n then .ok n else .error .exception

theorem bind_ok {α β : Type} (a : α) (f : α → Except Fault β) : (Except.ok a >>= f) = f a := rfl

theorem bind_pure_ne_iff {α β : Type} {x : Except Fault α} {g : α → β} {e : Fault} :
    (x >>= fun a => pure (g a)) ≠ .error e ↔ x ≠ .error e := by
  cases x with
  | error e' =>
    change (Except.error e' : Except Fault β) ≠ .error e ↔ _
    rw [Ne, Ne, Except.error.injEq, Except.error.injEq]
  | ok a => exact iff_of_true nofun nofun

example : stoi (text " +12x".toList) = .ok 12 := by decide

section
variable {msg : IRCMessage} {i : ℕ}

theorem param_of_lt (h : i < msg.params.length) : param msg i = .ok msg.params[i] := by
  rw [param, List.getElem?_eq_getElem h]

theorem param_of_le (h : msg.params.length ≤ i) : param msg i = .error .outOfRange := by
  rw [param, List.getElem?_eq_none h]

theorem bind_param_ne_iff {α : Type} {f : Bytes → Except Fault α} :
    (param msg i >>= f) ≠ .error .outOfRange ↔
      ∃ h : i < msg.params.length, f msg.params[i] ≠ .error .outOfRange := by
  by_cases h : i < msg.params.length
  · rw [param_of_lt h, bind_ok]
    exact ⟨fun hf => ⟨h, hf⟩, fun ⟨_, hf⟩ => hf⟩
  · rw [param_of_le (Nat.le_of_not_lt h)]
    exact iff_of_false (fun hne => hne rfl) fun hex => h hex.1

theorem lastParam_ne_iff : lastParam msg ≠ .error .outOfRange ↔ 1 ≤ msg.params.length := by
  unfold lastParam
  cases h : msg.params.getLast? with
  | none =>
    rw [List.getLast?_eq_none_iff.mp h]
    exact iff_of_false (fun hne => hne rfl) (by simp)
  | some p =>
    have hne : msg.params ≠ [] := by
      rintro hnil
      rw [hnil] at h
      cases h
    exact iff_of_true nofun (List.length_pos_iff.mpr hne)

theorem responseDestination_ne_iff : responseDestination msg ≠ .error .outOfRange ↔
    (msg.command = Plugin.privmsg → 1 ≤ msg.params.length) := by
  by_cases hcmd : msg.command = Plugin.privmsg
  · rw [responseDestination, if_pos ⟨by decide, hcmd⟩]
    rw [bind_param_ne_iff]
    constructor
    · rintro ⟨hlen, -⟩ -
      exact hlen
    · intro h
      refine ⟨h hcmd, ?_⟩
      dsimp only
      split <;> nofun
  · rw [responseDestination, if_neg fun h => hcmd h.2]
    exact iff_of_true nofun fun h => (hcmd h).elim

end

/-- A string that is not a number, or a number `int` does not hold, has no value. -/
theorem stoi_eq_ok_iff {s : Bytes} {n : ℤ} :
    stoi s = .ok n ↔ leadingInteger s = some n ∧ IntRange n := by
  unfold stoi
  cases h : leadingInteger s with
  | none => exact iff_of_false nofun nofun
  | some k =>
    by_cases hk : IntRange k
    · simp only [if_pos hk, Except.ok.injEq, Option.some.injEq]
      exact ⟨fun heq => ⟨heq, heq ▸ hk⟩, fun hboth => hboth.1⟩
    · simp only [if_neg hk, Option.some.injEq]
      exact iff_of_false nofun fun hboth => hk (hboth.1 ▸ hboth.2)

/-- Every error of `stoi` is an exception. -/
theorem stoi_eq_error {s : Bytes} (h : ∀ n, stoi s ≠ .ok n) : stoi s = .error .exception := by
  unfold stoi at h ⊢
  cases hs : leadingInteger s with
  | none => rfl
  | some k =>
    by_cases hk : IntRange k
    · exact absurd (by simp [hs, hk]) (h k)
    · simp [hk]

theorem isDigit_iff_toNat {x : Byte} : isDigit x = true ↔ 48 ≤ x.toNat ∧ x.toNat ≤ 57 := by
  simp only [isDigit, Bool.and_eq_true, decide_eq_true_eq, UInt8.le_iff_toNat_le]
  rfl

theorem not_isSpace_of_isDigit {x : Byte} (h : isDigit x = true) : isSpace x = false := by
  have hx := isDigit_iff_toNat.mp h
  have hspace : x ≠ Chr.space := by rintro rfl; exact absurd h (by decide)
  have hcontrol : ¬ x ≤ 0x0d := fun hle => by
    have : x.toNat ≤ 13 := UInt8.le_iff_toNat_le.mp hle
    omega
  simp [isSpace, hspace, hcontrol]

theorem isDigit_ofNat {c : Char} (h : c.isDigit = true) :
    isDigit (UInt8.ofNat c.toNat) = true ∧ (UInt8.ofNat c.toNat).toNat = c.toNat := by
  obtain ⟨hlow, hhigh⟩ : 48 ≤ c.toNat ∧ c.toNat ≤ 57 := Char.isDigit_iff_toNat.mp h
  have hval : (UInt8.ofNat c.toNat).toNat = c.toNat := UInt8.toNat_ofNat_of_lt' (by
    change c.toNat < 256
    omega)
  refine ⟨?_, hval⟩
  rw [isDigit_iff_toNat, hval]
  exact ⟨hlow, hhigh⟩

theorem isDigit_of_mem_decimal {n : ℕ} {x : Byte} (h : x ∈ decimal n) : isDigit x = true := by
  obtain ⟨c, hc, rfl⟩ := List.mem_map.mp h
  exact (isDigit_ofNat (Nat.isDigit_of_mem_toDigits (by omega) (by omega) hc)).1

theorem digitsValue_text {cs : List Char} (h : ∀ c ∈ cs, c.isDigit = true) :
    digitsValue (text cs) = Nat.ofDigitChars 10 cs 0 := by
  obtain ⟨n, hn⟩ : ∃ n, (0 : ℕ) = n := ⟨_, rfl⟩
  rw [digitsValue, text, hn]
  clear hn
  induction cs generalizing n with
  | nil => rfl
  | cons c cs ih =>
    have hc := (isDigit_ofNat (h c (by simp))).2
    rw [List.map_cons, List.foldl_cons, Nat.ofDigitChars_cons, ih fun d hd => h d (by simp [hd]), hc]
    rfl

theorem digitsValue_decimal (n : ℕ) : digitsValue (decimal n) = n := by
  rw [decimal, digitsValue_text fun c hc => Nat.isDigit_of_mem_toDigits (by omega) (by omega) hc]
  exact Nat.ofDigitChars_ten_toDigits

theorem leadingInteger_digits {s : Bytes} (hne : s ≠ []) (h : ∀ x ∈ s, isDigit x = true) :
    leadingInteger s = some (digitsValue s : ℤ) := by
  cases s with
  | nil => exact (hne rfl).elim
  | cons x s =>
    have hx := h x (by simp)
    have hspace := not_isSpace_of_isDigit hx
    have hminus : x ≠ 0x2d := by rintro rfl; exact absurd hx (by decide)
    have hplus : x ≠ 0x2b := by rintro rfl; exact absurd hx (by decide)
    have hall : (x :: s).takeWhile isDigit = x :: s := List.takeWhile_eq_self_iff.mpr h
    unfold leadingInteger
    rw [List.dropWhile_cons_of_neg (by simp [hspace])]
    split
    · rename_i heq
      exact (hminus (List.cons.inj heq).1).elim
    · rename_i heq
      exact (hplus (List.cons.inj heq).1).elim
    · simp only [hall]
      rfl

/-- A number is read back from its decimal form. -/
theorem leadingInteger_decimal (n : ℕ) : leadingInteger (decimal n) = some (n : ℤ) := by
  have hne : decimal n ≠ [] := by
    rw [decimal, text, Ne, List.map_eq_nil_iff]
    exact Nat.toDigits_ne_nil
  rw [leadingInteger_digits hne fun x hx => isDigit_of_mem_decimal hx, digitsValue_decimal]

end IrcBot.Plugins

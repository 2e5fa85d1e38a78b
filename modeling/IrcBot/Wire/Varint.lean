import IrcBot.Machine.Mealy
import Mathlib.Tactic.Ring

/-! Base-128 varints: little-endian groups of seven bits, at most ten bytes long. -/
namespace Wire

/-- The shortest varint of a number below `128 ^ fuel`. -/
def varintGroups : ℕ → ℕ → List UInt8
  | 0, _ => []
  | fuel + 1, n =>
    if n < 128 then [UInt8.ofNat n]
    else UInt8.ofNat (n % 128 + 128) :: varintGroups fuel (n / 128)

/-- The varint of a 64-bit number. -/
def varint (n : ℕ) : List UInt8 := varintGroups 10 n

private theorem varintGroups_length_le (fuel k n : ℕ) (h : n < 128 ^ (k + 1)) :
    (varintGroups fuel n).length ≤ k + 1 := by
  induction fuel generalizing k n with
  | zero => simp [varintGroups]
  | succ fuel ih =>
    rw [varintGroups]
    split
    · simp
    · next hn =>
      cases k with
      | zero => omega
      | succ k =>
        have hdiv : n / 128 < 128 ^ (k + 1) := by
          rw [Nat.div_lt_iff_lt_mul (by decide), ← pow_succ]
          exact h
        have := ih k (n / 128) hdiv
        rw [List.length_cons]
        omega

theorem varint_length_le {k n : ℕ} (hk : 0 < k) (h : n < 128 ^ k) : (varint n).length ≤ k := by
  obtain ⟨k, rfl⟩ : ∃ j, k = j + 1 := ⟨k - 1, by omega⟩
  exact varintGroups_length_le 10 k n h

theorem varint_length_pos (n : ℕ) : 0 < (varint n).length := by
  rw [varint, varintGroups]
  split <;> simp

private theorem varintGroups_length_mono (fuel : ℕ) {a b : ℕ} (h : a ≤ b) :
    (varintGroups fuel a).length ≤ (varintGroups fuel b).length := by
  induction fuel generalizing a b with
  | zero => simp [varintGroups]
  | succ fuel ih =>
    rw [varintGroups, varintGroups]
    split_ifs
    · simp
    · simp
    · omega
    · have := ih (Nat.div_le_div_right h : a / 128 ≤ b / 128)
      simpa using this

theorem varint_length_mono {a b : ℕ} (h : a ≤ b) : (varint a).length ≤ (varint b).length :=
  varintGroups_length_mono 10 h

private theorem lt_of_varintGroups_length (fuel n : ℕ) (h : n < 128 ^ fuel) :
    n < 128 ^ (varintGroups fuel n).length := by
  induction fuel generalizing n with
  | zero => simpa [varintGroups] using h
  | succ fuel ih =>
    rw [varintGroups]
    split
    · simpa using ‹n < 128›
    · have hdiv : n / 128 < 128 ^ fuel := by
        rw [Nat.div_lt_iff_lt_mul (by decide), ← pow_succ]
        exact h
      have := ih (n / 128) hdiv
      rw [List.length_cons, pow_succ]
      exact (Nat.div_lt_iff_lt_mul (by decide)).mp this

private theorem varintGroups_length_le_fuel (fuel n : ℕ) : (varintGroups fuel n).length ≤ fuel := by
  induction fuel generalizing n with
  | zero => simp [varintGroups]
  | succ fuel ih =>
    have := ih (n / 128)
    rw [varintGroups]
    split
    · simp
    · simpa using this

/-- The varint of a sum is no longer than the two varints together. -/
theorem varint_length_add (a b : ℕ) :
    (varint (a + b)).length ≤ (varint a).length + (varint b).length := by
  have hten : ∀ n, 2 ^ 64 ≤ n → (varint n).length = 10 := fun n hn =>
    le_antisymm (varintGroups_length_le_fuel 10 n) (varint_length_mono hn)
  have hsum := varintGroups_length_le_fuel 10 (a + b)
  by_cases ha : 2 ^ 64 ≤ a
  · have := hten a ha
    have : (varint (a + b)).length ≤ 10 := hsum
    omega
  by_cases hb : 2 ^ 64 ≤ b
  · have := hten b hb
    have : (varint (a + b)).length ≤ 10 := hsum
    omega
  have hla : a < 128 ^ (varint a).length :=
    lt_of_varintGroups_length 10 a ((not_le.mp ha).trans (by decide))
  have hlb : b < 128 ^ (varint b).length :=
    lt_of_varintGroups_length 10 b ((not_le.mp hb).trans (by decide))
  have hpa := varint_length_pos a
  have hpb := varint_length_pos b
  have htwo : ∀ {k : ℕ}, 0 < k → 2 ≤ 128 ^ k := fun hk =>
    le_trans (by decide : 2 ≤ 128 ^ 1) (Nat.pow_le_pow_right (by decide) hk)
  apply varint_length_le (by omega)
  calc a + b < 128 ^ (varint a).length + 128 ^ (varint b).length := by omega
    _ ≤ 128 ^ (varint a).length * 128 ^ (varint b).length := Nat.add_le_mul (htwo hpa) (htwo hpb)
    _ = 128 ^ ((varint a).length + (varint b).length) := (pow_add _ _ _).symm

end Wire

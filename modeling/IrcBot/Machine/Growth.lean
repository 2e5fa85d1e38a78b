import Mathlib.Logic.Function.Iterate
import Mathlib.Order.Iterate

/-! An array that is appended to. When its storage is full the elements move to a new one,
whose size is a function `grow` of the old size. Elements keep their address between two
lengths exactly if no size of the storage lies between these. -/
namespace Machine

/-- The size of the storage, and how often the elements have moved. -/
structure Storage where
  capacity : ℕ := 0
  moves : ℕ := 0
  deriving DecidableEq, Repr

namespace Storage

/-- One element more in an array of this length. -/
def push (grow : ℕ → ℕ) (length : ℕ) (s : Storage) : Storage :=
  if length = s.capacity then ⟨grow s.capacity, s.moves + 1⟩ else s

/-- The storage after so many appends. -/
def after (grow : ℕ → ℕ) : ℕ → Storage
  | 0 => {}
  | n + 1 => (after grow n).push grow n

variable {grow : ℕ → ℕ}

theorem capacity_after (n : ℕ) : (after grow n).capacity = grow^[(after grow n).moves] 0 := by
  induction n with
  | zero => rfl
  | succ n ih =>
    rw [after, push]
    split
    · rw [Function.iterate_succ_apply', ← ih]
    · exact ih

theorem strictMono_iterate (hgrow : ∀ n, n < grow n) : StrictMono fun k => grow^[k] 0 := by
  refine strictMono_nat_of_lt_succ fun k => ?_
  rw [Function.iterate_succ_apply']
  exact hgrow _

/-- The elements have moved once for each size that the array has outgrown. -/
theorem lt_moves_iff (hgrow : ∀ n, n < grow n) (n k : ℕ) :
    k < (after grow n).moves ↔ grow^[k] 0 < n := by
  have hmono := strictMono_iterate hgrow
  induction n generalizing k with
  | zero => simp [after]
  | succ n ih =>
    have hcapacity : (after grow n).capacity = grow^[(after grow n).moves] 0 := capacity_after n
    have hle : n ≤ (after grow n).capacity := by
      rw [hcapacity]
      exact Nat.le_of_not_lt fun h => Nat.lt_irrefl _ ((ih (after grow n).moves).mpr h)
    rw [after, push]
    split
    · next hfull =>
      rw [Nat.lt_succ_iff, Nat.lt_succ_iff]
      constructor
      · intro hk
        rw [hfull, hcapacity]
        exact hmono.monotone hk
      · intro hk
        rw [hfull, hcapacity] at hk
        exact hmono.le_iff_le.mp hk
    · next hroom =>
      refine (ih k).trans ?_
      constructor
      · exact fun h => Nat.lt_succ_of_lt h
      · intro h
        rcases Nat.lt_succ_iff_lt_or_eq.mp h with hlt | heq
        · exact hlt
        · exfalso
          -- this size would be one that the storage has had, or the one that it has
          have hlt : grow^[k] 0 < grow^[(after grow n).moves] 0 := by
            rw [heq, ← hcapacity]
            omega
          have := (ih k).mp (hmono.lt_iff_lt.mp hlt)
          omega

/-- The elements stay where they are while the length goes from `m` to `n` exactly if no size of
the storage is outgrown on the way. -/
theorem moves_eq_iff (hgrow : ∀ n, n < grow n) {m n : ℕ} (hmn : m ≤ n) :
    (after grow m).moves = (after grow n).moves ↔ ∀ k, grow^[k] 0 < m ∨ n ≤ grow^[k] 0 := by
  constructor
  · intro h k
    by_cases hk : k < (after grow m).moves
    · exact .inl ((lt_moves_iff hgrow m k).mp hk)
    · rw [h, lt_moves_iff hgrow] at hk
      exact .inr (Nat.le_of_not_lt hk)
  · intro h
    refine Nat.le_antisymm ?_ ?_
    · by_contra hlt
      have hm := (lt_moves_iff hgrow m _).mp (Nat.lt_of_not_le hlt)
      have := (lt_moves_iff hgrow n (after grow n).moves).mpr (Nat.lt_of_lt_of_le hm hmn)
      omega
    · by_contra hlt
      have hn := (lt_moves_iff hgrow n _).mp (Nat.lt_of_not_le hlt)
      rcases h (after grow m).moves with hm | hm
      · have := (lt_moves_iff hgrow m _).mpr hm
        omega
      · omega

end Storage
end Machine

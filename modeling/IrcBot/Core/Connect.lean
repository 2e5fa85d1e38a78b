import IrcBot.Bytes
import Mathlib.Logic.Function.Iterate
import Mathlib.Algebra.Order.Group.Nat

/-! The retry loop of `Core::connect`. The interval is doubled in 32 bits before it is
clamped, so the clamp protects the next doubling only if the maximum is below `2 ^ 31`. -/
namespace IrcBot

/-- The two intervals in the configuration, in milliseconds. -/
structure ReconnectConfig where
  reconnectInterval : Option UInt32 := none
  maxReconnectInterval : Option UInt32 := none
  deriving DecidableEq, Repr

/-- What `asio::connect` reports. -/
inductive Attempt
  | failed | connected
  deriving DecidableEq, Repr

/-- The variables of the loop. -/
structure Retry where
  trials : UInt32 := 0
  interval : UInt32
  maximumInterval : UInt32
  deriving DecidableEq, Repr

def ReconnectConfig.retry (c : ReconnectConfig) : Retry where
  interval := c.reconnectInterval.getD 200
  maximumInterval := c.maxReconnectInterval.getD 15000

namespace Retry

/-- The variables after a failed attempt. -/
def next (s : Retry) : Retry :=
  let interval := s.interval * 2
  { s with
    interval := if interval < s.maximumInterval then interval else s.maximumInterval
    trials := s.trials + 1 }

/-- The waits of the loop until an attempt succeeds. -/
def connect : Retry → List Attempt → List UInt32
  | _, [] => []
  | _, .connected :: _ => []
  | s, .failed :: attempts => s.interval :: connect s.next attempts

/-- The attempts that fail before one succeeds. -/
def failures : List Attempt → ℕ
  | [] => 0
  | .connected :: _ => 0
  | .failed :: attempts => failures attempts + 1

/-- The waits double from `r` up to `M` and stay there. -/
structure BackOff (r M : UInt32) (waits : List UInt32) : Prop where
  exact : ∀ k w, waits[k]? = some w → w.toNat = min (r.toNat * 2 ^ k) M.toNat
  nondecreasing : waits.Pairwise (· ≤ ·)
  nonzero : ∀ w ∈ waits, w ≠ 0
  bounded : ∀ w ∈ waits, w ≤ M

theorem connect_eq (s : Retry) (attempts : List Attempt) :
    s.connect attempts = (List.range (failures attempts)).map fun k => (next^[k] s).interval := by
  induction attempts generalizing s with
  | nil => rfl
  | cons a attempts ih =>
    cases a with
    | connected => rfl
    | failed =>
      rw [connect, failures, List.range_succ_eq_map, List.map_cons, List.map_map, ih]
      rfl

theorem next_interval (s : Retry) : s.next.interval.toNat =
    min (2 * s.interval.toNat % 2 ^ 32) s.maximumInterval.toNat := by
  have hdouble : (s.interval * 2).toNat = 2 * s.interval.toNat % 2 ^ 32 := by
    rw [UInt32.toNat_mul, mul_comm]
    rfl
  unfold next
  dsimp only
  split_ifs with h
  · rw [UInt32.lt_iff_toNat_lt, hdouble] at h
    rw [hdouble]
    omega
  · rw [UInt32.lt_iff_toNat_lt, hdouble] at h
    omega

theorem iterate_maximumInterval (s : Retry) (k : ℕ) :
    (next^[k] s).maximumInterval = s.maximumInterval := by
  induction k with
  | zero => rfl
  | succ k ih => rw [Function.iterate_succ_apply', ← ih]; rfl

/-- The wait after `k` others is the one a back-off without a bound on numbers would have. -/
def Exact (s : Retry) (k : ℕ) : Prop :=
  (next^[k] s).interval.toNat = min (s.interval.toNat * 2 ^ k) s.maximumInterval.toNat

section
variable {s : Retry} {k : ℕ}

theorem exact_zero (h : s.interval ≤ s.maximumInterval) : s.Exact 0 := by
  have hle := UInt32.le_iff_toNat_le.mp h
  change s.interval.toNat = min (s.interval.toNat * 2 ^ 0) s.maximumInterval.toNat
  omega

/-- The next wait is exact as well exactly if the doubling does not wrap. -/
theorem exact_succ_iff (h : s.Exact k) : s.Exact (k + 1) ↔ (next^[k] s).interval.toNat < 2 ^ 31 := by
  have hnext := next_interval (next^[k] s)
  have hlt : (next^[k] s).interval.toNat < 2 ^ 32 := UInt32.toNat_lt _
  unfold Exact at h ⊢
  rw [Function.iterate_succ_apply', hnext, iterate_maximumInterval, pow_succ 2 k, ← mul_assoc]
  obtain ⟨p, hp⟩ : ∃ p, s.interval.toNat * 2 ^ k = p := ⟨_, rfl⟩
  rw [hp] at h ⊢
  omega

theorem exact_upto_iff (h : s.interval ≤ s.maximumInterval) (n : ℕ) : (∀ k < n, s.Exact k) ↔
    n ≤ 1 ∨ min (s.interval.toNat * 2 ^ (n - 2)) s.maximumInterval.toNat < 2 ^ 31 := by
  induction n with
  | zero => exact iff_of_true nofun (.inl (Nat.zero_le 1))
  | succ n ih =>
    cases n with
    | zero =>
      refine iff_of_true (fun k hk => ?_) (.inl le_rfl)
      obtain rfl : k = 0 := by omega
      exact exact_zero h
    | succ m =>
      have hindex : m + 1 + 1 - 2 = m := by omega
      rw [hindex]
      constructor
      · intro hall
        have hm : s.Exact m := hall m (by omega)
        have hsmall := (exact_succ_iff hm).mp (hall (m + 1) (by omega))
        exact .inr (hm ▸ hsmall)
      · intro hcond
        have hsmall : min (s.interval.toNat * 2 ^ m) s.maximumInterval.toNat < 2 ^ 31 := by omega
        have hearlier : ∀ k < m + 1, s.Exact k := by
          apply ih.mpr
          rcases Nat.eq_zero_or_pos m with rfl | hpos
          · exact .inl le_rfl
          · have hpow : 2 ^ (m + 1 - 2) ≤ 2 ^ m := Nat.pow_le_pow_right (by omega) (by omega)
            have := Nat.mul_le_mul_left s.interval.toNat hpow
            exact .inr (by omega)
        intro k hk
        rcases Nat.lt_succ_iff_lt_or_eq.mp hk with hlt | rfl
        · exact hearlier k hlt
        · have hm : s.Exact m := hearlier m (by omega)
          apply (exact_succ_iff hm).mpr
          rw [hm]
          exact hsmall

/-- The waits of a back-off follow from the first condition on them. -/
theorem backOff_of_exact (hr : 1 ≤ s.interval) (hM : s.interval ≤ s.maximumInterval)
    {waits : List UInt32} (hw : ∀ k w, waits[k]? = some w →
      w.toNat = min (s.interval.toNat * 2 ^ k) s.maximumInterval.toNat) :
    BackOff s.interval s.maximumInterval waits := by
  have hr' : 1 ≤ s.interval.toNat := UInt32.le_iff_toNat_le.mp hr
  have hM' := UInt32.le_iff_toNat_le.mp hM
  refine ⟨hw, ?_, ?_, ?_⟩
  · apply List.pairwise_iff_getElem.mpr
    intro i j hi hj hij
    have hwi := hw i waits[i] (List.getElem?_eq_getElem hi)
    have hwj := hw j waits[j] (List.getElem?_eq_getElem hj)
    have hpow : 2 ^ i ≤ 2 ^ j := Nat.pow_le_pow_right (by omega) (by omega)
    have := Nat.mul_le_mul_left s.interval.toNat hpow
    apply UInt32.le_iff_toNat_le.mpr
    omega
  · intro w hmem hzero
    obtain ⟨k, hk⟩ := List.getElem?_of_mem hmem
    have hwk := hw k w hk
    have hpow : 1 ≤ 2 ^ k := Nat.one_le_two_pow
    have := Nat.mul_le_mul hr' hpow
    rw [hzero, UInt32.toNat_zero] at hwk
    omega
  · intro w hmem
    obtain ⟨k, hk⟩ := List.getElem?_of_mem hmem
    have hwk := hw k w hk
    apply UInt32.le_iff_toNat_le.mpr
    omega

end

theorem backOff_connect_iff {s : Retry} (hr : 1 ≤ s.interval) (hM : s.interval ≤ s.maximumInterval)
    (attempts : List Attempt) : BackOff s.interval s.maximumInterval (s.connect attempts) ↔
      ∀ k < failures attempts, s.Exact k := by
  have hget : ∀ k w, (s.connect attempts)[k]? = some w ↔
      k < failures attempts ∧ (next^[k] s).interval = w := by
    intro k w
    rw [connect_eq, List.getElem?_map]
    by_cases hk : k < failures attempts
    · rw [List.getElem?_range hk, Option.map_some, Option.some_inj]
      exact ⟨fun h => ⟨hk, h⟩, fun h => h.2⟩
    · rw [List.getElem?_eq_none (by rw [List.length_range]; omega), Option.map_none]
      exact ⟨nofun, fun h => (hk h.1).elim⟩
  constructor
  · intro h k hk
    exact h.exact k _ ((hget k _).mpr ⟨hk, rfl⟩)
  · intro h
    apply backOff_of_exact hr hM
    intro k w hkw
    obtain ⟨hk, rfl⟩ := (hget k w).mp hkw
    exact h k hk

/-- From a run with `n` failed attempts the back-off is the one intended exactly if no wait
but the last reaches `2 ^ 31`; with any number of them, exactly if the maximum is below. -/
theorem backOff_iff (c : ReconnectConfig) (hr : 1 ≤ c.retry.interval)
    (hM : c.retry.interval ≤ c.retry.maximumInterval) :
    (∀ attempts, BackOff c.retry.interval c.retry.maximumInterval (c.retry.connect attempts) ↔
      failures attempts ≤ 1 ∨ min (c.retry.interval.toNat * 2 ^ (failures attempts - 2))
        c.retry.maximumInterval.toNat < 2 ^ 31) ∧
    ((∀ attempts, BackOff c.retry.interval c.retry.maximumInterval (c.retry.connect attempts)) ↔
      c.retry.maximumInterval.toNat < 2 ^ 31) := by
  have hrun : ∀ attempts,
      BackOff c.retry.interval c.retry.maximumInterval (c.retry.connect attempts) ↔
        failures attempts ≤ 1 ∨ min (c.retry.interval.toNat * 2 ^ (failures attempts - 2))
          c.retry.maximumInterval.toNat < 2 ^ 31 := by
    intro attempts
    rw [backOff_connect_iff hr hM]
    exact exact_upto_iff hM (failures attempts)
  refine ⟨hrun, ?_⟩
  constructor
  · intro h
    -- after 34 failures the intended wait has reached the maximum
    have hmany := (hrun (List.replicate 34 .failed)).mp (h _)
    have hr' : 1 ≤ c.retry.interval.toNat := UInt32.le_iff_toNat_le.mp hr
    have hlt : c.retry.maximumInterval.toNat < 2 ^ 32 := UInt32.toNat_lt _
    change 34 ≤ 1 ∨ min (c.retry.interval.toNat * 2 ^ 32) c.retry.maximumInterval.toNat < 2 ^ 31
      at hmany
    omega
  · intro h attempts
    apply (hrun attempts).mpr
    exact .inr (by omega)

theorem backOff_iff_default :
    BackOff 200 15000 ((ReconnectConfig.retry {}).connect [.failed, .failed, .connected]) :=
  (backOff_iff {} (by decide) (by decide)).2.mpr (by decide) _

example : (ReconnectConfig.retry {}).connect [.failed, .failed, .connected] = [200, 400] := by decide

/-- With both intervals at `2 ^ 31` the second wait is zero. -/
theorem backOff_wraps : ¬ ∀ c : ReconnectConfig, 1 ≤ c.retry.interval →
    c.retry.interval ≤ c.retry.maximumInterval → ∀ attempts,
      BackOff c.retry.interval c.retry.maximumInterval (c.retry.connect attempts) := by
  intro h
  have hwraps := h ⟨some 0x80000000, some 0x80000000⟩ (by decide) (by decide) [.failed, .failed]
  exact hwraps.nonzero 0 (by decide) rfl

end Retry
end IrcBot

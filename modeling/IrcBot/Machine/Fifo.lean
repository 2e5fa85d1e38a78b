import IrcBot.Machine.Mealy
import Mathlib.Data.List.DropRight

/-! A bounded first-in first-out queue that makes room for new elements by giving up the
oldest ones. The queue holds the newest elements of what has been appended, so it cannot
tell how the data was cut into appends. -/
namespace Machine

/-- The list `w` is, in order, made of the elements of `u` and those of `v`. -/
inductive Splits {α : Type*} : List α → List α → List α → Prop
  | nil : Splits [] [] []
  | left (x : α) {w u v : List α} : Splits w u v → Splits (x :: w) (x :: u) v
  | right (x : α) {w u v : List α} : Splits w u v → Splits (x :: w) u (x :: v)

namespace Splits
variable {α : Type*} {w u v : List α}

theorem append_left (h : Splits w u v) (d : List α) : Splits (w ++ d) (u ++ d) v := by
  induction h with
  | nil =>
    induction d with
    | nil => exact .nil
    | cons x d ih => exact .left x ih
  | left x _ ih => exact .left x ih
  | right x _ ih => exact .right x ih

theorem append_right (h : Splits w u v) (d : List α) : Splits (w ++ d) u (v ++ d) := by
  induction h with
  | nil =>
    induction d with
    | nil => exact .nil
    | cons x d ih => exact .right x ih
  | left x _ ih => exact .left x ih
  | right x _ ih => exact .right x ih

end Splits

namespace Fifo

inductive Op (α : Type*)
  | append (data : List α)
  | get (num : ℕ)

variable {α : Type*}

/-- All elements appended, in order. -/
def appended (ops : List (Op α)) : List α :=
  ops.flatMap fun op => match op with
    | .append data => data
    | .get _ => []

@[simp] theorem appended_nil : appended ([] : List (Op α)) = [] := rfl

@[simp] theorem appended_append (ops ops' : List (Op α)) :
    appended (ops ++ ops') = appended ops ++ appended ops' := List.flatMap_append

@[simp] theorem appended_singleton_append (data : List α) : appended [.append data] = data := by
  simp [appended]

@[simp] theorem appended_singleton_get (num : ℕ) : appended [(.get num : Op α)] = [] := rfl

end Fifo

/-- The queue with room for `c` elements; an output is what one `get` returns. -/
def fifo {α : Type*} (c : ℕ) : Mealy (List α) (Fifo.Op α) (List α) where
  step
    | q, .append data => ((q ++ data).rtake c, [])
    | q, .get num => (q.drop num, [q.take num])

namespace Fifo
variable {α : Type*} {c : ℕ}

@[simp] theorem step_append (q data : List α) :
    (fifo c).step q (.append data) = ((q ++ data).rtake c, []) := rfl

@[simp] theorem step_get (q : List α) (num : ℕ) :
    (fifo c).step q (.get num) = (q.drop num, [q.take num]) := rfl

theorem length_rtake_le (w : List α) : (w.rtake c).length ≤ c := by
  rw [List.rtake, List.length_drop]
  omega

theorem rtake_of_length_le {w : List α} (h : w.length ≤ c) : w.rtake c = w := by
  rw [List.rtake, Nat.sub_eq_zero_of_le h, List.drop_zero]

/-- The newest elements of a list and more data are those of the whole. -/
theorem rtake_rtake_append (w d : List α) : (w.rtake c ++ d).rtake c = (w ++ d).rtake c := by
  have hdrop : (w.length - c) ≤ w.length := Nat.sub_le _ _
  rw [List.rtake, List.rtake, List.rtake, ← List.drop_append_of_le_length hdrop, List.drop_drop]
  congr 1
  simp only [List.length_drop, List.length_append]
  omega

/-- Consecutive appends leave the queue like one append of all their data. -/
theorem run_appends {q : List α} (hq : q.length ≤ c) (pieces : List (List α)) :
    (fifo c).run q (pieces.map .append) = (q ++ pieces.flatten).rtake c := by
  induction pieces generalizing q with
  | nil => simp [rtake_of_length_le hq]
  | cons d pieces ih =>
    rw [List.map_cons, Mealy.run_cons, step_append, ih (length_rtake_le _), rtake_rtake_append,
      List.flatten_cons, List.append_assoc]

theorem out_appends (q : List α) (pieces : List (List α)) :
    (fifo c).out q (pieces.map .append) = [] := by
  induction pieces generalizing q with
  | nil => rfl
  | cons d pieces ih => rw [List.map_cons, Mealy.out_cons, step_append, ih, List.nil_append]

theorem length_run_le {q : List α} (hq : q.length ≤ c) (ops : List (Op α)) :
    ((fifo c).run q ops).length ≤ c := by
  refine (fifo c).run_invariant (I := fun q => q.length ≤ c) (fun q op hq => ?_) hq ops
  cases op with
  | append data => exact length_rtake_le _
  | get num =>
    rw [step_get, List.length_drop]
    omega

/-- An append may be split into consecutive ones, and nothing later tells the difference. -/
theorem append_split (before after : List (Op α)) (pieces : List (List α)) :
    (fifo c).out [] (before ++ pieces.map .append ++ after) =
        (fifo c).out [] (before ++ [.append pieces.flatten] ++ after) ∧
      (fifo c).run [] (before ++ pieces.map .append ++ after) =
        (fifo c).run [] (before ++ [.append pieces.flatten] ++ after) := by
  have hlen : ((fifo c).run [] before).length ≤ c := length_run_le (Nat.zero_le c) before
  have hrun := run_appends hlen pieces
  have hout := out_appends (c := c) ((fifo c).run [] before) pieces
  simp only [Mealy.run_append, Mealy.out_append, hrun, hout, Mealy.run_cons, Mealy.run_nil,
    Mealy.out_cons, Mealy.out_nil, step_append, List.append_nil, and_self]

/-- The queue holds the last elements appended; of those before, some have been returned
and the others overwritten. -/
theorem exists_overwritten (ops : List (Op α)) : ∃ earlier overwritten,
    appended ops = earlier ++ (fifo c).run [] ops ∧
      Splits earlier ((fifo c).out [] ops).flatten overwritten := by
  induction ops using List.reverseRecOn with
  | nil => exact ⟨[], [], rfl, .nil⟩
  | append_singleton ops op ih =>
    obtain ⟨earlier, overwritten, happ, hsplit⟩ := ih
    rw [appended_append, Mealy.run_append, Mealy.out_append, happ]
    generalize (fifo c).run [] ops = q at *
    cases op with
    | append data =>
      let lost := (q ++ data).take ((q ++ data).length - c)
      have hq : lost ++ (q ++ data).rtake c = q ++ data := List.take_append_drop _ _
      refine ⟨earlier ++ lost, overwritten ++ lost, ?_, ?_⟩
      · simp only [appended_singleton_append, Mealy.run_cons, Mealy.run_nil, step_append]
        rw [List.append_assoc, List.append_assoc, hq]
      · simp only [Mealy.out_cons, Mealy.out_nil, step_append, List.append_nil]
        exact hsplit.append_right lost
    | get num =>
      refine ⟨earlier ++ q.take num, overwritten, ?_, ?_⟩
      · simp only [appended_singleton_get, Mealy.run_cons, Mealy.run_nil, step_get]
        rw [List.append_nil, List.append_assoc, List.take_append_drop]
      · simp only [Mealy.out_cons, Mealy.out_nil, step_get, List.append_nil, List.flatten_append,
          List.flatten_singleton]
        exact hsplit.append_left _

/-- While there is room for everything that has not been returned, nothing is lost. -/
theorem out_append_run {ops : List (Op α)}
    (hroom : ∀ v, v <+: ops → (appended v).length ≤ ((fifo c).out [] v).flatten.length + c) :
    ((fifo c).out [] ops).flatten ++ (fifo c).run [] ops = appended ops := by
  induction ops using List.reverseRecOn with
  | nil => rfl
  | append_singleton ops op ih =>
    have hold := ih fun v hv => hroom v (hv.trans (List.prefix_append _ _))
    have hnow := hroom _ (List.prefix_refl _)
    rw [appended_append, ← hold] at hnow ⊢
    rw [Mealy.out_append] at hnow ⊢
    rw [Mealy.run_append]
    generalize (fifo c).run [] ops = q at *
    cases op with
    | append data =>
      simp only [appended_singleton_append, Mealy.out_cons, Mealy.out_nil, Mealy.run_cons,
        Mealy.run_nil, step_append, List.append_nil, List.length_append] at hnow ⊢
      have hfit : (q ++ data).length ≤ c := by
        rw [List.length_append]
        omega
      rw [rtake_of_length_le hfit, List.append_assoc]
    | get num =>
      simp only [appended_singleton_get, Mealy.out_cons, Mealy.out_nil, Mealy.run_cons,
        Mealy.run_nil, step_get, List.append_nil, List.flatten_append, List.flatten_singleton]
      rw [List.append_assoc, List.take_append_drop]

end Fifo
end Machine

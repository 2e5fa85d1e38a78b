import IrcBot.Machine.Mealy

/-! Threads that execute their statements on one state, one statement at a time and in any
order between the threads. A statement that does not return ends the run. -/
namespace Machine

/-- The state, as long as all statements have returned, and what each thread has left. -/
structure Threads (σ α : Type*) where
  state : Option σ
  pending : List (List α)
  deriving DecidableEq

namespace Threads
variable {σ α : Type*} (exec : σ → α → Option σ)

/-- All threads are at their end. -/
def finished (t : Threads σ α) : Bool := t.pending.all List.isEmpty

/-- Thread `i` executes its next statement, if it has one. -/
def advance (t : Threads σ α) (i : ℕ) : Threads σ α :=
  match t.state, t.pending[i]? with
  | some s, some (a :: as) => ⟨exec s a, t.pending.set i as⟩
  | _, _ => t

/-- The threads as a machine from schedules to states. -/
def machine : Mealy (Threads σ α) ℕ Empty := ⟨fun t i => (t.advance exec i, [])⟩

@[simp] theorem machine_step (t : Threads σ α) (i : ℕ) :
    (machine exec).step t i = (t.advance exec i, []) := rfl

theorem advance_cases (t : Threads σ α) (i : ℕ) :
    t.advance exec i = t ∨
      ∃ s a as, t.state = some s ∧ t.pending[i]? = some (a :: as) ∧
        t.advance exec i = ⟨exec s a, t.pending.set i as⟩ := by
  unfold advance
  split
  · next s a as hs hi => exact Or.inr ⟨s, a, as, hs, hi, rfl⟩
  · exact Or.inl rfl

theorem advance_some {t : Threads σ α} {i : ℕ} {s : σ} {a : α} {as : List α} (hs : t.state = some s)
    (hi : t.pending[i]? = some (a :: as)) :
    t.advance exec i = ⟨exec s a, t.pending.set i as⟩ := by
  unfold advance
  rw [hs, hi]

theorem advance_none {t : Threads σ α} (h : t.state = none) (i : ℕ) : t.advance exec i = t := by
  unfold advance
  rw [h]

theorem run_none {t : Threads σ α} (h : t.state = none) (schedule : List ℕ) :
    (machine exec).run t schedule = t := by
  induction schedule with
  | nil => rfl
  | cons i schedule ih =>
    rw [Mealy.run_cons, machine_step, advance_none exec h]
    exact ih

theorem run_finished {t : Threads σ α} (h : t.finished = true) (schedule : List ℕ) :
    (machine exec).run t schedule = t := by
  induction schedule with
  | nil => rfl
  | cons i schedule ih =>
    rw [Mealy.run_cons, machine_step]
    rcases advance_cases exec t i with hkeep | ⟨s, a, as, -, hi, -⟩
    · rw [hkeep]
      exact ih
    · have hend := List.all_eq_true.mp h (a :: as) (List.mem_of_getElem? hi)
      cases hend

/-- What every statement keeps, given what is left of the threads, holds under every
schedule. -/
theorem run_invariant {I : σ → List (List α) → Prop}
    (hstep : ∀ s s' pending i a as, I s pending → pending[i]? = some (a :: as) →
      exec s a = some s' → I s' (pending.set i as))
    {t : Threads σ α} (ht : ∀ s, t.state = some s → I s t.pending) (schedule : List ℕ) :
    ∀ s, ((machine exec).run t schedule).state = some s →
      I s ((machine exec).run t schedule).pending := by
  apply (machine exec).run_invariant (I := fun t => ∀ s, t.state = some s → I s t.pending) ?_ ht
  intro t i ht s' hs'
  rw [machine_step] at hs' ⊢
  rcases advance_cases exec t i with h | ⟨s, a, as, hs, hi, h⟩
  · rw [h] at hs' ⊢
    exact ht s' hs'
  · rw [h] at hs' ⊢
    exact hstep s s' t.pending i a as (ht s hs) hi hs'

/-- A single thread executes its statements in order, however often it is scheduled. -/
theorem run_single (s : σ) (as : List α) (schedule : List ℕ) :
    ∃ done rest, as = done ++ rest ∧ ((machine exec).run ⟨some s, [as]⟩ schedule).pending = [rest] ∧
      ((machine exec).run ⟨some s, [as]⟩ schedule).state = done.foldlM exec s := by
  let I (t : Threads σ α) : Prop :=
    ∃ done rest, as = done ++ rest ∧ t.pending = [rest] ∧ t.state = done.foldlM exec s
  apply (machine exec).run_invariant (I := I) ?_ ⟨[], as, rfl, rfl, rfl⟩
  rintro t i ⟨done, rest, has, hrest, hstate⟩
  rw [machine_step]
  rcases advance_cases exec t i with h | ⟨s', a, rest', hs', hi, h⟩
  · rw [h]
    exact ⟨done, rest, has, hrest, hstate⟩
  · cases i with
    | succ i =>
      rw [hrest] at hi
      cases hi
    | zero =>
      obtain rfl : rest = a :: rest' := by simpa [hrest] using hi
      rw [h]
      refine ⟨done ++ [a], rest', by simp [has], by simp [hrest], ?_⟩
      rw [List.foldlM_append, ← hstate, hs']
      simp

/-- A thread that is scheduled until it is at its end executes its statements in order. -/
theorem run_thread {t : Threads σ α} {i : ℕ} {s : σ} {as : List α} (hs : t.state = some s)
    (hi : t.pending[i]? = some as) :
    ((machine exec).run t (List.replicate as.length i)).state = as.foldlM exec s ∧
      (as.foldlM exec s ≠ none →
        ((machine exec).run t (List.replicate as.length i)).pending = t.pending.set i []) := by
  induction as generalizing t s with
  | nil =>
    have hset : t.pending.set i [] = t.pending := by
      obtain ⟨hlt, hget⟩ := List.getElem?_eq_some_iff.mp hi
      rw [← hget, List.set_getElem_self]
    exact ⟨hs, fun _ => hset.symm⟩
  | cons a as ih =>
    have hlt : i < t.pending.length := (List.getElem?_eq_some_iff.mp hi).1
    rw [List.length_cons, List.replicate_succ, Mealy.run_cons, machine_step,
      advance_some exec hs hi, List.foldlM_cons]
    cases hexec : exec s a with
    | none =>
      rw [run_none exec rfl]
      exact ⟨rfl, fun h => absurd rfl h⟩
    | some s' =>
      have hnext : (t.pending.set i as)[i]? = some as := by
        rw [List.getElem?_set_self hlt]
      obtain ⟨hstate, hpending⟩ := ih (t := ⟨some s', t.pending.set i as⟩) rfl hnext
      refine ⟨hstate, fun hret => ?_⟩
      rw [hpending hret, List.set_set]

end Threads
end Machine

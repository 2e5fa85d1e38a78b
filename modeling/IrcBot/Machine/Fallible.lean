import Mathlib.Data.List.Basic

/-! Machines whose step can fail. A run ends with the state and the outputs after the last
input, or with the error of the first step that fails. -/
namespace Machine

/-- A machine with states `σ`, inputs `ι`, outputs `ω` and errors `ε`. -/
structure Fallible (ε σ ι ω : Type*) where
  step : σ → ι → Except ε (σ × List ω)

namespace Fallible
variable {ε σ ι ω : Type*} (M : Fallible ε σ ι ω)

def run : σ → List ι → Except ε (σ × List ω)
  | s, [] => .ok (s, [])
  | s, i :: w =>
    match M.step s i with
    | .error e => .error e
    | .ok (t, os) =>
      match run t w with
      | .error e => .error e
      | .ok (u, os') => .ok (u, os ++ os')

variable {M} {s t u : σ} {i : ι} {w : List ι} {os : List ω}

@[simp] theorem run_nil : M.run s [] = .ok (s, []) := rfl

theorem run_cons_error {e : ε} (h : M.step s i = .error e) : M.run s (i :: w) = .error e := by
  rw [run, h]

theorem run_cons_ok (h : M.step s i = .ok (t, os)) {os' : List ω} (hw : M.run t w = .ok (u, os')) :
    M.run s (i :: w) = .ok (u, os ++ os') := by
  simp only [run, h, hw]

/-- The first step of a run that does not fail. -/
theorem of_run_cons (h : M.run s (i :: w) = .ok (u, os)) :
    ∃ t os₁ os₂, M.step s i = .ok (t, os₁) ∧ M.run t w = .ok (u, os₂) ∧ os = os₁ ++ os₂ := by
  rw [run] at h
  cases hs : M.step s i with
  | error e => simp [hs] at h
  | ok r =>
    obtain ⟨t, os₁⟩ := r
    cases ht : M.run t w with
    | error e => simp [hs, ht] at h
    | ok r =>
      obtain ⟨u', os₂⟩ := r
      simp only [hs, ht, Except.ok.injEq, Prod.mk.injEq] at h
      obtain ⟨rfl, rfl⟩ := h
      exact ⟨t, os₁, os₂, rfl, ht, rfl⟩

/-- An invariant of the steps that do not fail holds after every run that does not. -/
theorem run_invariant {I : σ → Prop}
    (hstep : ∀ s i t os, I s → M.step s i = .ok (t, os) → I t)
    (hs : I s) (h : M.run s w = .ok (u, os)) : I u := by
  induction w generalizing s os with
  | nil =>
    cases h
    exact hs
  | cons i w ih =>
    obtain ⟨t, os₁, os₂, ht, hrun, -⟩ := of_run_cons h
    exact ih (hstep s i t os₁ hs ht) hrun

/-- Every step of a run that does not fail. -/
theorem step_of_run {v : List ι} {i : ι} (h : M.run s (v ++ i :: w) = .ok (u, os)) :
    ∃ t os₁ t' os₂, M.run s v = .ok (t, os₁) ∧ M.step t i = .ok (t', os₂) := by
  induction v generalizing s os with
  | nil =>
    obtain ⟨t, os₁, os₂, ht, -, -⟩ := of_run_cons h
    exact ⟨s, [], t, os₁, rfl, ht⟩
  | cons j v ih =>
    obtain ⟨r, os₁, os₂, hr, hrun, -⟩ := of_run_cons h
    obtain ⟨t, os₃, t', os₄, hv, ht⟩ := ih hrun
    exact ⟨t, os₁ ++ os₃, t', os₄, run_cons_ok hr hv, ht⟩

end Fallible
end Machine

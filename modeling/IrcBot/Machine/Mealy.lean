import Mathlib.Algebra.GroupWithZero.Nat
import Mathlib.Data.List.Basic

/-! Deterministic machines that read one input at a time and emit a list of
outputs at each step. The state after a word, the outputs along it and the rules
for invariants are stated once here. -/
namespace Machine

/-- A machine with states `σ`, inputs `ι` and outputs `ω`. -/
structure Mealy (σ ι ω : Type*) where
  step : σ → ι → σ × List ω

namespace Mealy
variable {σ ι ω : Type*} (M : Mealy σ ι ω)

/-- State reached after a word. -/
def run : σ → List ι → σ
  | s, [] => s
  | s, i :: w => run (M.step s i).1 w

/-- Outputs emitted along a word, in order. -/
def out : σ → List ι → List ω
  | _, [] => []
  | s, i :: w => (M.step s i).2 ++ out (M.step s i).1 w

@[simp] theorem run_nil (s : σ) : M.run s [] = s := rfl

@[simp] theorem run_cons (s : σ) (i : ι) (w : List ι) :
    M.run s (i :: w) = M.run (M.step s i).1 w := rfl

@[simp] theorem out_nil (s : σ) : M.out s [] = [] := rfl

@[simp] theorem out_cons (s : σ) (i : ι) (w : List ι) :
    M.out s (i :: w) = (M.step s i).2 ++ M.out (M.step s i).1 w := rfl

theorem run_append (s : σ) (v w : List ι) : M.run s (v ++ w) = M.run (M.run s v) w := by
  induction v generalizing s with
  | nil => rfl
  | cons i v ih => exact ih (M.step s i).1

theorem out_append (s : σ) (v w : List ι) :
    M.out s (v ++ w) = M.out s v ++ M.out (M.run s v) w := by
  induction v generalizing s with
  | nil => rfl
  | cons i v ih => simp only [List.cons_append, out_cons, run_cons, ih, List.append_assoc]

/-- An invariant kept by every step holds after every word. -/
theorem run_invariant {I : σ → Prop} (hstep : ∀ s i, I s → I (M.step s i).1)
    {s : σ} (hs : I s) (w : List ι) : I (M.run s w) := by
  induction w generalizing s with
  | nil => exact hs
  | cons i w ih => exact ih (hstep s i hs)

/-- What every step emits from a state of the invariant, every run emits. -/
theorem out_invariant {I : σ → Prop} {P : ω → Prop}
    (hstep : ∀ s i, I s → I (M.step s i).1) (hout : ∀ s i, I s → ∀ o ∈ (M.step s i).2, P o)
    {s : σ} (hs : I s) (w : List ι) : ∀ o ∈ M.out s w, P o := by
  induction w generalizing s with
  | nil => simp
  | cons i w ih =>
    intro o ho
    rcases List.mem_append.mp ho with h | h
    · exact hout s i hs o h
    · exact ih (hstep s i hs) o h

/-- What every step keeps of the outputs so far together with the state holds after every
word. -/
theorem history_invariant {I : List ω → σ → Prop}
    (hstep : ∀ os s i, I os s → I (os ++ (M.step s i).2) (M.step s i).1)
    {os : List ω} {s : σ} (hs : I os s) (w : List ι) : I (os ++ M.out s w) (M.run s w) := by
  induction w generalizing os s with
  | nil => simpa using hs
  | cons i w ih =>
    have hrest := ih (hstep os s i hs)
    rwa [List.append_assoc] at hrest

/-- A quantity that no step raises by more than the weight of its input, those of its outputs
apart. -/
theorem balance_le {f : σ → ℕ} {g : ι → ℕ} {c : ω → ℕ}
    (hstep : ∀ s i, f (M.step s i).1 + ((M.step s i).2.map c).sum ≤ f s + g i)
    (s : σ) (w : List ι) :
    f (M.run s w) + ((M.out s w).map c).sum ≤ f s + (w.map g).sum := by
  induction w generalizing s with
  | nil => exact Nat.le_refl _
  | cons i w ih =>
    have hi := hstep s i
    have hw := ih (M.step s i).1
    simp only [run_cons, out_cons, List.map_append, List.sum_append, List.map_cons, List.sum_cons]
    omega

/-- Machines whose related states step to related states with the same outputs have the
same outputs along every word. -/
theorem simulation {τ : Type*} {N : Mealy τ ι ω} {R : σ → τ → Prop}
    (hstep : ∀ s t i, R s t → R (M.step s i).1 (N.step t i).1 ∧ (M.step s i).2 = (N.step t i).2)
    {s : σ} {t : τ} (h : R s t) (w : List ι) :
    R (M.run s w) (N.run t w) ∧ M.out s w = N.out t w := by
  induction w generalizing s t with
  | nil => exact ⟨h, rfl⟩
  | cons i w ih =>
    obtain ⟨hnext, hout⟩ := hstep s t i h
    obtain ⟨hrun, hrest⟩ := ih hnext
    exact ⟨hrun, by rw [out_cons, out_cons, hout, hrest]⟩

/-- A machine whose steps look, under a map of its states, like those of another one on the
mapped inputs runs like it. -/
theorem run_map {τ κ υ : Type*} {N : Mealy τ κ υ} {I : σ → Prop} (f : σ → τ) (g : ι → κ)
    (hkeep : ∀ s i, I s → I (M.step s i).1)
    (hstep : ∀ s i, I s → f (M.step s i).1 = (N.step (f s) (g i)).1)
    {s : σ} (hs : I s) (w : List ι) : f (M.run s w) = N.run (f s) (w.map g) := by
  induction w generalizing s with
  | nil => rfl
  | cons i w ih =>
    rw [run_cons, ih (hkeep s i hs), hstep s i hs]
    rfl

/-- Every step of a run meets a condition on the state before it and its input. -/
def Along (P : σ → ι → Prop) : σ → List ι → Prop
  | _, [] => True
  | s, i :: w => P s i ∧ Along P (M.step s i).1 w

/-- An invariant kept by every step that meets a condition holds after a run of such steps. -/
theorem Along.invariant {I : σ → Prop} {P : σ → ι → Prop}
    (hkeep : ∀ s i, I s → P s i → I (M.step s i).1)
    {s : σ} (hs : I s) {w : List ι} (h : M.Along P s w) : I (M.run s w) := by
  induction w generalizing s with
  | nil => exact hs
  | cons i w ih => exact ih (hkeep s i hs h.1) h.2

/-- A run keeps out of an absorbing set exactly if all its steps meet the condition that
decides, from a state of the invariant, between the invariant and that set. -/
theorem along_iff {I B : σ → Prop} {P : σ → ι → Prop}
    (hkeep : ∀ s i, I s → P s i → I (M.step s i).1)
    (hfail : ∀ s i, I s → ¬ P s i → B (M.step s i).1)
    (habsorb : ∀ s i, B s → B (M.step s i).1) (hexcl : ∀ s, I s → ¬ B s)
    {s : σ} (hs : I s) (w : List ι) : ¬ B (M.run s w) ↔ M.Along P s w := by
  induction w generalizing s with
  | nil => exact iff_of_true (hexcl s hs) trivial
  | cons i w ih =>
    by_cases hP : P s i
    · rw [run_cons, ih (hkeep s i hs hP)]
      exact ⟨fun h => ⟨hP, h⟩, fun h => h.2⟩
    · have hbad : B (M.run s (i :: w)) := M.run_invariant habsorb (hfail s i hs hP) w
      exact iff_of_false (fun h => h hbad) fun h => hP h.1

/-- An invariant holds all along a run exactly if all its steps meet the condition that
decides, from a state of the invariant, whether the step keeps it. -/
theorem always_iff {I : σ → Prop} {P : σ → ι → Prop}
    (hstep : ∀ s i, I s → (I (M.step s i).1 ↔ P s i)) {s : σ} (hs : I s) (w : List ι) :
    (∀ v, v <+: w → I (M.run s v)) ↔ M.Along P s w := by
  induction w generalizing s with
  | nil =>
    refine iff_of_true (fun v hv => ?_) trivial
    rw [List.prefix_nil.mp hv]
    exact hs
  | cons i w ih =>
    by_cases hP : P s i
    · have hnext := (hstep s i hs).mpr hP
      rw [Along, ← ih hnext]
      constructor
      · intro h
        refine ⟨hP, fun v hv => ?_⟩
        exact h (i :: v) ((List.prefix_cons_inj i).mpr hv)
      · rintro ⟨-, h⟩ v hv
        cases v with
        | nil => exact hs
        | cons j v =>
          obtain ⟨rfl, hrest⟩ := List.cons_prefix_cons.mp hv
          exact h v hrest
    · refine iff_of_false (fun h => hP ?_) fun h => hP h.1
      exact (hstep s i hs).mp (h [i] ((List.prefix_cons_inj i).mpr List.nil_prefix))

/-- The first output of a run: an invariant of the silent steps decides what it can be. -/
theorem out_head {I : σ → Prop} {P : ω → Prop}
    (hsilent : ∀ s i, I s → (M.step s i).2 = [] → I (M.step s i).1)
    (hout : ∀ s i o os, I s → (M.step s i).2 = o :: os → P o)
    {s : σ} (hs : I s) {w : List ι} {o : ω} {os : List ω} (h : M.out s w = o :: os) : P o := by
  induction w generalizing s with
  | nil => simp at h
  | cons i w ih =>
    rw [out_cons] at h
    cases hi : (M.step s i).2 with
    | nil =>
      rw [hi, List.nil_append] at h
      exact ih (hsilent s i hs hi) h
    | cons o' os' =>
      rw [hi, List.cons_append] at h
      exact (List.cons.inj h).1 ▸ hout s i o' os' hs hi

/-- The word leads from `s` to `t` without an output. -/
def Silent (s : σ) (w : List ι) (t : σ) : Prop := M.run s w = t ∧ M.out s w = []

namespace Silent
variable {M} {s t u : σ} {v w : List ι}

theorem nil : M.Silent s [] s := ⟨rfl, rfl⟩

theorem one {i : ι} (h : M.step s i = (t, [])) : M.Silent s [i] t := by simp [Silent, h]

theorem append (hv : M.Silent s v t) (hw : M.Silent t w u) : M.Silent s (v ++ w) u := by
  simp only [Silent, run_append, out_append, hv.1, hv.2, hw.1, hw.2, List.append_nil, and_self]

theorem cons {i : ι} (h : M.step s i = (t, [])) (hw : M.Silent t w u) : M.Silent s (i :: w) u :=
  (one h).append hw

/-- A word on which every step keeps the state. -/
theorem stay (h : ∀ i ∈ w, M.step s i = (s, [])) : M.Silent s w s := by
  induction w with
  | nil => exact nil
  | cons i w ih => exact cons (h i (by simp)) (ih fun j hj => h j (by simp [hj]))

/-- A word whose inputs are collected one by one in a buffer. -/
theorem collect (f : List ι → σ) (h : ∀ t, ∀ i ∈ w, M.step (f t) i = (f (t ++ [i]), []))
    (t : List ι) : M.Silent (f t) w (f (t ++ w)) := by
  induction w generalizing t with
  | nil => simpa using nil
  | cons i w ih =>
    have hrest := ih (fun u j hj => h u j (by simp [hj])) (t ++ [i])
    rw [List.append_assoc, List.singleton_append] at hrest
    exact cons (h t i (by simp)) hrest

theorem out_append (hv : M.Silent s v t) (w : List ι) : M.out s (v ++ w) = M.out t w := by
  rw [Mealy.out_append, hv.1, hv.2, List.nil_append]

theorem run_append (hv : M.Silent s v t) (w : List ι) : M.run s (v ++ w) = M.run t w := by
  rw [Mealy.run_append, hv.1]

end Silent

end Mealy
end Machine

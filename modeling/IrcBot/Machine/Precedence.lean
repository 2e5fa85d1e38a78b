import IrcBot.Machine.Mealy

/-! Outputs that may only be emitted after others: what a machine has to show for it step
by step. -/
namespace Machine

variable {σ ι ω : Type*}

/-- Every output of kind `a` has one of kind `g` before it. -/
def Precedes (g a : ω → Prop) (l : List ω) : Prop :=
  ∀ pre x post, l = pre ++ x :: post → a x → ∃ y ∈ pre, g y

variable {g a : ω → Prop}

theorem precedes_nil : Precedes g a [] := by
  intro pre x post h
  simp at h

theorem precedes_cons {y : ω} {l : List ω} :
    Precedes g a (y :: l) ↔ ¬ a y ∧ (g y ∨ Precedes g a l) := by
  constructor
  · intro h
    refine ⟨fun ha => ?_, ?_⟩
    · obtain ⟨z, hz, -⟩ := h [] y l rfl ha
      simp at hz
    · by_cases hg : g y
      · exact Or.inl hg
      · refine Or.inr fun pre x post hl ha => ?_
        obtain ⟨z, hz, hgz⟩ := h (y :: pre) x post (by rw [hl, List.cons_append]) ha
        rcases List.mem_cons.mp hz with rfl | hz
        · exact absurd hgz hg
        · exact ⟨z, hz, hgz⟩
  · rintro ⟨hy, h⟩ pre x post hl ha
    cases pre with
    | nil =>
      obtain ⟨rfl, -⟩ := List.cons.inj hl
      exact absurd ha hy
    | cons z pre =>
      obtain ⟨rfl, hl'⟩ := List.cons.inj hl
      rcases h with hg | h
      · exact ⟨y, by simp, hg⟩
      · obtain ⟨z, hz, hgz⟩ := h pre x post hl' ha
        exact ⟨z, by simp [hz], hgz⟩

theorem precedes_append {v w : List ω} :
    Precedes g a (v ++ w) ↔ Precedes g a v ∧ ((∃ y ∈ v, g y) ∨ Precedes g a w) := by
  induction v with
  | nil => simp [precedes_nil]
  | cons y v ih =>
    rw [List.cons_append, precedes_cons, precedes_cons, ih]
    constructor
    · rintro ⟨hy, hg | ⟨hv, h⟩⟩
      · exact ⟨⟨hy, Or.inl hg⟩, Or.inl ⟨y, by simp, hg⟩⟩
      · refine ⟨⟨hy, Or.inr hv⟩, h.imp ?_ id⟩
        rintro ⟨z, hz, hgz⟩
        exact ⟨z, by simp [hz], hgz⟩
    · rintro ⟨⟨hy, hv⟩, h⟩
      refine ⟨hy, ?_⟩
      by_cases hg : g y
      · exact Or.inl hg
      · refine Or.inr ⟨hv.resolve_left hg, h.imp ?_ id⟩
        rintro ⟨z, hz, hgz⟩
        rcases List.mem_cons.mp hz with rfl | hz
        · exact absurd hgz hg
        · exact ⟨z, hz, hgz⟩

/-- Outputs without kind `a` need nothing before them. -/
theorem precedes_of_none {l : List ω} (h : ∀ x ∈ l, ¬ a x) : Precedes g a l :=
  fun pre x post hl ha => absurd ha (h x (by simp [hl]))

end Machine

import Mathlib.Data.List.Basic

/-! Two threads side by side: their statements in one order, which keeps that of each thread. What
the statements do to a small part of the state depends on a few of them only. -/
namespace Machine

/-- The third list is the first two in some order that keeps theirs. -/
inductive Interleaving {α : Type*} : List α → List α → List α → Prop
  | nil : Interleaving [] [] []
  | left {a : α} {as bs cs : List α} : Interleaving as bs cs → Interleaving (a :: as) bs (a :: cs)
  | right {b : α} {as bs cs : List α} : Interleaving as bs cs → Interleaving as (b :: bs) (b :: cs)

namespace Interleaving
variable {α β : Type*} {as bs cs : List α}

theorem nil_left (bs : List α) : Interleaving [] bs bs := by
  induction bs with
  | nil => exact .nil
  | cons b bs ih => exact .right ih

theorem nil_right (as : List α) : Interleaving as [] as := by
  induction as with
  | nil => exact .nil
  | cons a as ih => exact .left ih

theorem append {as' bs' cs' : List α} (h : Interleaving as bs cs) (h' : Interleaving as' bs' cs') :
    Interleaving (as ++ as') (bs ++ bs') (cs ++ cs') := by
  induction h with
  | nil => exact h'
  | left _ ih => exact ih.left
  | right _ ih => exact ih.right

/-- The second thread is one that interrupts the first. -/
theorem nested (as bs as' : List α) : Interleaving (as ++ as') bs (as ++ bs ++ as') := by
  have h := ((nil_right as).append (nil_left bs)).append (nil_right as')
  simpa using h

theorem eq_of_nil_left (h : Interleaving [] bs cs) : cs = bs := by
  generalize has : ([] : List α) = as at h
  induction h with
  | nil => rfl
  | left => cases has
  | right _ ih => rw [ih has]

theorem eq_of_nil_right (h : Interleaving as [] cs) : cs = as := by
  generalize hbs : ([] : List α) = bs at h
  induction h with
  | nil => rfl
  | left _ ih => rw [ih hbs]
  | right => cases hbs

theorem filterMap (h : Interleaving as bs cs) (f : α → Option β) :
    Interleaving (as.filterMap f) (bs.filterMap f) (cs.filterMap f) := by
  induction h with
  | nil => exact .nil
  | @left a _ _ _ _ ih =>
    cases ha : f a with
    | none => simpa [ha] using ih
    | some b => simpa [ha] using ih.left
  | @right b _ _ _ _ ih =>
    cases hb : f b with
    | none => simpa [hb] using ih
    | some c => simpa [hb] using ih.right

end Interleaving

/-- The lists in which `a` stands somewhere in front of what the rest of its thread allows. -/
def weave {α : Type*} (a : α) (rest : List α → List (List α)) : List α → List (List α)
  | [] => (rest []).map (a :: ·)
  | b :: bs => (rest (b :: bs)).map (a :: ·) ++ (weave a rest bs).map (b :: ·)

/-- All orders of two lists. -/
def interleavings {α : Type*} : List α → List α → List (List α)
  | [], bs => [bs]
  | a :: as, bs => weave a (interleavings as) bs

theorem mem_interleavings {α : Type*} {as bs cs : List α} :
    cs ∈ interleavings as bs ↔ Interleaving as bs cs := by
  constructor
  · intro h
    induction as generalizing bs cs with
    | nil =>
      rw [List.mem_singleton.mp h]
      exact .nil_left bs
    | cons a as ih =>
      rw [interleavings] at h
      induction bs generalizing cs with
      | nil =>
        obtain ⟨ds, hds, rfl⟩ := List.mem_map.mp h
        exact (ih hds).left
      | cons b bs ihb =>
        rcases List.mem_append.mp h with h | h
        · obtain ⟨ds, hds, rfl⟩ := List.mem_map.mp h
          exact (ih hds).left
        · obtain ⟨ds, hds, rfl⟩ := List.mem_map.mp h
          exact (ihb hds).right
  · intro h
    induction h with
    | nil => exact List.mem_singleton_self _
    | @left a as bs cs _ ih =>
      cases bs with
      | nil => exact List.mem_map_of_mem ih
      | cons b bs => exact List.mem_append_left _ (List.mem_map_of_mem ih)
    | @right b as bs cs _ ih =>
      cases as with
      | nil =>
        rw [List.mem_singleton.mp ih]
        exact List.mem_singleton_self _
      | cons a as => exact List.mem_append_right _ (List.mem_map_of_mem ih)

instance {α : Type*} [DecidableEq α] (as bs cs : List α) : Decidable (Interleaving as bs cs) :=
  decidable_of_iff _ mem_interleavings

/-- Up to the first `a`. -/
def upTo {α : Type*} [DecidableEq α] (a : α) (as : List α) : List α := as.takeWhile (· ≠ a) ++ [a]

theorem upTo_isPrefix {α : Type*} [DecidableEq α] {a : α} {as : List α} (h : a ∈ as) : upTo a as <+: as := by
  induction as with
  | nil => cases h
  | cons b as ih =>
    by_cases hb : b = a
    · subst hb
      simp [upTo]
    · have hrest := ih ((List.mem_cons.mp h).resolve_left (Ne.symm hb))
      simpa [upTo, hb, List.cons_prefix_cons] using hrest

theorem filterMap_upTo {α β : Type*} [DecidableEq α] [DecidableEq β] {f : α → Option β} {a : α} {b : β}
    (hf : ∀ x, f x = some b ↔ x = a) (as : List α) : (upTo a as).filterMap f = upTo b (as.filterMap f) := by
  have ha := (hf a).mpr rfl
  induction as with
  | nil => simp [upTo, ha]
  | cons x as ih =>
    by_cases hx : x = a
    · subst hx
      simp [upTo, ha]
    · have hne : f x ≠ some b := fun h => hx ((hf x).mp h)
      have hstep : upTo a (x :: as) = x :: upTo a as := by simp [upTo, hx]
      rw [hstep]
      cases hfx : f x with
      | none => simpa [hfx] using ih
      | some y =>
        have hy : y ≠ b := fun h => hne (h ▸ hfx)
        have hstep' : upTo b (y :: as.filterMap f) = y :: upTo b (as.filterMap f) := by simp [upTo, hy]
        rw [List.filterMap_cons_some hfx, List.filterMap_cons_some hfx, ih, hstep']

/-- Statements that may fail, and what is made of a few of them: each statement keeps the relation
between the state and its outline, to which only those with a mark do something. -/
theorem foldlM_outline {σ τ α β : Type*} {exec : σ → α → Option σ} {mark : α → Option β}
    (step : τ → β → τ) {R : σ → τ → Prop} {as : List α}
    (hstep : ∀ a ∈ as, ∀ s s' t, R s t → exec s a = some s' → R s' ((mark a).elim t (step t)))
    {s s' : σ} {t : τ} (h : R s t) (hs : as.foldlM exec s = some s') :
    R s' ((as.filterMap mark).foldl step t) := by
  induction as generalizing s t with
  | nil =>
    obtain rfl : s = s' := by simpa using hs
    exact h
  | cons a as ih =>
    rw [List.foldlM_cons] at hs
    obtain ⟨s₁, hs₁, hrest⟩ := Option.bind_eq_some_iff.mp hs
    have hnext := ih (fun b hb => hstep b (List.mem_cons_of_mem a hb))
      (hstep a List.mem_cons_self s s₁ t h hs₁) hrest
    cases ha : mark a with
    | none => simpa [ha] using hnext
    | some b => simpa [ha] using hnext

end Machine

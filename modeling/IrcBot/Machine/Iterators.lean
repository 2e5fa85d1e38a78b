import Mathlib.Data.List.Basic

/-! A vector and the iterators into it. Erasing an element invalidates the iterators at its
position and after it, so that one number says which positions can still be dereferenced.
A range-for loop over the vector is safe as long as its body erases nothing before the
last round. -/
namespace Machine

/-- A vector, with the number of positions whose iterators are valid. -/
structure Vec (α : Type*) where
  elems : List α
  valid : Nat
  valid_le : valid ≤ elems.length

namespace Vec
variable {α : Type*}

/-- A vector on which nothing has happened since the iterators were taken. -/
def ofList (l : List α) : Vec α := ⟨l, l.length, Nat.le_refl _⟩

/-- The element that an iterator points to, if it is valid. -/
def deref (v : Vec α) (i : Nat) : Option α := if i < v.valid then v.elems[i]? else none

/-- Assign through a position. -/
def set (v : Vec α) (i : Nat) (a : α) : Vec α :=
  ⟨v.elems.set i a, v.valid, by rw [List.length_set]; exact v.valid_le⟩

def erase (v : Vec α) (k : Nat) : Vec α :=
  ⟨v.elems.eraseIdx k, min v.valid k, by
    have := v.valid_le
    rw [List.length_eraseIdx]
    split <;> omega⟩

theorem deref_ofList (l : List α) (i : Nat) : (ofList l).deref i = l[i]? := by
  unfold deref ofList
  by_cases h : i < l.length
  · exact if_pos h
  · rw [List.getElem?_eq_none (Nat.le_of_not_lt h)]
    exact if_neg h

theorem deref_of_valid_le {v : Vec α} {i : Nat} (h : v.valid ≤ i) : v.deref i = none := by
  unfold deref
  exact if_neg (Nat.not_lt.mpr h)

theorem deref_set_of_ne (v : Vec α) {i j : Nat} (h : i ≠ j) (a : α) :
    (v.set i a).deref j = v.deref j := by
  unfold deref set
  rw [List.getElem?_set_ne h]

theorem deref_set_self {v : Vec α} {i : Nat} {a : α} (h : v.deref i = some a) (b : α) :
    (v.set i b).deref i = some b := by
  unfold deref at h ⊢
  by_cases hi : i < v.valid
  · have hlen : i < v.elems.length := Nat.lt_of_lt_of_le hi v.valid_le
    rw [if_pos (show i < (v.set i b).valid from hi)]
    exact List.getElem?_set_self hlen
  · rw [if_neg hi] at h
    cases h

theorem valid_erase_le (v : Vec α) (k : Nat) : (v.erase k).valid ≤ k := Nat.min_le_right ..

variable (body : Vec α → Nat → Vec α)

/-- What a range-for loop dereferences from position `i` on, in `n` more rounds; `none` is
a dereference of an invalid iterator, where the loop has no meaning any more. -/
def forEach : Nat → Nat → Vec α → List (Option α)
  | 0, _, _ => []
  | n + 1, i, v =>
    match v.deref i with
    | none => [none]
    | some a => some a :: forEach n (i + 1) (body v i)

/-- The loop over a whole vector, whose end is fixed at the start. -/
def rangeFor (l : List α) : List (Option α) := forEach body l.length 0 (ofList l)

variable {body} {erases : α → Bool}

theorem forEach_eq_iff
    (hkeep : ∀ v i a, v.deref i = some a → erases a = false →
      ∀ j, i < j → (body v i).deref j = v.deref j)
    (herase : ∀ v i a, v.deref i = some a → erases a = true → (body v i).valid ≤ i)
    {l : List α} {v : Vec α} {i : Nat} (hl : ∀ j, v.deref (i + j) = l[j]?) :
    forEach body l.length i v = l.map some ↔ ∀ a ∈ l.dropLast, erases a = false := by
  induction l generalizing v i with
  | nil => simp [forEach]
  | cons a l ih =>
    have hfirst : v.deref i = some a := by simpa using hl 0
    rw [List.length_cons, forEach, hfirst, List.map_cons, List.cons.injEq]
    cases hl' : l with
    | nil => simp [forEach]
    | cons b l' =>
      rw [← hl', List.dropLast_cons_of_ne_nil (by simp [hl']), List.forall_mem_cons]
      cases he : erases a with
      | false =>
        have hrest : ∀ j, (body v i).deref (i + 1 + j) = l[j]? := by
          intro j
          rw [hkeep v i a hfirst he _ (by omega)]
          have := hl (j + 1)
          rw [List.getElem?_cons_succ] at this
          rw [← this]
          congr 1
          omega
        rw [ih hrest]
        simp
      | true =>
        have hvalid := herase v i a hfirst he
        have hnone : (body v i).deref (i + 1) = none := deref_of_valid_le (by omega)
        have hloop : forEach body l.length (i + 1) (body v i) = [none] := by
          rw [hl', List.length_cons, forEach, hnone]
        rw [hloop, hl']
        simp

/-- A range-for loop goes through the vector, each element once and in order, exactly if no
round but the last erases. -/
theorem rangeFor_eq_iff
    (hkeep : ∀ v i a, v.deref i = some a → erases a = false →
      ∀ j, i < j → (body v i).deref j = v.deref j)
    (herase : ∀ v i a, v.deref i = some a → erases a = true → (body v i).valid ≤ i)
    (l : List α) : rangeFor body l = l.map some ↔ ∀ a ∈ l.dropLast, erases a = false := by
  refine forEach_eq_iff hkeep herase fun j => ?_
  rw [Nat.zero_add, deref_ofList]

end Vec
end Machine

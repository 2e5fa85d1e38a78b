import IrcBot.Machine.Mealy

/-! Threads that share one state under one mutex. A call takes the mutex, executes its
statements one by one and releases it; a thread that finds the mutex taken waits. The calls
are atomic: the state is always that of whole calls, in the order in which they have taken
the mutex, and of a part of the call that holds it. -/
namespace Machine

/-- The state, the statements that the holder of the mutex has left, and the calls that
each thread has still to make. -/
structure Mutex (σ κ β : Type*) where
  state : σ
  holder : Option (ℕ × List β) := none
  pending : List (List κ)

namespace Mutex
variable {σ κ β : Type*} (exec : σ → β → σ) (statements : κ → List β)

/-- Thread `i` goes on, if it can: it takes the mutex for its next call, executes a
statement, or releases the mutex. -/
def advance (t : Mutex σ κ β) (i : ℕ) : Mutex σ κ β × List (ℕ × κ) :=
  match t.holder with
  | none =>
    match t.pending[i]? with
    | some (c :: cs) => ({ t with holder := some (i, statements c), pending := t.pending.set i cs }, [(i, c)])
    | _ => (t, [])
  | some (j, rest) =>
    if i = j then
      match rest with
      | [] => ({ t with holder := none }, [])
      | a :: as => ({ t with state := exec t.state a, holder := some (j, as) }, [])
    else (t, [])

/-- The threads as a machine from schedules to the calls that take the mutex. -/
def machine : Mealy (Mutex σ κ β) ℕ (ℕ × κ) := ⟨advance exec statements⟩

@[simp] theorem machine_step (t : Mutex σ κ β) (i : ℕ) :
    (machine exec statements).step t i = t.advance exec statements i := rfl

/-- All statements of the calls, one call after the other. -/
def execAll (s : σ) (calls : List (ℕ × κ)) : σ :=
  calls.foldl (fun s c => (statements c.2).foldl exec s) s

/-- The calls of thread `i`, in order. -/
def callsOf (calls : List (ℕ × κ)) (i : ℕ) : List κ :=
  (calls.filter fun c => c.1 = i).map Prod.snd

theorem callsOf_append (calls calls' : List (ℕ × κ)) (i : ℕ) :
    callsOf (calls ++ calls') i = callsOf calls i ++ callsOf calls' i := by
  rw [callsOf, List.filter_append, List.map_append]
  rfl

/-- What a step can do: nothing, take the mutex, execute a statement, release the mutex. -/
theorem advance_cases (t : Mutex σ κ β) (i : ℕ) :
    t.advance exec statements i = (t, []) ∨
      (∃ c cs, t.holder = none ∧ t.pending[i]? = some (c :: cs) ∧
        t.advance exec statements i =
          ({ t with holder := some (i, statements c), pending := t.pending.set i cs }, [(i, c)])) ∨
      (∃ a as, t.holder = some (i, a :: as) ∧
        t.advance exec statements i =
          ({ t with state := exec t.state a, holder := some (i, as) }, [])) ∨
      t.holder = some (i, []) ∧ t.advance exec statements i = ({ t with holder := none }, []) := by
  unfold advance
  cases hh : t.holder with
  | none =>
    dsimp only
    split
    · next c cs hp => exact Or.inr (Or.inl ⟨c, cs, rfl, hp, rfl⟩)
    · exact Or.inl rfl
  | some h =>
    obtain ⟨j, rest⟩ := h
    dsimp only
    by_cases hij : i = j
    · subst hij
      rw [if_pos rfl]
      cases rest with
      | nil => exact Or.inr (Or.inr (Or.inr ⟨rfl, rfl⟩))
      | cons a as => exact Or.inr (Or.inr (Or.inl ⟨a, as, rfl, rfl⟩))
    · rw [if_neg hij]
      exact Or.inl rfl

/-- After `calls` have taken the mutex: the state is that of these calls, the last of which
may still be on its way, and each thread has made a first part of its program. -/
structure Atomic (s : σ) (program : List (List κ)) (calls : List (ℕ × κ)) (t : Mutex σ κ β) :
    Prop where
  free : t.holder = none → t.state = execAll exec statements s calls
  held : ∀ i rest, t.holder = some (i, rest) →
    ∃ earlier c done, calls = earlier ++ [(i, c)] ∧ statements c = done ++ rest ∧
      t.state = done.foldl exec (execAll exec statements s earlier)
  threads : ∀ i, callsOf calls i ++ t.pending.getD i [] = program.getD i []

variable {exec statements} {s : σ} {program : List (List κ)} {calls : List (ℕ × κ)} {t : Mutex σ κ β}

theorem Atomic.advance (h : Atomic exec statements s program calls t) (i : ℕ) :
    Atomic exec statements s program (calls ++ (t.advance exec statements i).2)
      (t.advance exec statements i).1 := by
  obtain hstep | ⟨c, cs, hfree, hnext, hstep⟩ | ⟨a, as, hheld, hstep⟩ | ⟨hheld, hstep⟩ :=
    advance_cases exec statements t i
  · rw [hstep, List.append_nil]
    exact h
  · rw [hstep]
    refine ⟨nofun, ?_, ?_⟩
    · rintro j rest hj
      obtain ⟨rfl, rfl⟩ : i = j ∧ statements c = rest := by simpa using hj
      exact ⟨calls, c, [], rfl, rfl, h.free hfree⟩
    · intro j
      have hj := h.threads j
      have hlt : i < t.pending.length := (List.getElem?_eq_some_iff.mp hnext).1
      by_cases hij : i = j
      · subst hij
        rw [List.getD_eq_getElem?_getD, hnext, Option.getD_some] at hj
        rw [callsOf_append, List.getD_eq_getElem?_getD, List.getElem?_set_self hlt, ← hj]
        simp [callsOf]
      · rw [callsOf_append, List.getD_eq_getElem?_getD, List.getElem?_set_ne hij,
          ← List.getD_eq_getElem?_getD, ← hj]
        simp [callsOf, hij]
  · rw [hstep, List.append_nil]
    obtain ⟨earlier, c, done, hcalls, hsplit, hstate⟩ := h.held i (a :: as) hheld
    refine ⟨nofun, ?_, h.threads⟩
    rintro j rest hj
    obtain ⟨rfl, rfl⟩ : i = j ∧ as = rest := by simpa using hj
    refine ⟨earlier, c, done ++ [a], hcalls, by simp [hsplit], ?_⟩
    rw [List.foldl_append, ← hstate]
    rfl
  · rw [hstep, List.append_nil]
    obtain ⟨earlier, c, done, hcalls, hsplit, hstate⟩ := h.held i [] hheld
    refine ⟨fun _ => ?_, nofun, h.threads⟩
    rw [List.append_nil] at hsplit
    rw [hcalls, execAll, List.foldl_append, List.foldl_cons, List.foldl_nil, hsplit]
    exact hstate

variable (exec statements) in
/-- Under every schedule the calls are atomic. -/
theorem atomic (s : σ) (program : List (List κ)) (schedule : List ℕ) :
    Atomic exec statements s program
      ((machine exec statements).out { state := s, pending := program } schedule)
      ((machine exec statements).run { state := s, pending := program } schedule) := by
  have hstart : Atomic exec statements s program [] { state := s, pending := program } :=
    ⟨fun _ => rfl, nofun, fun i => rfl⟩
  have hrun := (machine exec statements).history_invariant
    (I := Atomic exec statements s program) (fun _ _ i h => h.advance i) hstart schedule
  rwa [List.nil_append] at hrun

end Mutex
end Machine

import IrcBot.Machine.Mealy
import Mathlib.Data.List.Count

/-! Asynchronous operations on one descriptor. An operation that is started ends once, by
itself or because the descriptor is cancelled or closed; its end is queued, and a handler
that takes it from the queue may start the next operation. The descriptor and the ends after
which the handler starts one are parameters of everything here. -/
namespace Machine

/-- How an operation has ended. -/
inductive Completion (κ : Type*)
  | success (x : κ)
  | aborted
  | badDescriptor
  | failure
  deriving DecidableEq, Repr

/-- A descriptor, its operations that have not ended, and the ends that no handler has taken. -/
structure Operations (κ : Type*) where
  isOpen : Bool := true
  outstanding : ℕ := 0
  queued : List (Completion κ) := []
  deriving DecidableEq, Repr

namespace Operations
variable {κ : Type*}

/-- The descriptor is opened; an operation is started, cancelled or ends by itself, with a
result or without one; the descriptor is closed; the next handler runs. -/
inductive Event (κ : Type*)
  | reopen
  | start
  | finish (result : Option κ)
  | cancel
  | close
  | handle
  deriving DecidableEq, Repr

/-- The event needs nothing new from outside. -/
def Event.isInner : Event κ → Bool
  | reopen | start => false
  | _ => true

/-- The event runs a handler. -/
def Event.isHandle : Event κ → Bool
  | handle => true
  | _ => false

/-- Starts an operation; on a closed descriptor it ends at once. -/
def begin (o : Operations κ) : Operations κ :=
  if o.isOpen then { o with outstanding := o.outstanding + 1 }
  else { o with queued := o.queued ++ [.badDescriptor] }

def cancel (o : Operations κ) : Operations κ :=
  { o with outstanding := 0, queued := o.queued ++ List.replicate o.outstanding .aborted }

def close (o : Operations κ) : Operations κ := { o.cancel with isOpen := false }

/-- The end of an operation that nobody has cancelled. -/
def ended : Option κ → Completion κ
  | some x => .success x
  | none => .failure

def finish (o : Operations κ) (result : Option κ) : Operations κ :=
  match o.outstanding with
  | 0 => o
  | n + 1 => { o with outstanding := n, queued := o.queued ++ [ended result] }

variable (rearms : Completion κ → Bool)

/-- The next handler, and the end that it has taken from the queue. -/
def handle (o : Operations κ) : Operations κ × List (Completion κ) :=
  match o.queued with
  | [] => (o, [])
  | c :: cs =>
    let rest := { o with queued := cs }
    (if rearms c then rest.begin else rest, [c])

def step (o : Operations κ) : Event κ → Operations κ × List (Completion κ)
  | .reopen => ({ o with isOpen := true }, [])
  | .start => (o.begin, [])
  | .finish result => (o.finish result, [])
  | .cancel => (o.cancel, [])
  | .close => (o.close, [])
  | .handle => o.handle rearms

def machine : Mealy (Operations κ) (Event κ) (Completion κ) := ⟨step rearms⟩

@[simp] theorem machine_step (o : Operations κ) (e : Event κ) :
    (machine rearms).step o e = o.step rearms e := rfl

/-- Operations that have not ended and ends that no handler has taken. -/
def inFlight (o : Operations κ) : ℕ := o.outstanding + o.queued.length

/-- A closed descriptor has no operation that could end by itself. -/
structure Closed (o : Operations κ) : Prop where
  isClosed : o.isOpen = false
  ended : o.outstanding = 0

theorem close_closed (o : Operations κ) : o.close.Closed := ⟨rfl, rfl⟩

/-- What the handlers of a closed descriptor have still to do: an end whose handler starts an
operation comes back as a bad descriptor. -/
def remaining (o : Operations κ) : ℕ := (o.queued.map fun c => if rearms c then 2 else 1).sum

section closed
variable {rearms} {o : Operations κ} (h : o.Closed)
include h

theorem Closed.cancel_eq : o.cancel = o := by
  obtain ⟨isOpen, outstanding, queued⟩ := o
  obtain ⟨rfl, rfl⟩ : isOpen = false ∧ outstanding = 0 := ⟨h.isClosed, h.ended⟩
  simp [cancel]

theorem Closed.finish_eq (result : Option κ) : o.finish result = o := by
  simp [finish, h.ended]

theorem Closed.handle_eq {c : Completion κ} {cs : List (Completion κ)} (hq : o.queued = c :: cs) :
    (o.handle rearms).1 =
      { o with queued := cs ++ if rearms c then [.badDescriptor] else [] } := by
  by_cases hc : rearms c = true
  · simp [handle, hq, hc, begin, h.isClosed]
  · simp [handle, hq, hc]

variable (rearms) in
/-- An inner event on a closed descriptor does nothing or runs a handler. -/
theorem Closed.step_cases {e : Event κ} (he : e.isInner = true) :
    (o.step rearms e).1 = o ∧ (e.isHandle = true → o.queued = []) ∨
      ∃ c cs, e = .handle ∧ o.queued = c :: cs ∧ (o.step rearms e).1 =
        { o with queued := cs ++ if rearms c then [.badDescriptor] else [] } := by
  cases e with
  | reopen => simp [Event.isInner] at he
  | start => simp [Event.isInner] at he
  | finish result => exact Or.inl ⟨h.finish_eq result, by simp [Event.isHandle]⟩
  | cancel => exact Or.inl ⟨h.cancel_eq, by simp [Event.isHandle]⟩
  | close =>
    refine Or.inl ⟨?_, by simp [Event.isHandle]⟩
    rw [step, close, h.cancel_eq]
    exact congrArg (fun b => { o with isOpen := b }) h.isClosed.symm
  | handle =>
    cases hq : o.queued with
    | nil => exact Or.inl ⟨by simp [step, handle, hq], fun _ => rfl⟩
    | cons c cs => exact Or.inr ⟨c, cs, rfl, rfl, h.handle_eq hq⟩

variable (rearms) in
theorem Closed.step {e : Event κ} (he : e.isInner = true) : (o.step rearms e).1.Closed := by
  obtain ⟨hstay, -⟩ | ⟨c, cs, -, -, hnext⟩ := h.step_cases rearms he
  · rwa [hstay]
  · rw [hnext]
    exact ⟨h.isClosed, h.ended⟩

/-- A handler of a closed descriptor does one part of what remains. -/
theorem Closed.remaining_step (hbad : rearms .badDescriptor = false) {e : Event κ}
    (he : e.isInner = true) :
    remaining rearms (o.step rearms e).1 =
      remaining rearms o - if e.isHandle then 1 else 0 := by
  obtain ⟨hstay, hempty⟩ | ⟨c, cs, rfl, hq, hnext⟩ := h.step_cases rearms he
  · rw [hstay]
    by_cases hh : e.isHandle = true
    · simp [remaining, hempty hh]
    · simp [hh]
  · rw [hnext, remaining, remaining, hq]
    by_cases hc : rearms c = true
    · simp [hc, hbad, Event.isHandle]
      omega
    · simp [hc, Event.isHandle]

/-- After an end that makes the handler start an operation there is always another one, if a
bad descriptor is one. -/
theorem Closed.spins_step (hbad : rearms .badDescriptor = true) {e : Event κ}
    (he : e.isInner = true) (hc : ∃ c ∈ o.queued, rearms c = true) :
    ∃ c ∈ (o.step rearms e).1.queued, rearms c = true := by
  obtain ⟨hstay, -⟩ | ⟨c, cs, -, hq, hnext⟩ := h.step_cases rearms he
  · rwa [hstay]
  · rw [hnext]
    by_cases hh : rearms c = true
    · exact ⟨.badDescriptor, by simp [hh], hbad⟩
    · obtain ⟨d, hd, hdr⟩ := hc
      rw [hq] at hd
      obtain rfl | hd := List.mem_cons.mp hd
      · exact absurd hdr hh
      · exact ⟨d, List.mem_append_left _ hd, hdr⟩

/-- A handler that starts nothing leaves the rest of the queue. -/
theorem Closed.drains_step {e : Event κ} (he : e.isInner = true)
    (hno : ∀ c ∈ o.queued, rearms c = false) :
    (o.step rearms e).1.queued = o.queued.drop (if e.isHandle then 1 else 0) := by
  obtain ⟨hstay, hempty⟩ | ⟨c, cs, rfl, hq, hnext⟩ := h.step_cases rearms he
  · rw [hstay]
    by_cases hh : e.isHandle = true
    · simp [hempty hh]
    · simp [hh]
  · have hc := hno c (by simp [hq])
    rw [hnext, hq]
    simp [hc, Event.isHandle]

end closed

/-- The handlers that run. -/
def handles (w : List (Event κ)) : ℕ := w.countP Event.isHandle

section runs
variable {rearms} {o : Operations κ} {w : List (Event κ)}

/-- Without a bad descriptor among the ends that start an operation, the handlers of a closed
descriptor come to an end. -/
theorem Closed.remaining_run (h : o.Closed) (hbad : rearms .badDescriptor = false)
    (hw : ∀ e ∈ w, e.isInner = true) :
    remaining rearms ((machine rearms).run o w) = remaining rearms o - handles w := by
  induction w generalizing o with
  | nil => rfl
  | cons e w ih =>
    have he := hw e List.mem_cons_self
    have hrest := ih (h.step rearms he) fun e' he' => hw e' (List.mem_cons_of_mem e he')
    rw [Mealy.run_cons, machine_step, hrest, h.remaining_step hbad he, handles, handles,
      List.countP_cons]
    omega

/-- The handlers of a closed descriptor never come to an end. -/
theorem Closed.spins (h : o.Closed) (hbad : rearms .badDescriptor = true)
    (hc : ∃ c ∈ o.queued, rearms c = true) (hw : ∀ e ∈ w, e.isInner = true) :
    ∃ c ∈ ((machine rearms).run o w).queued, rearms c = true := by
  induction w generalizing o with
  | nil => exact hc
  | cons e w ih =>
    have he := hw e List.mem_cons_self
    exact ih (h.step rearms he) (h.spins_step hbad he hc) fun e' he' => hw e' (List.mem_cons_of_mem e he')

theorem Closed.drains (h : o.Closed) (hno : ∀ c ∈ o.queued, rearms c = false)
    (hw : ∀ e ∈ w, e.isInner = true) :
    ((machine rearms).run o w).queued = o.queued.drop (handles w) := by
  induction w generalizing o with
  | nil => rfl
  | cons e w ih =>
    have he := hw e List.mem_cons_self
    have hnext := h.drains_step he hno
    have hrest := ih (h.step rearms he) (fun c hc => hno c (by
      rw [hnext] at hc
      exact List.mem_of_mem_drop hc)) fun e' he' => hw e' (List.mem_cons_of_mem e he')
    rw [Mealy.run_cons, machine_step, hrest, hnext, List.drop_drop, handles, handles,
      List.countP_cons, Nat.add_comm]

variable (rearms) in
theorem queued_eq_nil_iff : o.queued = [] ↔ remaining rearms o = 0 := by
  cases hq : o.queued with
  | nil => simp [remaining, hq]
  | cons c cs =>
    have hpos : 0 < if rearms c then 2 else 1 := by split <;> decide
    simp only [remaining, hq, List.map_cons, List.sum_cons, List.cons_ne_nil, false_iff]
    omega

end runs

end Operations

/-- What a loop uses of a descriptor. -/
structure Descriptor (κ : Type*) where
  Carrier : Type
  new : Carrier
  /-- The state of the descriptor: whether it is open, its operations and their ends. -/
  view : Carrier → Operations κ
  reopen : Carrier → Carrier
  /-- Starts an operation. -/
  start : Carrier → Carrier
  cancel : Carrier → Carrier
  close : Carrier → Carrier
  /-- An operation ends by itself. -/
  finish : Carrier → Option κ → Carrier
  /-- The handler of the first end is called. -/
  take : Carrier → Carrier

/-- The documented effects. An operation started on a closed descriptor ends with a bad descriptor;
a cancelled one ends as aborted, and closing cancels all; an operation that ends by itself has its
result or an error; ends are handed to the handlers one by one, in order. -/
structure Descriptor.Documented {κ : Type*} (D : Descriptor κ) : Prop where
  view_new : D.view D.new = {}
  view_reopen : ∀ d, D.view (D.reopen d) = { D.view d with isOpen := true }
  view_start : ∀ d, D.view (D.start d) = (D.view d).begin
  view_cancel : ∀ d, D.view (D.cancel d) = (D.view d).cancel
  view_close : ∀ d, D.view (D.close d) = (D.view d).close
  view_finish : ∀ d result, D.view (D.finish d result) = (D.view d).finish result
  view_take : ∀ d, D.view (D.take d) = { D.view d with queued := (D.view d).queued.tail }

namespace Descriptor
variable {κ : Type*} (D : Descriptor κ) (rearms : Completion κ → Bool)

/-- The next handler, which starts an operation or not. -/
def handle (d : D.Carrier) : D.Carrier × List (Completion κ) :=
  match (D.view d).queued with
  | [] => (d, [])
  | c :: _ => (if rearms c then D.start (D.take d) else D.take d, [c])

def step (d : D.Carrier) : Operations.Event κ → D.Carrier × List (Completion κ)
  | .reopen => (D.reopen d, [])
  | .start => (D.start d, [])
  | .finish result => (D.finish d result, [])
  | .cancel => (D.cancel d, [])
  | .close => (D.close d, [])
  | .handle => D.handle rearms d

def machine : Mealy D.Carrier (Operations.Event κ) (Completion κ) := ⟨D.step rearms⟩

/-- The operations themselves are such a descriptor. -/
def ofOperations (κ : Type) : Descriptor κ where
  Carrier := Operations κ
  new := {}
  view := id
  reopen o := { o with isOpen := true }
  start := Operations.begin
  cancel := Operations.cancel
  close := Operations.close
  finish := Operations.finish
  take o := { o with queued := o.queued.tail }

theorem documented_ofOperations (κ : Type) : (ofOperations κ).Documented :=
  ⟨rfl, fun _ => rfl, fun _ => rfl, fun _ => rfl, fun _ => rfl, fun _ _ => rfl, fun _ => rfl⟩

variable {D} in
/-- A documented descriptor goes through the states of its operations. -/
theorem Documented.view_step (hD : D.Documented) (d : D.Carrier) (e : Operations.Event κ) :
    D.view (D.step rearms d e).1 = ((D.view d).step rearms e).1 ∧
      (D.step rearms d e).2 = ((D.view d).step rearms e).2 := by
  cases e with
  | reopen => exact ⟨hD.view_reopen d, rfl⟩
  | start => exact ⟨hD.view_start d, rfl⟩
  | finish result => exact ⟨hD.view_finish d result, rfl⟩
  | cancel => exact ⟨hD.view_cancel d, rfl⟩
  | close => exact ⟨hD.view_close d, rfl⟩
  | handle =>
    rw [step, handle, Operations.step, Operations.handle]
    cases hq : (D.view d).queued with
    | nil => exact ⟨rfl, rfl⟩
    | cons c cs =>
      have htake := hD.view_take d
      rw [hq, List.tail_cons] at htake
      refine ⟨?_, rfl⟩
      dsimp only
      split_ifs
      · rw [hD.view_start, htake]
      · exact htake

variable {D} in
theorem Documented.view_run (hD : D.Documented) (d : D.Carrier) (w : List (Operations.Event κ)) :
    D.view ((D.machine rearms).run d w) = (Operations.machine rearms).run (D.view d) w := by
  have hstep : ∀ (d : D.Carrier) (o : Operations κ) (e : Operations.Event κ), D.view d = o →
      D.view (D.step rearms d e).1 = (o.step rearms e).1 ∧
        (D.step rearms d e).2 = (o.step rearms e).2 := by
    rintro d o e rfl
    exact hD.view_step rearms d e
  exact ((D.machine rearms).simulation (N := Operations.machine rearms) hstep rfl w).1

end Descriptor
end Machine

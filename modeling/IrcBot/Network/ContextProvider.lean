import IrcBot.Plugin.Plugin

/-! The io context of the process and its thread. The thread calls the handlers of the operations
that have ended, one after the other, until the context is stopped or has no work left. The context
is a `boost::asio::io_service` and a parameter of the model. -/
namespace IrcBot.Network

/-- What `m_context_thread` stands for until it is joined; in a process that has been forked off
it is no thread. -/
inductive ContextThread
  | running | finished | absent
  deriving DecidableEq, Repr

/-- What is used of `boost::asio::io_service`, whose handlers are `κ`. -/
structure IoService (κ : Type*) where
  Carrier : Type
  new : Carrier
  stopped : Carrier → Bool
  /-- The handlers of the operations that have ended, in this order. -/
  ready : Carrier → List κ
  /-- Some operations have not ended. -/
  pending : Carrier → Bool
  reset : Carrier → Carrier
  stop : Carrier → Carrier
  /-- Some operations are started. -/
  start : Carrier → ℕ → Carrier
  /-- An operation ends, if there is one. -/
  finish : Carrier → κ → Carrier
  /-- The first of the handlers that are ready is called. -/
  runOne : Carrier → Carrier

/-- The documented effects. Only `reset` and `stop` change whether the context is stopped, and they
keep the handlers; these are called in the order in which their operations have ended. -/
structure IoService.Documented {κ : Type*} (S : IoService κ) : Prop where
  stopped_new : S.stopped S.new = false
  stopped_reset : ∀ c, S.stopped (S.reset c) = false
  stopped_stop : ∀ c, S.stopped (S.stop c) = true
  stopped_start : ∀ c n, S.stopped (S.start c n) = S.stopped c
  stopped_finish : ∀ c x, S.stopped (S.finish c x) = S.stopped c
  stopped_runOne : ∀ c, S.stopped (S.runOne c) = S.stopped c
  ready_new : S.ready S.new = []
  ready_reset : ∀ c, S.ready (S.reset c) = S.ready c
  ready_stop : ∀ c, S.ready (S.stop c) = S.ready c
  ready_start : ∀ c n, S.ready (S.start c n) = S.ready c
  ready_finish : ∀ c x, S.ready (S.finish c x) = if S.pending c then S.ready c ++ [x] else S.ready c
  ready_runOne : ∀ c, S.ready (S.runOne c) = (S.ready c).tail

/-- The provider: the context, whether there is `m_work`, and the thread. -/
structure ContextProvider {κ : Type*} (S : IoService κ) where
  context : S.Carrier := S.new
  work : Bool := false
  thread : Option ContextThread := none
  /-- How the last call goes on. -/
  control : Control := .returns

namespace ContextProvider
variable {κ : Type*} {S : IoService κ}

/-- The thread is assigned, which an old one that has not been joined does not survive. -/
def run (c : ContextProvider S) : ContextProvider S :=
  let c := { c with context := S.reset c.context, work := true }
  if c.thread.isSome then { c with control := .terminates } else { c with thread := some .running }

def stopWork (c : ContextProvider S) : ContextProvider S := { c with work := false }

/-- `stop`, up to the end of the thread. -/
def stop (c : ContextProvider S) : ContextProvider S :=
  if c.thread.isSome then { c.stopWork with context := S.stop c.context, control := .joins }
  else c.stopWork

/-- The `join` in `stop` returns. -/
def joined (c : ContextProvider S) : ContextProvider S :=
  if c.control = .joins ∧ c.thread = some .finished then
    { c with thread := none, control := .returns }
  else c

/-- A copy of the provider in a process that is forked off: only the thread that has called `fork`
goes on there. -/
def forked (c : ContextProvider S) : ContextProvider S :=
  { c with thread := c.thread.map fun _ => .absent }

def start (c : ContextProvider S) (started : ℕ) : ContextProvider S :=
  { c with context := S.start c.context started }

def finish (c : ContextProvider S) (x : κ) : ContextProvider S :=
  { c with context := S.finish c.context x }

/-- The thread goes on: it ends with `m_context.run()`, waits for an operation to end, or calls a
handler, which starts some operations. -/
def turn (c : ContextProvider S) (started : ℕ) : ContextProvider S × List κ :=
  if c.thread ≠ some .running then (c, [])
  else if S.stopped c.context then ({ c with thread := some .finished }, [])
  else match S.ready c.context with
    | x :: _ => ({ c with context := S.start (S.runOne c.context) started }, [x])
    | [] =>
      if c.work ∨ S.pending c.context then (c, [])
      else ({ c with context := S.stop c.context, thread := some .finished }, [])

/-- The thread takes handlers as long as there is `m_work`. -/
structure Serving (c : ContextProvider S) : Prop where
  work : c.work = true
  stopped : S.stopped c.context = false
  control : c.control = .returns

variable (hS : S.Documented) {c : ContextProvider S}
include hS

theorem Serving.start (h : c.Serving) (started : ℕ) : (c.start started).Serving :=
  ⟨h.work, (hS.stopped_start c.context started).trans h.stopped, h.control⟩

theorem Serving.finish (h : c.Serving) (x : κ) : (c.finish x).Serving :=
  ⟨h.work, (hS.stopped_finish c.context x).trans h.stopped, h.control⟩

/-- A turn leaves the thread where it is, there or not. -/
theorem Serving.turn (h : c.Serving) (started : ℕ) :
    (c.turn started).1.Serving ∧ (c.turn started).1.thread = c.thread := by
  by_cases hthread : c.thread = some .running
  swap
  · rw [ContextProvider.turn, if_pos hthread]
    exact ⟨h, rfl⟩
  rw [ContextProvider.turn, if_neg (not_not.mpr hthread), if_neg (by simp [h.stopped])]
  cases hready : S.ready c.context with
  | nil =>
    dsimp only
    rw [if_pos (Or.inl h.work)]
    exact ⟨h, rfl⟩
  | cons x xs =>
    have hkept : S.stopped (S.start (S.runOne c.context) started) = false := by
      rw [hS.stopped_start, hS.stopped_runOne, h.stopped]
    exact ⟨⟨h.work, hkept, h.control⟩, rfl⟩

omit hS in
/-- The thread calls the first handler at its next turn. -/
theorem Serving.turn_ready (h : c.Serving) (hthread : c.thread = some .running) {x : κ} {xs : List κ}
    (hready : S.ready c.context = x :: xs) (started : ℕ) : (c.turn started).2 = [x] := by
  rw [ContextProvider.turn, if_neg (not_not.mpr hthread), if_neg (by simp [h.stopped]), hready]

omit hS in
/-- Without a thread a turn does nothing. -/
theorem turn_of_absent (hthread : c.thread ≠ some .running) (started : ℕ) :
    c.turn started = (c, []) := if_pos hthread

end ContextProvider

/-- A context as a queue of handlers. -/
structure HandlerQueue (κ : Type) where
  stopped : Bool := false
  outstanding : ℕ := 0
  ready : List κ := []
  deriving DecidableEq, Repr

namespace HandlerQueue
variable (κ : Type)

def service : IoService κ where
  Carrier := HandlerQueue κ
  new := {}
  stopped := stopped
  ready := ready
  pending c := c.outstanding ≠ 0
  reset c := { c with stopped := false }
  stop c := { c with stopped := true }
  start c started := { c with outstanding := c.outstanding + started }
  finish c x := if c.outstanding = 0 then c else
    { c with outstanding := c.outstanding - 1, ready := c.ready ++ [x] }
  runOne c := { c with ready := c.ready.tail }

theorem documented_service : (service κ).Documented where
  stopped_new := rfl
  stopped_reset _ := rfl
  stopped_stop _ := rfl
  stopped_start _ _ := rfl
  stopped_finish c x := by
    dsimp only [service]
    by_cases h : c.outstanding = 0 <;> simp [h]
  stopped_runOne _ := rfl
  ready_new := rfl
  ready_reset _ := rfl
  ready_stop _ := rfl
  ready_start _ _ := rfl
  ready_finish c x := by
    dsimp only [service]
    by_cases h : c.outstanding = 0 <;> simp [h]
  ready_runOne _ := rfl

end HandlerQueue
end IrcBot.Network

import IrcBot.Core.Triggers
import IrcBot.Machine.Interleaving

/-! A run of the bot from its first statement to its last one: the main thread executes `run`, and
what stops the run executes `stop`, on the io thread or in a signal handler on the main thread. -/
namespace IrcBot
open Machine IrcBot.Core

namespace Trigger

/-- What the main thread executes. A signal interrupts it after `place` statements. -/
def onMain (place : ℕ) (run : List Statement) : Trigger → List Statement
  | signal released => run.take place ++ stopStatements released ++ run.drop place
  | receiveError | shutdown => run

/-- The handler of a trigger that the io thread executes. -/
def onIo (t : Trigger) : List Statement :=
  match t with
  | signal _ => []
  | receiveError | shutdown => t.statements

end Trigger

/-- A run and what stops it. `place` is where a signal comes, `reached` whether there is a server
to connect to; `before` and `after` are what other handlers and the workers make of the plugins.
No error can be received before the connection is there. -/
structure Round where
  configured : List Bytes
  trigger : Trigger
  place : ℕ := 0
  reached : Bool := true
  before : List (List Registered) := []
  after : List (List Registered) := []
  order : List Statement
  interleaves :
    Interleaving (trigger.onMain place (runStatements reached configured))
      (before.map .handlers ++ trigger.onIo ++ after.map .handlers) order
  connected : trigger = .receiveError → [.connect reached, .setConnectionError].Sublist order

namespace Round

/-- The state after the run, if it comes to its end. -/
def execute (c : Core) (r : Round) : Option Core := r.order.foldlM exec c.begun

theorem execute_iff (c : Core) (r : Round) : (∃ d, execute c r = some d) ↔ c.begun.Meets r.order :=
  foldlM_exec_iff c.begun r.order

/-- What marks do not stand for other handlers are those of `run` and of the trigger, each in their
order. -/
theorem interleaves_marks {α : Type*} (r : Round) (mark : Statement → Option α)
    (hmark : ∀ present, mark (.handlers present) = none) :
    Interleaving ((runStatements r.reached r.configured).filterMap mark)
      (r.trigger.statements.filterMap mark) (r.order.filterMap mark) := by
  have horder := r.interleaves.filterMap mark
  have hothers : ∀ lists : List (List Registered), (lists.map Statement.handlers).filterMap mark = [] := by
    intro lists
    simp [hmark]
  rw [List.filterMap_append, List.filterMap_append, hothers, hothers, List.nil_append,
    List.append_nil] at horder
  cases ht : r.trigger with
  | receiveError | shutdown =>
    rw [ht] at horder
    exact horder
  | signal released =>
    rw [ht] at horder
    have hmain := horder.eq_of_nil_right
    rw [hmain, Trigger.onMain, List.filterMap_append, List.filterMap_append]
    have hnested := Interleaving.nested
      (((runStatements r.reached r.configured).take r.place).filterMap mark)
      ((stopStatements released).filterMap mark)
      (((runStatements r.reached r.configured).drop r.place).filterMap mark)
    rw [← List.filterMap_append, List.take_append_drop] at hnested
    exact hnested

end Round
end IrcBot

import IrcBot.Core.IoThread
import IrcBot.Core.Statements
import IrcBot.Machine.Threads

/-! What stops a run: an error of the IRC connection, a signal, or a command of the admin
port. Nothing keeps two of them apart, and the second `stop` of a run finds the acceptors
closed and the promise with its value. The command loses its own session to `stop`. -/
namespace IrcBot

/-- What makes a run stop. A signal comes to the main thread, so that the io thread goes on: the
connections of the plugins `released` end while `stop` waits for them. -/
inductive Trigger
  | receiveError
  | signal (released : List Bytes)
  | shutdown
  deriving DecidableEq, Repr

namespace Trigger
open IrcBot.Core

/-- The handler of the trigger. That of the command reads on in a session which is gone. -/
def call (c : Core) : Trigger → Core × Control
  | receiveError => { c with result := .connectionError }.stop
  | signal released => c.stop released
  | shutdown => andThen c.stop fun c => (c, .terminates)

def statements : Trigger → List Statement
  | receiveError => .setConnectionError :: stopStatements []
  | signal released => stopStatements released
  | shutdown => stopStatements [] ++ [.startReceiving]

/-- A trigger that can stop this run. -/
def Stops (c : Core) : Trigger → Prop
  | receiveError => c.Stoppable
  | signal released => c.Stoppable released
  | shutdown => False

theorem foldlM_statements (t : Trigger) (c : Core) :
    t.statements.foldlM exec c = returned (t.call c) := by
  cases t with
  | receiveError => exact foldlM_stopStatements [] { c with result := .connectionError }
  | signal released => exact foldlM_stopStatements released c
  | shutdown =>
    rw [statements, call, List.foldlM_append, foldlM_stopStatements, returned_andThen]
    rfl

end Trigger

namespace Core

/-- The triggers of a run that is in the state `c`, each of them before its first statement. -/
def stopping (c : Core) (triggers : List Trigger) : Machine.Threads Core Statement where
  state := some c
  pending := triggers.map Trigger.statements

/-- The state after the triggers have gone on in this order. -/
def afterSchedule (c : Core) (triggers : List Trigger) (schedule : List ℕ) :
    Machine.Threads Core Statement :=
  (Machine.Threads.machine exec).run (c.stopping triggers) schedule

/-- In every order all statements return, and when all triggers are through, the bot is as
after a single `stop`, which has set the promise. -/
def StopsOnce (c : Core) (triggers : List Trigger) : Prop :=
  ∀ schedule, ∃ d, (c.afterSchedule triggers schedule).state = some d ∧
    ((c.afterSchedule triggers schedule).finished = true → triggers ≠ [] →
      ∃ t ∈ triggers, t.call c = (d, .returns) ∧ d.stopPromise ≠ none)

end Core

namespace Trigger
open IrcBot.Core

/-- A trigger sets the promise once. -/
theorem statements_eq (t : Trigger) :
    ∃ before after, t.statements = before ++ .setStopPromise :: after ∧
      Statement.setStopPromise ∉ before ∧ Statement.setStopPromise ∉ after := by
  cases t with
  | receiveError =>
    exact ⟨[.setConnectionError, .disconnect, .stopPlugins [], .stopTcpPluginServer,
      .deinitializePlugins, .stopAdminPort], [], rfl, by simp, by simp⟩
  | signal released =>
    exact ⟨[.disconnect, .stopPlugins released, .stopTcpPluginServer, .deinitializePlugins,
      .stopAdminPort], [], rfl, by simp, by simp⟩
  | shutdown =>
    exact ⟨[.disconnect, .stopPlugins [], .stopTcpPluginServer, .deinitializePlugins,
      .stopAdminPort], [.startReceiving], rfl, by simp, by simp⟩

/-- A trigger that is through has found the promise without a value and has set it. -/
theorem foldlM_statements_stopPromise {t : Trigger} {c d : Core}
    (h : t.statements.foldlM exec c = some d) : c.stopPromise = none ∧ d.stopPromise ≠ none := by
  obtain ⟨before, after, hstatements, hbefore, hafter⟩ := t.statements_eq
  rw [hstatements, List.foldlM_append] at h
  obtain ⟨c', hc', hrest⟩ := Option.bind_eq_some_iff.mp h
  rw [List.foldlM_cons] at hrest
  obtain ⟨c'', hset, hrest⟩ := Option.bind_eq_some_iff.mp hrest
  obtain ⟨hnone, rfl⟩ := exec_setStopPromise hset
  rw [foldlM_stopPromise hafter hrest, ← foldlM_stopPromise hbefore hc']
  exact ⟨hnone, nofun⟩

/-- The handler of a trigger returns exactly if the trigger can stop the run. -/
theorem call_returns_iff {c : Core} (h : ∀ r ∈ c.plugins, r.Healthy) (t : Trigger) :
    (t.call c).2 = .returns ↔ t.Stops c := by
  cases t with
  | receiveError => exact stop_returns_iff (c := { c with result := .connectionError }) h
  | signal released => exact stop_returns_iff h released
  | shutdown =>
    refine iff_of_false (fun hret => ?_) id
    unfold call at hret
    obtain ⟨⟨d, k⟩, hd⟩ : ∃ x, c.stop = x := ⟨_, rfl⟩
    rw [hd] at hret
    cases k <;> cases hret

end Trigger

namespace Core

/-- A single trigger stops the run exactly if it can. -/
theorem stopsOnce_single {c : Core} (h : ∀ r ∈ c.plugins, r.Healthy) (t : Trigger) :
    c.StopsOnce [t] ↔ t.Stops c := by
  rw [← t.call_returns_iff h]
  constructor
  · intro hstops
    have hpending : (c.stopping [t]).pending[0]? = some t.statements := rfl
    obtain ⟨hstate, -⟩ := Machine.Threads.run_thread exec rfl hpending
    obtain ⟨d, hd, -⟩ := hstops (List.replicate t.statements.length 0)
    have hret : returned (t.call c) = some d := by
      rw [← Trigger.foldlM_statements, ← hstate]
      exact hd
    exact congrArg Prod.snd (returned_eq_some.mp hret)
  · intro hret schedule
    have hcall : t.call c = ((t.call c).1, .returns) := Prod.ext rfl hret
    have hall : t.statements.foldlM exec c = some (t.call c).1 := by
      rw [Trigger.foldlM_statements, returned_eq_some]
      exact hcall
    obtain ⟨done, rest, hstatements, hpending, hstate⟩ :=
      Machine.Threads.run_single exec c t.statements schedule
    have hstate : (c.afterSchedule [t] schedule).state = done.foldlM exec c := hstate
    have hpending : (c.afterSchedule [t] schedule).pending = [rest] := hpending
    rw [hstatements, List.foldlM_append] at hall
    obtain ⟨d, hd, hrest⟩ := Option.bind_eq_some_iff.mp hall
    refine ⟨d, hstate.trans hd, fun hfinished _ => ⟨t, by simp, ?_⟩⟩
    obtain rfl : rest = [] := by simpa [Machine.Threads.finished, hpending] using hfinished
    obtain rfl : d = (t.call c).1 := by simpa using hrest
    rw [List.append_nil] at hstatements
    rw [← hstatements] at hd
    exact ⟨hcall, (Trigger.foldlM_statements_stopPromise hd).2⟩

/-- The second of two triggers finds the promise with a value. -/
theorem not_stopsOnce (c : Core) (t t' : Trigger) (triggers : List Trigger) :
    ¬ c.StopsOnce (t :: t' :: triggers) := by
  intro hstops
  have hzero : (c.stopping (t :: t' :: triggers)).pending[0]? = some t.statements := rfl
  obtain ⟨hstate, hpending⟩ := Machine.Threads.run_thread exec rfl hzero
  obtain ⟨d, hd, -⟩ := hstops (List.replicate t.statements.length 0)
  have hfirst : t.statements.foldlM exec c = some d := by
    rw [← hstate]
    exact hd
  have hset := (Trigger.foldlM_statements_stopPromise hfirst).2
  have hone : (c.afterSchedule (t :: t' :: triggers)
      (List.replicate t.statements.length 0)).pending[1]? = some t'.statements := by
    rw [afterSchedule, hpending (by rw [hfirst]; nofun)]
    rfl
  obtain ⟨hstate', -⟩ := Machine.Threads.run_thread exec hd hone
  obtain ⟨d', hd', -⟩ := hstops
    (List.replicate t.statements.length 0 ++ List.replicate t'.statements.length 1)
  have hsecond : t'.statements.foldlM exec d = some d' := by
    rw [← hstate', afterSchedule, ← Machine.Mealy.run_append]
    exact hd'
  exact hset (Trigger.foldlM_statements_stopPromise hsecond).1

end Core
end IrcBot

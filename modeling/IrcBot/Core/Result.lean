import IrcBot.Core.Round

/-! The result that the main loop reads at the end of a run. It is written on one of the ways
to `stop` only and never put back, so that a run that is stopped on request reports the
connection error of an earlier run. -/
namespace IrcBot
open Machine IrcBot.Core

namespace Trigger

/-- The result that tells what has stopped the run. -/
def result : Trigger → RunResult
  | receiveError => .connectionError
  | signal _ | shutdown => .ok

/-- What the promise gets in a run that begins with this result. -/
def reported (before : RunResult) : Trigger → RunResult
  | receiveError => .connectionError
  | signal _ | shutdown => before

end Trigger

/-- The value of the promise; the promise of a run is read once. -/
def Core.waitForStop (c : Core) : Option RunResult := c.stopPromise

/-- The condition of the main loop. -/
def RunResult.reconnects (r : RunResult) : Bool := r ≠ .ok

/-- The statements that write the result and the promise. -/
inductive Report
  | setConnectionError | setStopPromise
  deriving DecidableEq

namespace Report

def mark : Statement → Option Report
  | .setConnectionError => some .setConnectionError
  | .setStopPromise => some .setStopPromise
  | _ => none

/-- The result and the promise after a statement that comes back. -/
def step (s : RunResult × Option RunResult) : Report → RunResult × Option RunResult
  | setConnectionError => (.connectionError, s.2)
  | setStopPromise => (s.1, some s.1)

theorem step_exec (c d : Core) (s : Statement) (t : RunResult × Option RunResult)
    (h : (c.result, c.stopPromise) = t) (hexec : exec c s = some d) :
    (d.result, d.stopPromise) = (mark s).elim t (step t) := by
  subst h
  by_cases hresult : s = .setConnectionError
  · subst hresult
    obtain rfl : _ = d := congrArg Prod.fst (exec_eq_some.mp hexec)
    rfl
  by_cases hpromise : s = .setStopPromise
  · subst hpromise
    obtain ⟨-, rfl⟩ := exec_setStopPromise hexec
    rfl
  have hkeep := Statement.call_keeps c hresult hpromise
  rw [exec_eq_some.mp hexec] at hkeep
  have hnone : mark s = none := by
    cases s with
    | setConnectionError => exact absurd rfl hresult
    | setStopPromise => exact absurd rfl hpromise
    | _ => rfl
  rw [hnone, Option.elim_none, hkeep.1, hkeep.2]

end Report

namespace Round

/-- What a run reports, and the result it leaves to the next one. -/
theorem execute_spec {r : Round} {c d : Core} (h : execute c r = some d) :
    d.waitForStop = some (r.trigger.reported c.result) ∧ d.result = r.trigger.reported c.result := by
  have hspec := foldlM_outline (R := fun c t => (c.result, c.stopPromise) = t) Report.step
    (fun s _ c d => Report.step_exec c d s) (t := (c.result, none)) rfl h
  have hmarks := r.interleaves_marks Report.mark fun _ => rfl
  have hrun : (runStatements r.reached r.configured).filterMap Report.mark = [] := rfl
  rw [hrun] at hmarks
  rw [hmarks.eq_of_nil_left] at hspec
  cases ht : r.trigger with
  | receiveError | signal | shutdown =>
    rw [ht] at hspec
    obtain ⟨hresult, hpromise⟩ := Prod.mk.inj hspec
    exact ⟨hpromise, hresult⟩

/-- The result is a connection error from the first one on. -/
theorem history_result {earlier : List Round} {c d : Core} (h : earlier.foldlM execute c = some d) :
    d.result = if ∃ e ∈ earlier, e.trigger = .receiveError then .connectionError else c.result := by
  induction earlier generalizing c with
  | nil =>
    obtain rfl : c = d := by simpa using h
    simp
  | cons e earlier ih =>
    rw [List.foldlM_cons] at h
    obtain ⟨c', hc', hrest⟩ := Option.bind_eq_some_iff.mp h
    rw [ih hrest, (execute_spec hc').2]
    cases ht : e.trigger <;> simp [ht, Trigger.reported]

/-- The run comes to its end and reports what has stopped it, so that the main loop goes on or
ends accordingly. -/
def ReportsOwn (c : Core) (r : Round) : Prop :=
  ∃ d v, execute c r = some d ∧ d.waitForStop = some v ∧ v = r.trigger.result ∧
    (v.reconnects = true ↔ r.trigger = .receiveError)

/-- The first run, with a plugin whose worker has come into its loop when the signal comes. -/
def stoppedBySignal : Round where
  configured := [text ['p']]
  trigger := .signal []
  place := 5
  before := [[.so { id := text ['p'], thread := some .looping }]]
  order := runStatements true [text ['p']] ++
    .handlers [.so { id := text ['p'], thread := some .looping }] :: stopStatements []
  interleaves := by decide
  connected := nofun

/-- A run whose connection breaks before the plugins are there. -/
def brokenEarly : Round where
  configured := []
  trigger := .receiveError
  order := .connect true :: .setConnectionError :: stopStatements [] ++
    [.initializePlugins [], .startPlugins, .startTcpPluginServer, .startAdminPort]
  interleaves := by decide
  connected := by decide

/-- A run without plugins that a signal stops. -/
def stoppedIdle : Round where
  configured := []
  trigger := .signal []
  place := 5
  order := runStatements true [] ++ stopStatements []
  interleaves := by decide
  connected := nofun

end Round
end IrcBot

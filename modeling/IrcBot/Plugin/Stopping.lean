import IrcBot.Machine.Mealy
import IrcBot.Plugin.Plugin

/-! `Plugin::stop` and `Plugin::spawn` against `Plugin::run`, one statement at a time. `stop`
clears the flag and joins the thread; `run` sets the flag as the first thing it does. A `stop`
that comes between the creation of the thread and this statement is forgotten, and its `join`
never returns. -/
namespace IrcBot

/-- The thread of a plugin: it has been created, `onInit` runs, the condition of the loop is
tested, the body of the loop runs, or it has ended. -/
inductive Stopping.Thread
  | created | initializing | testing | waiting | ended
  deriving DecidableEq, Repr

/-- The io thread: it does something else, or is in front of a statement of `stop`. After it
`restartPlugin` calls `spawn`. -/
inductive Stopping.Caller
  | idle
  | testing (restart : Bool)
  | clearing (restart : Bool)
  | joining (restart : Bool)
  | terminated
  deriving DecidableEq, Repr

structure Stopping where
  running : Bool := true
  thread : Option Stopping.Thread := none
  caller : Stopping.Caller := .idle
  deriving DecidableEq, Repr

namespace Stopping

/-- A handler calls `stop` or `restartPlugin`; the io thread executes the next statement of it;
the thread of the plugin executes its next one. -/
inductive Event
  | call (restart : Bool)
  | io
  | worker
  deriving DecidableEq, Repr

/-- Assigning to a joinable thread terminates the process. -/
def spawn (s : Stopping) : Stopping :=
  let s := { s with running := true }
  if s.thread.isSome then { s with caller := .terminated }
  else { s with thread := some .created, caller := .idle }

/-- What follows `stop`. -/
def stopped (s : Stopping) (restart : Bool) : Stopping :=
  if restart then s.spawn else { s with caller := .idle }

def io (s : Stopping) : Stopping :=
  match s.caller with
  | .idle | .terminated => s
  | .testing restart => if ¬ s.running then s.stopped restart else { s with caller := .clearing restart }
  | .clearing restart =>
    let s := { s with running := false }
    if s.thread.isSome then { s with caller := .joining restart } else s.stopped restart
  | .joining restart =>
    if s.thread = some .ended then { s with thread := none }.stopped restart else s

/-- The handlers of the plugin return. -/
def worker (s : Stopping) : Stopping :=
  match s.thread with
  | none | some .ended => s
  | some .created => { s with running := true, thread := some .initializing }
  | some .initializing => { s with thread := some .testing }
  | some .testing =>
    if s.running then { s with thread := some .waiting } else { s with thread := some .ended }
  | some .waiting => { s with thread := some .testing }

def step (s : Stopping) : Event → Stopping
  | .call restart => if s.caller = .idle then { s with caller := .testing restart } else s
  | .io => s.io
  | .worker => s.worker

def machine : Machine.Mealy Stopping Event Empty := ⟨fun s e => (s.step e, [])⟩

@[simp] theorem machine_step (s : Stopping) (e : Event) : machine.step s e = (s.step e, []) := rfl

/-- The `join` waits for a thread that goes on for ever. -/
def Hung (s : Stopping) : Prop :=
  (∃ restart, s.caller = .joining restart) ∧
    (s.thread = some .created ∨ s.running = true ∧ s.thread ≠ some .ended ∧ s.thread ≠ none)

/-- The flag is not cleared before the thread has set it. -/
def Begun (s : Stopping) (e : Event) : Prop :=
  e = .io → (∃ restart, s.caller = .clearing restart) → s.thread ≠ some .created

/-- A `join` waits for a thread that finds the flag cleared. -/
structure Sound (s : Stopping) : Prop where
  joining : ∀ restart, s.caller = .joining restart →
    s.running = false ∧ s.thread ≠ some .created ∧ s.thread ≠ none

variable {s : Stopping}

theorem Sound.not_hung (h : s.Sound) : ¬ s.Hung := by
  rintro ⟨⟨restart, hcaller⟩, hthread⟩
  obtain ⟨hrun, hcreated, -⟩ := h.joining restart hcaller
  rcases hthread with hthread | ⟨hrunning, -⟩
  · exact hcreated hthread
  · rw [hrun] at hrunning
    cases hrunning

theorem sound_of_ne (h : ∀ restart, s.caller ≠ .joining restart) : s.Sound :=
  ⟨fun restart hcaller => absurd hcaller (h restart)⟩

theorem sound_stopped (s : Stopping) (restart : Bool) : (s.stopped restart).Sound := by
  refine sound_of_ne fun restart' => ?_
  unfold stopped spawn
  dsimp only
  split_ifs <;> simp

theorem worker_caller (s : Stopping) : s.worker.caller = s.caller := by
  unfold worker
  split
  · rfl
  · rfl
  · rfl
  · rfl
  · split_ifs <;> rfl
  · rfl

theorem Sound.worker (h : s.Sound) : s.worker.Sound := by
  refine ⟨fun restart hcaller => ?_⟩
  rw [worker_caller] at hcaller
  obtain ⟨hrun, hcreated, hsome⟩ := h.joining restart hcaller
  obtain ⟨t, ht⟩ := Option.ne_none_iff_exists'.mp hsome
  unfold Stopping.worker
  rw [ht]
  cases t with
  | created => exact absurd ht hcreated
  | ended => exact ⟨hrun, hcreated, hsome⟩
  | initializing | waiting => exact ⟨hrun, by simp, by simp⟩
  | testing =>
    dsimp only
    rw [if_neg (by simp [hrun])]
    exact ⟨hrun, by simp, by simp⟩

theorem Sound.step (h : s.Sound) {e : Event} (he : Begun s e) : (s.step e).Sound := by
  cases e with
  | worker => exact h.worker
  | call restart =>
    rw [Stopping.step]
    split_ifs
    · exact sound_of_ne (by simp)
    · exact h
  | io =>
    rw [Stopping.step, io]
    cases hcaller : s.caller with
    | idle | terminated => exact h
    | testing restart =>
      dsimp only
      split_ifs
      · exact sound_of_ne (by simp)
      · exact sound_stopped s restart
    | clearing restart =>
      have hcreated := he rfl ⟨restart, hcaller⟩
      dsimp only
      split_ifs with hthread
      · exact ⟨fun _ _ => ⟨rfl, hcreated, by rw [← Option.isSome_iff_ne_none]; exact hthread⟩⟩
      · exact sound_stopped _ restart
    | joining restart =>
      dsimp only
      split_ifs
      · exact sound_stopped _ restart
      · exact h

theorem hung_of_not_begun {e : Event} (he : ¬ Begun s e) : (s.step e).Hung := by
  unfold Begun at he
  push Not at he
  obtain ⟨rfl, ⟨restart, hcaller⟩, hcreated⟩ := he
  rw [Stopping.step, io, hcaller]
  dsimp only
  rw [if_pos (by rw [hcreated]; rfl)]
  exact ⟨⟨restart, rfl⟩, .inl hcreated⟩

/-- The thread sets the flag again, and tests it for ever. -/
theorem Hung.step (h : s.Hung) (e : Event) : (s.step e).Hung := by
  obtain ⟨⟨restart, hcaller⟩, hthread⟩ := h
  cases e with
  | call restart' =>
    rw [Stopping.step, if_neg (by simp [hcaller])]
    exact ⟨⟨restart, hcaller⟩, hthread⟩
  | io =>
    have hended : s.thread ≠ some .ended := by
      rcases hthread with hcreated | ⟨-, hended, -⟩
      · simp [hcreated]
      · exact hended
    rw [Stopping.step, io, hcaller]
    dsimp only
    rw [if_neg hended]
    exact ⟨⟨restart, hcaller⟩, hthread⟩
  | worker =>
    rw [Stopping.step]
    refine ⟨⟨restart, (worker_caller s).trans hcaller⟩, .inr ?_⟩
    unfold worker
    rcases hthread with hcreated | ⟨hrun, hended, hsome⟩
    · rw [hcreated]
      exact ⟨rfl, by simp, by simp⟩
    · obtain ⟨t, ht⟩ := Option.ne_none_iff_exists'.mp hsome
      rw [ht]
      cases t with
      | created => exact ⟨rfl, by simp, by simp⟩
      | ended => exact absurd ht hended
      | initializing | waiting => exact ⟨hrun, by simp, by simp⟩
      | testing =>
        dsimp only
        rw [if_pos hrun]
        exact ⟨hrun, by simp, by simp⟩

/-- Steps that the thread has still to take when it finds the flag cleared. -/
def left : Option Thread → ℕ
  | some .created => 3
  | some .initializing | some .waiting => 2
  | some .testing => 1
  | none | some .ended => 0

theorem left_worker_le (hrun : s.running = false) (hcreated : s.thread ≠ some .created) :
    left s.worker.thread ≤ left s.thread - 1 := by
  unfold worker
  cases ht : s.thread with
  | none => simp [ht, left]
  | some t =>
    cases t with
    | created => exact absurd ht hcreated
    | ended => simp [ht, left]
    | initializing | waiting => simp [left]
    | testing => simp [hrun, left]

theorem stopped_ne (s : Stopping) (restart restart' : Bool) :
    (s.stopped restart).caller ≠ .joining restart' := by
  unfold stopped spawn
  dsimp only
  split_ifs <;> simp

/-- The steps of the thread among the events. -/
def works (w : List Event) : ℕ := w.countP fun e => e = .worker

/-- The `join` returns when the thread has got its last steps. -/
theorem Sound.leaves (h : s.Sound) {restart : Bool} (hcaller : s.caller = .joining restart)
    (w : List Event) (hw : left s.thread ≤ works w) :
    ∃ v, v <+: w ++ [.io] ∧ ∀ restart', (machine.run s v).caller ≠ .joining restart' := by
  have hio : s.thread = some .ended → ∀ restart', (s.step .io).caller ≠ .joining restart' := by
    intro hended restart'
    rw [Stopping.step, io, hcaller]
    dsimp only
    rw [if_pos hended]
    exact stopped_ne _ restart restart'
  induction w generalizing s with
  | nil =>
    obtain ⟨-, -, hsome⟩ := h.joining restart hcaller
    have hended : s.thread = some .ended := by
      obtain ⟨t, ht⟩ := Option.ne_none_iff_exists'.mp hsome
      rw [ht] at hw ⊢
      cases t <;> simp [left, works] at hw ⊢
    exact ⟨[.io], List.prefix_rfl, hio hended⟩
  | cons e w ih =>
    cases e with
    | call restart' =>
      have hstep : s.step (.call restart') = s := if_neg (by simp [hcaller])
      obtain ⟨v, hv, hleft⟩ := ih h hcaller (by simpa [works] using hw) hio
      refine ⟨.call restart' :: v, by simpa using hv, ?_⟩
      rwa [Machine.Mealy.run_cons, machine_step, hstep]
    | io =>
      by_cases hended : s.thread = some .ended
      · exact ⟨[.io], by simp, hio hended⟩
      · have hstep : s.step .io = s := by
          rw [Stopping.step, io, hcaller]
          exact if_neg hended
        obtain ⟨v, hv, hleft⟩ := ih h hcaller (by simpa [works] using hw) hio
        refine ⟨.io :: v, by simpa using hv, ?_⟩
        rwa [Machine.Mealy.run_cons, machine_step, hstep]
    | worker =>
      obtain ⟨hrun, hcreated, -⟩ := h.joining restart hcaller
      have hless := left_worker_le hrun hcreated
      have hcount : works (.worker :: w) = works w + 1 := by simp [works]
      have hcaller' : s.worker.caller = .joining restart := (worker_caller s).trans hcaller
      have hio' : s.worker.thread = some .ended →
          ∀ restart', (s.worker.step .io).caller ≠ .joining restart' := by
        intro hended restart'
        rw [Stopping.step, io, hcaller']
        dsimp only
        rw [if_pos hended]
        exact stopped_ne _ restart restart'
      obtain ⟨v, hv, hleft⟩ := ih h.worker hcaller' (by omega) hio'
      exact ⟨.worker :: v, by simpa using hv, hleft⟩

/-- A plugin that has just been spawned. -/
def start : Stopping := ({} : Stopping).spawn

theorem sound_start : start.Sound := sound_of_ne nofun

/-- What the coarser model of a plugin sees of the state. -/
def Thread.worker : Thread → Worker
  | .created => .starting
  | .initializing | .testing | .waiting => .looping
  | .ended => .finished

structure Represents (s : Stopping) (p : Plugin) : Prop where
  running : s.running = p.running
  thread : s.thread.map Thread.worker = p.thread

/-- A step of the thread is a step of the worker, or not visible. -/
theorem Represents.worker {p : Plugin} (h : s.Represents p) :
    s.worker.Represents p ∨ s.worker.Represents p.workerStep.1 := by
  obtain ⟨hrun, hthread⟩ := h
  unfold Stopping.worker
  rcases ht : s.thread with _ | t
  · exact .inl ⟨hrun, hthread⟩
  · rw [ht, Option.map_some] at hthread
    cases t with
    | created =>
      right
      rw [Plugin.workerStep, ← hthread]
      exact ⟨rfl, rfl⟩
    | initializing | waiting => exact .inl ⟨hrun, hthread⟩
    | ended => exact .inl ⟨hrun, by rw [← hthread, ht]; rfl⟩
    | testing =>
      dsimp only
      split_ifs with hrunning
      · exact .inl ⟨hrun, hthread⟩
      · right
        rw [Plugin.workerStep, ← hthread]
        dsimp only [Thread.worker]
        rw [if_pos (by rw [← hrun]; exact hrunning)]
        exact ⟨hrun, rfl⟩

/-- The statements of `stop` come to what the coarser model does at once, with the last steps of
the thread among them; where the coarser model stays in the `join`, they never leave it. -/
theorem Represents.stop {p : Plugin} (h : s.Represents p) (hcaller : s.caller = .idle) :
    (p.stop.2 = .returns ∧ ∃ w, (machine.run s (.call false :: w)).Represents p.stop.1 ∧
        (machine.run s (.call false :: w)).caller = .idle) ∨
      (p.stop.2 = .joins ∧ ∀ w, (machine.run s ([.call false, .io, .io] ++ w)).Hung) := by
  obtain ⟨running, thread, caller⟩ := s
  obtain ⟨hrun, hthread⟩ := h
  dsimp only at hrun hthread hcaller
  subst hcaller
  cases running with
  | false =>
    rw [Plugin.stop, if_pos (by rw [← hrun]; exact Bool.false_ne_true)]
    exact .inl ⟨rfl, [.io], ⟨hrun, hthread⟩, rfl⟩
  | true =>
    rw [Plugin.stop, if_neg (by rw [← hrun]; exact not_not.mpr rfl)]
    by_cases hcreated : thread = some .created
    · subst hcreated
      have hstarting : p.thread = some .starting := hthread.symm
      rw [if_pos hstarting]
      refine .inr ⟨rfl, fun w => ?_⟩
      rw [Machine.Mealy.run_append]
      exact machine.run_invariant (I := Hung) (fun _ e h => h.step e) ⟨⟨false, rfl⟩, .inl rfl⟩ w
    · have hstarting : p.thread ≠ some .starting := by
        rw [← hthread]
        rcases thread with _ | t
        · nofun
        · cases t with
          | created => exact absurd rfl hcreated
          | initializing | testing | waiting | ended => nofun
      rw [if_neg hstarting]
      refine .inl ⟨rfl, ?_⟩
      rcases thread with _ | t
      · exact ⟨[.io, .io], ⟨rfl, rfl⟩, rfl⟩
      · cases t with
        | created => exact absurd rfl hcreated
        | initializing | waiting =>
          exact ⟨[.io, .io, .worker, .worker, .io], ⟨rfl, rfl⟩, rfl⟩
        | testing => exact ⟨[.io, .io, .worker, .io], ⟨rfl, rfl⟩, rfl⟩
        | ended => exact ⟨[.io, .io, .io], ⟨rfl, rfl⟩, rfl⟩

end Stopping
end IrcBot

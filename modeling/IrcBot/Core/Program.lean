import IrcBot.Core.Result
import IrcBot.Network.ContextProvider

/-! The program around the client: `main` with its loop, the io context that it starts before it
may fork, and the handlers that end a run of the client. A process that is forked off has its own
copy of the context, but no thread that runs it. -/
namespace IrcBot
open Network

/-- What `fork` does in this process: it fails, or returns in the process that has called it or in
the one that is new. -/
inductive Fork
  | failed | parent | child
  deriving DecidableEq, Repr

/-- The statement of `main` that comes next. The last ones are `ctx.stop`, also in the destructor
of the provider, and its `join`. -/
inductive Place
  | runsContext | forks | runsClient | waits | stops | joins | returned | terminated
  deriving DecidableEq, Repr

/-- How the handler of an operation goes on. -/
inductive Program.Outcome
  | returns
  /-- It stops the client with this result. -/
  | stops (result : RunResult)
  /-- An exception leaves `m_context.run()`, and with it the function of the thread. -/
  | throws
  deriving DecidableEq, Repr

/-- `main` and the io context; the promise is that of the client. -/
structure Program {κ : Type*} (S : IoService κ) where
  place : Place := .runsContext
  stopPromise : Option RunResult := none
  context : ContextProvider S := {}

namespace Program
variable {κ : Type*} {S : IoService κ}

/-- The next statement of `main`, where `run` of the client starts some operations; an operation
starts or ends; the io thread goes on; a signal whose handler stops the client. -/
inductive Event (κ : Type*)
  | main (started : ℕ)
  | start
  | finish (x : κ)
  | turn (started : ℕ)
  | signal (result : RunResult)
  deriving DecidableEq, Repr

/-- The client is stopped; a second time the promise throws where nobody catches it. -/
def stopClient (p : Program S) (result : RunResult) : Program S :=
  if p.stopPromise = none then { p with stopPromise := some result } else { p with place := .terminated }

section
/- Whether the program runs as a daemon, what `fork` does then, and how the handlers go on. -/
variable (daemon : Bool) (fork : Fork) (outcome : κ → Outcome)

def main (p : Program S) (started : ℕ) : Program S :=
  match p.place with
  | .runsContext =>
    { p with context := p.context.run, place := if daemon then .forks else .runsClient }
  | .forks =>
    match fork with
    | .failed => { p with place := .runsClient }
    | .parent => { p with place := .stops }
    | .child => { p with context := p.context.forked, place := .runsClient }
  | .runsClient =>
    { p with stopPromise := none, context := p.context.start started, place := .waits }
  | .waits =>
    match p.stopPromise with
    | none => p
    | some result => { p with place := if result.reconnects then .runsClient else .stops }
  | .stops => { p with context := p.context.stop, place := .joins }
  | .joins =>
    { p with
      context := p.context.joined
      place := if p.context.joined.control = .joins then .joins else .returned }
  | .returned | .terminated => p

/-- The handlers that a turn of the io thread calls. -/
def heed (p : Program S) : List κ → Program S
  | [] => p
  | x :: xs =>
    match outcome x with
    | .returns => p.heed xs
    | .stops result => (p.stopClient result).heed xs
    | .throws => { p with place := .terminated }

/-- The client has been created. -/
def hasClient (p : Program S) : Bool := p.place = .runsClient ∨ p.place = .waits

def step (p : Program S) (e : Event κ) : Program S × List κ :=
  if p.place = .returned ∨ p.place = .terminated then (p, [])
  else match e with
    | .main started => (p.main daemon fork started, [])
    | .start => (if p.hasClient then { p with context := p.context.start 1 } else p, [])
    | .finish x => ({ p with context := p.context.finish x }, [])
    | .turn started =>
      let (context, called) := p.context.turn started
      ({ p with context := context }.heed outcome called, called)
    -- the handler is installed before the client runs, and runs on the main thread
    | .signal result => (if p.place = .waits then p.stopClient result else p, [])

/-- The program as a machine that emits the handlers that are called. -/
def machine : Machine.Mealy (Program S) (Event κ) κ := ⟨step daemon fork outcome⟩

@[simp] theorem machine_step (p : Program S) (e : Event κ) :
    (machine daemon fork outcome).step p e = p.step daemon fork outcome e := rfl

/-- This process has been forked off. -/
def Forked : Prop := daemon = true ∧ fork = .child

instance : Decidable (Forked daemon fork) := inferInstanceAs (Decidable (_ ∧ _))

/-- What is there while `main` starts the client and waits for it. -/
structure Sound (p : Program S) : Prop where
  runsContext : p.place = .runsContext → p.context.thread = none ∧ p.context.control = .returns
  forks : p.place = .forks → daemon = true ∧ p.context.Serving ∧ p.context.thread = some .running
  client : p.hasClient = true → p.context.Serving ∧
    p.context.thread = some (if Forked daemon fork then .absent else .running)

end

section
variable {daemon : Bool} {fork : Fork} {outcome : κ → Outcome} {p : Program S}

theorem hasClient_iff : p.hasClient = true ↔ p.place = .runsClient ∨ p.place = .waits := by
  simp [hasClient]

theorem stopClient_spec (p : Program S) (result : RunResult) :
    (p.stopClient result).context = p.context ∧
      ((p.stopClient result).place = p.place ∨ (p.stopClient result).place = .terminated) := by
  unfold stopClient
  split_ifs <;> simp

/-- A handler can stop the client, or end the program: by stopping it twice, or by an exception. -/
theorem heed_spec (outcome : κ → Outcome) (p : Program S) (called : List κ) :
    (p.heed outcome called).context = p.context ∧
      ((p.heed outcome called).place = p.place ∨ (p.heed outcome called).place = .terminated) := by
  induction called generalizing p with
  | nil => exact ⟨rfl, Or.inl rfl⟩
  | cons x xs ih =>
    unfold heed
    cases outcome x with
    | returns => exact ih p
    | stops result =>
      obtain ⟨hcontext, hplace⟩ := ih (p.stopClient result)
      obtain ⟨hstop, hkept⟩ := p.stopClient_spec result
      refine ⟨hcontext.trans hstop, ?_⟩
      rcases hplace with hplace | hplace
      · dsimp only
        rw [hplace]
        exact hkept
      · exact Or.inr hplace
    | throws => exact ⟨rfl, Or.inr rfl⟩

theorem Sound.main (hS : S.Documented) (h : p.Sound daemon fork) (started : ℕ) :
    (p.main daemon fork started).Sound daemon fork := by
  unfold Program.main
  cases hplace : p.place with
  | runsContext =>
    obtain ⟨hthread, hcontrol⟩ := h.runsContext hplace
    have hrun : p.context.run.Serving ∧ p.context.run.thread = some .running := by
      have heq : p.context.run =
          { p.context with
            context := S.reset p.context.context, work := true, thread := some .running } := by
        rw [ContextProvider.run, if_neg (by simp [hthread])]
      rw [heq]
      exact ⟨⟨rfl, hS.stopped_reset _, hcontrol⟩, rfl⟩
    cases daemon with
    | true => exact ⟨nofun, fun _ => ⟨rfl, hrun⟩, by simp [hasClient]⟩
    | false => exact ⟨nofun, nofun, fun _ => by simpa [Forked] using hrun⟩
  | forks =>
    obtain ⟨hdaemon, hserving, hthread⟩ := h.forks hplace
    cases fork with
    | failed => exact ⟨nofun, nofun, fun _ => ⟨hserving, by simp [Forked, hthread]⟩⟩
    | parent => exact ⟨nofun, nofun, by simp [hasClient]⟩
    | child =>
      refine ⟨nofun, nofun, fun _ => ⟨⟨hserving.work, hserving.stopped, hserving.control⟩, ?_⟩⟩
      simp [ContextProvider.forked, hthread, Forked, hdaemon]
  | runsClient =>
    obtain ⟨hserving, hthread⟩ := h.client (hasClient_iff.mpr (Or.inl hplace))
    exact ⟨nofun, nofun, fun _ => ⟨hserving.start hS started, hthread⟩⟩
  | waits =>
    have hclient := h.client (hasClient_iff.mpr (Or.inr hplace))
    dsimp only
    split
    · exact h
    · split_ifs
      · exact ⟨nofun, nofun, fun _ => hclient⟩
      · exact ⟨nofun, nofun, by simp [hasClient]⟩
  | stops => exact ⟨nofun, nofun, by simp [hasClient]⟩
  | joins =>
    dsimp only
    split_ifs <;> exact ⟨nofun, nofun, by simp [hasClient]⟩
  | returned | terminated => exact h

/-- The context keeps its thread as long as there is `m_work`, and `main` stays where it is or is
gone. -/
theorem Sound.of_kept (h : p.Sound daemon fork) {q : Program S}
    (hnew : p.place = .runsContext → q.context = p.context)
    (hserving : p.context.Serving → q.context.Serving ∧ q.context.thread = p.context.thread)
    (hplace : q.place = p.place ∨ q.place = .terminated) : q.Sound daemon fork := by
  rcases hplace with hplace | hplace
  · refine ⟨fun hp => ?_, fun hp => ?_, fun hp => ?_⟩
    · rw [hplace] at hp
      rw [hnew hp]
      exact h.runsContext hp
    · rw [hplace] at hp
      obtain ⟨hdaemon, hserves, hrunning⟩ := h.forks hp
      exact ⟨hdaemon, (hserving hserves).1, (hserving hserves).2.trans hrunning⟩
    · rw [hasClient, hplace] at hp
      obtain ⟨hserves, hrunning⟩ := h.client hp
      exact ⟨(hserving hserves).1, (hserving hserves).2.trans hrunning⟩
  · exact ⟨by simp [hplace], by simp [hplace], by simp [hasClient, hplace]⟩

theorem Sound.step (hS : S.Documented) (h : p.Sound daemon fork) (e : Event κ) :
    (p.step daemon fork outcome e).1.Sound daemon fork := by
  unfold Program.step
  by_cases hended : p.place = .returned ∨ p.place = .terminated
  · rw [if_pos hended]
    exact h
  rw [if_neg hended]
  cases e with
  | main started => exact h.main hS started
  | start =>
    dsimp only
    split_ifs with hclient
    · refine h.of_kept (fun hplace => ?_) (fun hserving => ⟨hserving.start hS 1, rfl⟩) (Or.inl rfl)
      simp [hasClient, hplace] at hclient
    · exact h
  | finish x =>
    refine ⟨fun hplace => h.runsContext hplace, fun hplace => ?_, fun hclient => ?_⟩
    · obtain ⟨hdaemon, hserving, hthread⟩ := h.forks hplace
      exact ⟨hdaemon, hserving.finish hS x, hthread⟩
    · obtain ⟨hserving, hthread⟩ := h.client hclient
      exact ⟨hserving.finish hS x, hthread⟩
  | turn started =>
    obtain ⟨hcontext, hplace⟩ := heed_spec outcome { p with context := (p.context.turn started).1 }
      (p.context.turn started).2
    refine h.of_kept (fun hnew => ?_) (fun hserving => ?_) hplace
    · have hthread : p.context.thread ≠ some .running := by simp [(h.runsContext hnew).1]
      exact hcontext.trans (congrArg Prod.fst (ContextProvider.turn_of_absent hthread started))
    · change ContextProvider.Serving (Program.context (heed outcome _ _)) ∧
        ContextProvider.thread (Program.context (heed outcome _ _)) = _
      rw [hcontext]
      exact hserving.turn hS started
  | signal result =>
    obtain ⟨hcontext, hplace⟩ := p.stopClient_spec result
    dsimp only
    split_ifs
    · exact h.of_kept (fun _ => hcontext) (by rw [hcontext]; exact fun h => ⟨h, rfl⟩) hplace
    · exact h

/-- The process has no io thread any more, nor will it get one. -/
structure Deserted (p : Program S) : Prop where
  thread : p.context.thread = some .absent
  place : p.place ≠ .runsContext

theorem Deserted.turn_eq (h : p.Deserted) (started : ℕ) : p.context.turn started = (p.context, []) :=
  ContextProvider.turn_of_absent (by simp [h.thread]) started

theorem Deserted.main (h : p.Deserted) (started : ℕ) : (p.main daemon fork started).Deserted := by
  obtain ⟨hthread, hplace⟩ := h
  unfold Program.main
  cases hp : p.place with
  | runsContext => exact absurd hp hplace
  | forks =>
    cases fork with
    | failed | parent => exact ⟨hthread, by simp⟩
    | child => exact ⟨by simp [ContextProvider.forked, hthread], by simp⟩
  | runsClient => exact ⟨hthread, by simp⟩
  | waits =>
    dsimp only
    split
    · exact ⟨hthread, hplace⟩
    · refine ⟨hthread, ?_⟩
      dsimp only
      split_ifs <;> simp
  | stops =>
    refine ⟨?_, by simp⟩
    simp [ContextProvider.stop, ContextProvider.stopWork, hthread]
  | joins =>
    have hjoined : p.context.joined = p.context := if_neg (by simp [hthread])
    dsimp only
    rw [hjoined]
    refine ⟨hthread, ?_⟩
    dsimp only
    split_ifs <;> simp
  | returned | terminated => exact ⟨hthread, hplace⟩

theorem Deserted.step (h : p.Deserted) (e : Event κ) :
    (p.step daemon fork outcome e).1.Deserted ∧ (p.step daemon fork outcome e).2 = [] := by
  unfold Program.step
  by_cases hended : p.place = .returned ∨ p.place = .terminated
  · rw [if_pos hended]
    exact ⟨h, rfl⟩
  rw [if_neg hended]
  cases e with
  | main started => exact ⟨h.main started, rfl⟩
  | start =>
    refine ⟨?_, rfl⟩
    dsimp only
    split_ifs <;> exact ⟨h.thread, h.place⟩
  | finish x => exact ⟨⟨h.thread, h.place⟩, rfl⟩
  | turn started =>
    dsimp only
    rw [h.turn_eq]
    exact ⟨h, rfl⟩
  | signal result =>
    refine ⟨?_, rfl⟩
    dsimp only
    split_ifs with hwaits
    · obtain ⟨hcontext, hplace⟩ := p.stopClient_spec result
      refine ⟨by rw [hcontext]; exact h.thread, ?_⟩
      rcases hplace with hplace | hplace <;> rw [hplace]
      · exact h.place
      · nofun
    · exact h

/-- With nobody to run a handler, `main` waits until there is a signal. -/
theorem Deserted.waits (h : p.Deserted) (hwaits : p.place = .waits) (hpromise : p.stopPromise = none)
    {w : List (Event κ)} (hw : ∀ result, .signal result ∉ w) :
    ((machine daemon fork outcome).run p w).place = .waits := by
  induction w generalizing p with
  | nil => exact hwaits
  | cons e w ih =>
    have hnext : (p.step daemon fork outcome e).1.place = .waits ∧
        (p.step daemon fork outcome e).1.stopPromise = none := by
      unfold Program.step
      rw [if_neg (by simp [hwaits])]
      cases e with
      | main started => simp [Program.main, hwaits, hpromise]
      | start =>
        dsimp only
        split_ifs <;> exact ⟨hwaits, hpromise⟩
      | finish x => exact ⟨hwaits, hpromise⟩
      | turn started =>
        dsimp only
        rw [h.turn_eq]
        exact ⟨hwaits, hpromise⟩
      | signal result => exact absurd List.mem_cons_self (hw result)
    exact ih (h.step e).1 hnext.1 hnext.2 fun result hr => hw result (List.mem_cons_of_mem e hr)

end

/-- Whenever `main` waits for the client to stop, the handler of the first operation that has ended
can still be called, as the next one, exactly if this process has not been forked off; in one that has,
no handler is ever called, and `main` waits until there is a signal. -/
theorem called_iff (S : IoService κ) (hS : S.Documented) (daemon : Bool) (fork : Fork)
    (outcome : κ → Outcome) (w : List (Event κ)) :
    let M := machine (S := S) daemon fork outcome
    let p := M.run {} w
    p.place = .waits →
      (∀ x xs, S.ready p.context.context = x :: xs →
        ((∃ w', (M.out p w').head? = some x) ↔ ¬ Forked daemon fork)) ∧
      (Forked daemon fork → (∀ w', M.out p w' = []) ∧
        (p.stopPromise = none → ∀ w', (∀ result, .signal result ∉ w') → (M.run p w').place = .waits)) := by
  intro M p hwaits
  have hsound : p.Sound daemon fork := M.run_invariant (I := Sound daemon fork)
    (fun _ e h => h.step hS e) (s := {}) ⟨fun _ => ⟨rfl, rfl⟩, nofun, by simp [hasClient]⟩ w
  obtain ⟨hserving, hthread⟩ := hsound.client (hasClient_iff.mpr (Or.inr hwaits))
  have hdeserted : Forked daemon fork → p.Deserted := by
    intro hforked
    rw [if_pos hforked] at hthread
    exact ⟨hthread, by simp [hwaits]⟩
  have hsilent : Forked daemon fork → ∀ w', M.out p w' = [] := by
    intro hforked w'
    refine List.eq_nil_iff_forall_not_mem.mpr fun x hx => ?_
    refine M.out_invariant (I := Deserted) (P := fun _ => False) (fun _ e h => (h.step e).1)
      (fun _ e h x hx => ?_) (hdeserted hforked) w' x hx
    rw [machine_step, (h.step e).2] at hx
    cases hx
  refine ⟨fun x xs hready => ⟨?_, fun hforked => ?_⟩,
    fun hforked => ⟨hsilent hforked, fun hpromise w' hw' => ?_⟩⟩
  · rintro ⟨w', hw'⟩ hforked
    rw [hsilent hforked w'] at hw'
    cases hw'
  · rw [if_neg hforked] at hthread
    have hturn := hserving.turn_ready hthread hready 0
    refine ⟨[.turn 0], ?_⟩
    rw [Machine.Mealy.out_cons, machine_step, step, if_neg (by simp [hwaits])]
    dsimp only
    rw [hturn]
    rfl
  · exact (hdeserted hforked).waits hwaits hpromise hw'

/-- A daemon whose client has received something. -/
def received : List (Event Unit) := [.main 0, .main 0, .main 1, .finish ()]

theorem called_iff_received :
    let M := machine (S := HandlerQueue.service Unit) true .child fun _ => .returns
    let p := M.run {} received
    (¬ ∃ w', (M.out p w').head? = some ()) ∧
      ∀ w', (∀ result, .signal result ∉ w') → (M.run p w').place = .waits := by
  intro M p
  obtain ⟨hcalled, hchild⟩ := called_iff (HandlerQueue.service Unit)
    (HandlerQueue.documented_service Unit) true .child (fun _ => .returns) received (by decide)
  have hforked : Forked true .child := ⟨rfl, rfl⟩
  exact ⟨fun h => (hcalled () [] rfl).mp h hforked, (hchild hforked).2 rfl⟩

end Program
end IrcBot

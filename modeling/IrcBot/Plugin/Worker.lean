import IrcBot.Machine.Mealy
import IrcBot.Plugin.Commands

/-! A plugin's worker whose handlers throw. `run` catches what the command branch throws; what
`onMessage` throws leaves the loop and is caught by the thread, which then ends while the
plugin counts as running and goes on to receive. -/
namespace IrcBot
open Irc

/-- What `run` does with a message it has taken. -/
inductive Outcome
  | onMessage
  | onCommand (cmd : Command)
  | malformed (e : UnexpectedCharacter)
  | neither
  deriving DecidableEq, Repr

namespace Plugin

/-- The branch of `run` with its result. -/
def outcome (p : Plugin) (m : IRCMessage) : Outcome :=
  match p.handling m with
  | .onMessage => .onMessage
  | .neither => .neither
  | .onCommand =>
    match CommandParser.parse ⟨p.commandParser.getD Chr.nul⟩ (m.params.getLast?.getD []) with
    | .error e => .malformed e
    | .ok cmd => .onCommand cmd

end Plugin

/-- A plugin with the number of messages its worker has taken. -/
structure Serving where
  plugin : Plugin
  taken : ℕ := 0
  deriving DecidableEq, Repr

namespace Serving

inductive Event
  | receive (m : IRCMessage)
  | work
  deriving DecidableEq, Repr

/-- The messages that arrive during a run. -/
def received (es : List Event) : List IRCMessage :=
  es.filterMap fun
    | .receive m => some m
    | .work => none

section
/- `throws i` says that the handler of the message taken after `i` others throws. -/
variable (throws : ℕ → Bool)

/-- The exception of the handler leaves `run`. -/
def leaves (o : Outcome) (i : ℕ) : Bool :=
  match o with
  | .onMessage => throws i
  -- both exception handlers of the command branch only log
  | .onCommand _ | .malformed _ => false
  | .neither => false

def work (s : Serving) : Serving × List (IRCMessage × Outcome) :=
  match s.plugin.workerStep with
  | (p, none) => ({ s with plugin := p }, [])
  | (p, some m) =>
    let o := p.outcome m
    (⟨if leaves throws o s.taken then p.workerThrows else p, s.taken + 1⟩, [(m, o)])

def step (s : Serving) : Event → Serving × List (IRCMessage × Outcome)
  | .receive m => ({ s with plugin := s.plugin.receive m }, [])
  | .work => s.work throws

def machine : Machine.Mealy Serving Event (IRCMessage × Outcome) := ⟨step throws⟩

/-- The worker has handled all messages there are after enough further steps. -/
def Survives (p : Plugin) (es : List Event) : Prop :=
  ∃ n, (machine throws).out ⟨p.spawn.1, 0⟩ (es ++ List.replicate n .work) =
    (p.incoming ++ received es).map fun m => (m, p.outcome m)

/-- The exception thrown for the `i`-th message leaves `run`. -/
def Escapes (p : Plugin) (i : ℕ) : Prop := p.commandParser = none ∧ throws i = true

end

/-- A worker of the plugin `p` after `handled`, when `all` messages have been received. -/
structure Served (throws : ℕ → Bool) (p : Plugin) (all : List IRCMessage)
    (handled : List (IRCMessage × Outcome)) (s : Serving) : Prop where
  commandParser : s.plugin.commandParser = p.commandParser
  running : s.plugin.running = true
  queue : handled ++ (s.plugin.incoming.map fun m => (m, p.outcome m)) =
    all.map fun m => (m, p.outcome m)
  taken : s.taken = handled.length
  survived : ∀ i, i + 1 < s.taken → ¬ Escapes throws p i
  worker : (s.plugin.thread = some .starting ∨ s.plugin.thread = some .looping) ∧
      (∀ i < s.taken, ¬ Escapes throws p i) ∨
    s.plugin.thread = some .finished ∧ ∃ i, i + 1 = s.taken ∧ Escapes throws p i

section
variable {throws : ℕ → Bool} {p : Plugin} {all : List IRCMessage}
  {handled : List (IRCMessage × Outcome)} {s : Serving}

theorem leaves_iff (m : IRCMessage) (i : ℕ) :
    leaves throws (p.outcome m) i = true ↔ Escapes throws p i := by
  unfold Plugin.outcome Plugin.handling Escapes
  by_cases hp : p.commandParser = none
  · rw [if_pos hp]
    exact (and_iff_right hp).symm
  · rw [if_neg hp]
    refine iff_of_false ?_ fun h => hp h.1
    by_cases hcmd : p.isCommand m = true
    · rw [if_pos hcmd]
      dsimp only
      split <;> exact Bool.false_ne_true
    · rw [if_neg hcmd]
      exact Bool.false_ne_true

theorem outcome_congr {q : Plugin} (h : q.commandParser = p.commandParser) (m : IRCMessage) :
    q.outcome m = p.outcome m := by
  have hcmd : q.isCommand m = p.isCommand m := by rw [Plugin.isCommand, Plugin.isCommand, h]
  unfold Plugin.outcome Plugin.handling
  rw [h, hcmd]

theorem Served.receive (h : Served throws p all handled s) (m : IRCMessage) :
    Served throws p (all ++ [m]) handled ((machine throws).step s (.receive m)).1 where
  commandParser := h.commandParser
  running := h.running
  queue := by
    change handled ++ ((s.plugin.incoming ++ [m]).map fun m => (m, p.outcome m)) = _
    rw [List.map_append, List.map_append, ← h.queue, List.append_assoc]
  taken := h.taken
  survived := h.survived
  worker := h.worker

/-- What a step of the worker can do: start the loop, find the queue empty, take a message,
or nothing any more. -/
theorem Served.work_cases (h : Served throws p all handled s) :
    (s.plugin.thread = some .starting ∧ s.work throws =
      ({ s with plugin := { s.plugin with running := true, thread := some .looping } }, [])) ∨
    (s.plugin.thread ≠ some .starting ∧
      (s.plugin.thread = some .looping → s.plugin.incoming = []) ∧ s.work throws = (s, [])) ∨
    ∃ m ms, s.plugin.thread = some .looping ∧ s.plugin.incoming = m :: ms ∧ s.work throws =
      (⟨{ s.plugin with
          incoming := ms
          thread := some (if leaves throws (p.outcome m) s.taken then .finished else .looping) },
        s.taken + 1⟩, [(m, p.outcome m)]) := by
  unfold work Plugin.workerStep
  rcases h.worker with ⟨hstart | hloop, -⟩ | ⟨hfin, -⟩
  · rw [hstart]
    exact .inl ⟨rfl, rfl⟩
  · rw [hloop]
    right
    dsimp only
    rw [if_neg (not_not.mpr h.running)]
    cases hq : s.plugin.incoming with
    | nil =>
      left
      have hget : s.plugin.getCommand = none := by rw [Plugin.getCommand, hq]
      rw [hget]
      exact ⟨by simp, fun _ => rfl, rfl⟩
    | cons m ms =>
      right
      have hget : s.plugin.getCommand = some (m, { s.plugin with incoming := ms }) := by
        rw [Plugin.getCommand, hq]
      have hout : ({ s.plugin with incoming := ms } : Plugin).outcome m = p.outcome m :=
        outcome_congr h.commandParser m
      refine ⟨m, ms, rfl, rfl, ?_⟩
      rw [hget]
      dsimp only
      rw [hout]
      by_cases hl : leaves throws (p.outcome m) s.taken = true
      · simp only [if_pos hl, Plugin.workerThrows, hloop, Option.map_some]
      · simp only [if_neg hl, hloop]
  · rw [hfin]
    exact .inr (.inl ⟨by simp, by simp, rfl⟩)

/-- While the thread has not ended, no exception has left `run`. -/
theorem Served.alive (h : Served throws p all handled s)
    (hthread : s.plugin.thread ≠ some .finished) : ∀ i < s.taken, ¬ Escapes throws p i := by
  rcases h.worker with ⟨-, halive⟩ | ⟨hfinished, -⟩
  · exact halive
  · exact (hthread hfinished).elim

theorem Served.work (h : Served throws p all handled s) :
    Served throws p all (handled ++ (s.work throws).2) (s.work throws).1 := by
  rcases h.work_cases with ⟨hstart, hwork⟩ | ⟨-, -, hwork⟩ | ⟨m, ms, hloop, hq, hwork⟩
  · rw [hwork, List.append_nil]
    have halive := h.alive (by rw [hstart]; exact nofun)
    exact ⟨h.commandParser, rfl, h.queue, h.taken, h.survived, .inl ⟨.inr rfl, halive⟩⟩
  · rw [hwork, List.append_nil]
    exact h
  · rw [hwork]
    have halive := h.alive (by rw [hloop]; exact nofun)
    refine ⟨h.commandParser, h.running, ?_, ?_, fun i hi => halive i (Nat.lt_of_succ_lt_succ hi), ?_⟩
    · rw [← h.queue, hq, List.append_assoc]
      rfl
    · rw [List.length_append, ← h.taken]
      rfl
    · by_cases hl : leaves throws (p.outcome m) s.taken = true
      · refine .inr ⟨?_, s.taken, rfl, (leaves_iff m s.taken).mp hl⟩
        rw [if_pos hl]
      · refine .inl ⟨.inr ?_, fun i hi => ?_⟩
        · rw [if_neg hl]
        · rcases Nat.lt_succ_iff_lt_or_eq.mp hi with hlt | rfl
          · exact halive i hlt
          · exact fun hesc => hl ((leaves_iff m s.taken).mpr hesc)

theorem Served.run (h : Served throws p all handled s) (es : List Event) :
    Served throws p (all ++ received es) (handled ++ (machine throws).out s es)
      ((machine throws).run s es) := by
  induction es generalizing s all handled with
  | nil => simpa [received] using h
  | cons e es ih =>
    cases e with
    | receive m =>
      have hrest := ih (h.receive m)
      rwa [List.append_assoc] at hrest
    | work =>
      have hrest := ih h.work
      rwa [List.append_assoc] at hrest

theorem out_work (n : ℕ) : (machine throws).out s (List.replicate (n + 1) .work) =
    (s.work throws).2 ++ (machine throws).out (s.work throws).1 (List.replicate n .work) := rfl

/-- If no exception leaves `run` before the last message, a worker in the loop empties the
queue. The induction is on the queue. -/
theorem Served.drain_of_ne (h : Served throws p all handled s)
    (hthread : s.plugin.thread ≠ some .starting)
    (hlast : ∀ i, Escapes throws p i → all.length ≤ i + 1) :
    ∃ n, handled ++ (machine throws).out s (List.replicate n .work) =
      all.map fun m => (m, p.outcome m) := by
  obtain ⟨q, hq⟩ : ∃ q, s.plugin.incoming = q := ⟨_, rfl⟩
  induction q generalizing s handled with
  | nil => exact ⟨0, by simpa [hq] using h.queue⟩
  | cons m ms ih =>
    rcases h.work_cases with ⟨hstart, -⟩ | ⟨-, hempty, -⟩ | ⟨m', ms', hloop, hq', hwork⟩
    · exact (hthread hstart).elim
    · exfalso
      rcases h.worker with ⟨hstart | hloop, -⟩ | ⟨-, i, hi, hesc⟩
      · exact hthread hstart
      · rw [hempty hloop] at hq
        cases hq
      · have hlength := congrArg List.length h.queue
        have hall := hlast i hesc
        rw [List.length_append, List.length_map, List.length_map, hq, List.length_cons] at hlength
        have := h.taken
        omega
    · obtain ⟨rfl, rfl⟩ := List.cons.inj (hq'.symm.trans hq)
      have hne : (s.work throws).1.plugin.thread ≠ some .starting := by
        rw [hwork]
        dsimp only
        split_ifs <;> exact nofun
      obtain ⟨n, hn⟩ := ih h.work hne (by rw [hwork])
      refine ⟨n + 1, ?_⟩
      rw [out_work, ← List.append_assoc]
      exact hn

theorem Served.drain (h : Served throws p all handled s)
    (hlast : ∀ i, Escapes throws p i → all.length ≤ i + 1) :
    ∃ n, handled ++ (machine throws).out s (List.replicate n .work) =
      all.map fun m => (m, p.outcome m) := by
  by_cases hthread : s.plugin.thread = some .starting
  · rcases h.work_cases with ⟨-, hwork⟩ | ⟨hne, -⟩ | ⟨m, ms, hloop, -⟩
    · have hne : (s.work throws).1.plugin.thread ≠ some .starting := by
        rw [hwork]
        exact nofun
      obtain ⟨n, hn⟩ := h.work.drain_of_ne hne hlast
      refine ⟨n + 1, ?_⟩
      rw [out_work, ← List.append_assoc]
      exact hn
    · exact (hne hthread).elim
    · rw [hthread] at hloop
      cases hloop
  · exact h.drain_of_ne hthread hlast

theorem served_spawn (hp : p.thread = none) : Served throws p p.incoming [] ⟨p.spawn.1, 0⟩ := by
  have hspawn : p.spawn.1 = { p with running := true, thread := some .starting } := by
    rw [Plugin.spawn]
    simp [hp]
  rw [hspawn]
  exact ⟨rfl, rfl, rfl, rfl, nofun, .inl ⟨.inl rfl, nofun⟩⟩

end

theorem received_append_work (es : List Event) (n : ℕ) :
    received (es ++ List.replicate n .work) = received es := by
  rw [received, List.filterMap_append]
  have hwork : (List.replicate n Event.work).filterMap (fun
      | .receive m => some m
      | .work => none) = [] := by
    apply List.filterMap_eq_nil_iff.mpr
    intro e he
    rw [List.eq_of_mem_replicate he]
  rw [hwork, List.append_nil]
  rfl

/-- All messages are handled exactly if a command parser is installed, or none but the last
of them makes `onMessage` throw. -/
theorem survives_iff (p : Plugin) (hp : p.thread = none) (throws : ℕ → Bool) (es : List Event) :
    Survives throws p es ↔ p.commandParser ≠ none ∨
      ∀ i, i + 1 < (p.incoming ++ received es).length → throws i = false := by
  have hcond : (p.commandParser ≠ none ∨
      ∀ i, i + 1 < (p.incoming ++ received es).length → throws i = false) ↔
        ∀ i, Escapes throws p i → (p.incoming ++ received es).length ≤ i + 1 := by
    unfold Escapes
    constructor
    · rintro (hparser | hthrows) i ⟨hnone, hi⟩
      · exact (hparser hnone).elim
      · by_contra hlt
        rw [hthrows i (by omega)] at hi
        cases hi
    · intro h
      by_cases hnone : p.commandParser = none
      · right
        intro i hi
        by_contra hthrows
        have := h i ⟨hnone, by simpa using hthrows⟩
        omega
      · exact .inl hnone
  rw [hcond]
  have hstart : Served throws p p.incoming [] ⟨p.spawn.1, 0⟩ := served_spawn hp
  constructor
  · rintro ⟨n, hn⟩ i hesc
    have hserved := hstart.run (es ++ List.replicate n .work)
    rw [received_append_work, List.nil_append, hn] at hserved
    have htaken := hserved.taken
    rw [List.length_map] at htaken
    by_contra hlt
    exact hserved.survived i (by omega) hesc
  · intro hlast
    obtain ⟨n, hn⟩ := (hstart.run es).drain hlast
    exact ⟨n, by rw [Machine.Mealy.out_append, ← hn]; rfl⟩

/-- A plugin with a command parser, whose handler throws on each of two messages. -/
theorem survives_commands : Survives (fun _ => true) { id := [], commandParser := some 0x2f }
    [.receive Plugin.opCommand, .work, .work, .receive Plugin.opCommand] :=
  (survives_iff { id := [], commandParser := some 0x2f } rfl (fun _ => true)
    [.receive Plugin.opCommand, .work, .work, .receive Plugin.opCommand]).mpr (.inl nofun)

/-- Without one the first of them ends the worker. -/
theorem survives_not : ¬ ∀ (p : Plugin), p.thread = none → ∀ (throws : ℕ → Bool) (es : List Event),
    Survives throws p es := by
  intro h
  obtain ⟨n, hn⟩ := h { id := [] } rfl (fun _ => true)
    [.receive Plugin.opCommand, .work, .work, .receive Plugin.opCommand]
  have hstart : Served (fun _ => true) { id := [] } [] [] ⟨({ id := [] } : Plugin).spawn.1, 0⟩ :=
    served_spawn rfl
  have hserved := hstart.run
    ([.receive Plugin.opCommand, .work, .work, .receive Plugin.opCommand] ++ List.replicate n .work)
  have htaken := hserved.taken
  rw [List.nil_append, hn] at htaken
  exact hserved.survived 0 (by rw [htaken]; decide) ⟨rfl, rfl⟩

end Serving
end IrcBot

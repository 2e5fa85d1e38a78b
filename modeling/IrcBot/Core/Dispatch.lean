import IrcBot.Irc.Reading
import IrcBot.Plugin.Plugin

/-! The dispatch of IRC messages. The io thread parses what it receives and offers each
message to the plugins, one after the other; the workers of the plugins take messages out of
their queues meanwhile. Each plugin gets the messages that pass its filters, in order, none
twice and none left out. -/
namespace IrcBot
open Irc

/-- What is fixed about a plugin in the list: `filter` is the plugin's own. -/
structure Installed where
  id : Bytes
  commandParser : Option Byte
  filter : IRCMessage → Bool

/-- A plugin in the list, with the messages its worker has taken and the branch of `run`
each of them went to. -/
structure Receiver where
  plugin : Plugin
  filter : IRCMessage → Bool
  taken : List (IRCMessage × Handling) := []

namespace Receiver

def new (p : Installed) : Receiver where
  plugin := { id := p.id, commandParser := p.commandParser, thread := some .starting }
  filter := p.filter

def installed (r : Receiver) : Installed := ⟨r.plugin.id, r.plugin.commandParser, r.filter⟩

/-- The two filters in front of `receive`. -/
def accepts (r : Receiver) (m : IRCMessage) : Bool := r.plugin.preFilter m && r.filter m

def messages (r : Receiver) : List IRCMessage := r.taken.map Prod.fst

def receive (m : IRCMessage) (r : Receiver) : Receiver := { r with plugin := r.plugin.receive m }

/-- One step of the worker; the branch is chosen again on its own thread. -/
def workerStep (r : Receiver) : Receiver :=
  match r.plugin.workerStep with
  | (p, none) => { r with plugin := p }
  | (p, some m) => { r with plugin := p, taken := r.taken ++ [(m, p.handling m)] }

def workerThrows (r : Receiver) : Receiver := { r with plugin := r.plugin.workerThrows }

end Receiver

/-- Where the io thread is in the handler: a message is offered to the plugin at a position,
or has passed the filters of this plugin. -/
inductive Dispatch.Phase
  | receiving
  | looping
  | filtering (m : IRCMessage) (i : Nat)
  | delivering (m : IRCMessage) (i : Nat)
  deriving DecidableEq, Repr

/-- The dispatch with the chunks that have not been received yet. -/
structure Dispatch where
  socket : List Bytes
  parser : IRCParser := {}
  phase : Dispatch.Phase := .receiving
  receivers : List Receiver

inductive Dispatch.Event
  | io
  | worker (i : Nat)
  | workerThrows (i : Nat)
  deriving DecidableEq, Repr

namespace Dispatch

def start (chunks : List Bytes) (plugins : List Installed) : Dispatch where
  socket := chunks
  receivers := plugins.map Receiver.new

/-- The receive handler and its two loops, one statement at a time. -/
def ioStep (d : Dispatch) : Dispatch :=
  match d.phase with
  | .receiving =>
    match d.socket with
    | [] => d
    | data :: rest => { d with socket := rest, parser := d.parser.parse data, phase := .looping }
  | .looping =>
    if d.parser.messagesCount = 0 then { d with phase := .receiving }
    else match d.parser.getMessage with
      | none => d
      | some (m, p) => { d with parser := p, phase := .filtering m 0 }
  | .filtering m i =>
    match d.receivers[i]? with
    | none => { d with phase := .looping }
    | some r =>
      if ¬ r.plugin.preFilter m then { d with phase := .filtering m (i + 1) }
      else if r.filter m then { d with phase := .delivering m i }
      else { d with phase := .filtering m (i + 1) }
  | .delivering m i =>
    { d with receivers := d.receivers.modify i (Receiver.receive m), phase := .filtering m (i + 1) }

def step (d : Dispatch) (e : Event) : Dispatch :=
  match e with
  | .io => d.ioStep
  | .worker i => { d with receivers := d.receivers.modify i Receiver.workerStep }
  | .workerThrows i => { d with receivers := d.receivers.modify i Receiver.workerThrows }

/-- The dispatch as a machine from events to states. -/
def machine : Machine.Mealy Dispatch Event Empty := ⟨fun d e => (d.step e, [])⟩

@[simp] theorem machine_step (d : Dispatch) (e : Event) : machine.step d e = (d.step e, []) := rfl

/-- All messages the parser puts into its queue on these chunks. -/
def emitted (chunks : List Bytes) : List IRCMessage := (chunks.foldl IRCParser.parse {}).messages

end Dispatch

theorem Plugin.isCommand_congr {p q : Plugin} (h : p.commandParser = q.commandParser)
    (m : IRCMessage) : p.isCommand m = q.isCommand m := by
  unfold isCommand
  rw [h]

theorem Plugin.handling_congr {p q : Plugin} (h : p.commandParser = q.commandParser)
    (m : IRCMessage) : p.handling m = q.handling m := by
  unfold handling
  rw [isCommand_congr h m, h]

/-- A message that passes the command filter goes to one of the two callbacks. -/
theorem Plugin.handling_of_preFilter {p : Plugin} {m : IRCMessage} (h : p.preFilter m = true) :
    p.handling m ≠ .neither ∧ (p.commandParser ≠ none → p.isCommand m = true) := by
  unfold preFilter at h
  unfold handling
  by_cases hp : p.commandParser = none
  · simp [hp]
  · rw [if_pos hp] at h
    simp [hp, h]

namespace Receiver

theorem accepts_congr {r s : Receiver} (h : r.installed = s.installed) : r.accepts = s.accepts := by
  have hparser : r.plugin.commandParser = s.plugin.commandParser := congrArg Installed.commandParser h
  have hfilter : r.filter = s.filter := congrArg Installed.filter h
  funext m
  unfold accepts Plugin.preFilter
  rw [Plugin.isCommand_congr hparser m, hparser, hfilter]

/-- The plugin has the accepted messages among those offered, in its queue or taken, and its
worker has taken the right branch. -/
structure Holds (offered : List IRCMessage) (r : Receiver) : Prop where
  messages : r.messages ++ r.plugin.incoming = offered.filter r.accepts
  handled : ∀ x ∈ r.taken, x.2 = r.plugin.handling x.1

variable {offered : List IRCMessage} {r : Receiver}

theorem Holds.receive {m : IRCMessage} (h : r.Holds offered) (hm : r.accepts m = true) :
    (r.receive m).Holds (offered ++ [m]) := by
  refine ⟨?_, h.handled⟩
  change r.messages ++ (r.plugin.incoming ++ [m]) = (offered ++ [m]).filter r.accepts
  rw [← List.append_assoc, h.messages, List.filter_append]
  simp [hm]

theorem Holds.pass {m : IRCMessage} (h : r.Holds offered) (hm : r.accepts m = false) :
    r.Holds (offered ++ [m]) := by
  refine ⟨?_, h.handled⟩
  rw [h.messages, List.filter_append]
  simp [hm]

/-- A step of the worker takes the first message of the queue or none. -/
theorem workerStep_spec (r : Receiver) :
    ∃ taken : Option IRCMessage, r.plugin.WorkerStep r.workerStep.plugin taken ∧
      r.workerStep.filter = r.filter ∧
      r.workerStep.taken = r.taken ++ taken.toList.map fun m => (m, r.plugin.handling m) := by
  have hstep := r.plugin.workerStep_spec
  obtain ⟨⟨q, taken⟩, hq⟩ : ∃ x, r.plugin.workerStep = x := ⟨_, rfl⟩
  rw [hq] at hstep
  have hstep : r.plugin.WorkerStep q taken := hstep
  refine ⟨taken, ?_⟩
  unfold Receiver.workerStep
  rw [hq]
  cases taken with
  | none => exact ⟨hstep, rfl, by simp⟩
  | some m =>
    have hbranch := Plugin.handling_congr hstep.commandParser m
    exact ⟨hstep, rfl, by simp [hbranch]⟩

theorem workerStep_installed (r : Receiver) : r.workerStep.installed = r.installed := by
  obtain ⟨taken, hstep, hfilter, -⟩ := r.workerStep_spec
  unfold installed
  rw [hstep.id, hstep.commandParser, hfilter]

theorem Holds.workerStep (h : r.Holds offered) : r.workerStep.Holds offered := by
  obtain ⟨taken, hstep, -, htaken⟩ := r.workerStep_spec
  have haccepts := accepts_congr r.workerStep_installed
  have hbranch := Plugin.handling_congr hstep.commandParser
  constructor
  · have hmessages : r.workerStep.messages = r.messages ++ taken.toList := by
      unfold Receiver.messages
      rw [htaken, List.map_append, List.map_map]
      simp [Function.comp_def]
    rw [hmessages, haccepts, ← h.messages, hstep.incoming, List.append_assoc]
  · intro x hx
    rw [hbranch]
    rw [htaken] at hx
    rcases List.mem_append.mp hx with hx | hx
    · exact h.handled x hx
    · obtain ⟨m, -, rfl⟩ := List.mem_map.mp hx
      rfl

theorem Holds.workerThrows (h : r.Holds offered) : r.workerThrows.Holds offered := ⟨h.1, h.2⟩

/-- What the worker has taken comes first among the accepted messages. -/
theorem Holds.taken (h : r.Holds offered) :
    r.messages <+: offered.filter r.accepts ∧
      ∀ x ∈ r.taken, x.2 ≠ .neither ∧
        (r.plugin.commandParser ≠ none → r.plugin.isCommand x.1 = true) := by
  refine ⟨⟨r.plugin.incoming, h.messages⟩, ?_⟩
  intro x hx
  have hmem : x.1 ∈ offered.filter r.accepts := by
    rw [← h.messages]
    exact List.mem_append_left _ (List.mem_map_of_mem hx)
  have haccepts := (List.mem_filter.mp hmem).2
  have hpre : r.plugin.preFilter x.1 = true := (Bool.and_eq_true_iff.mp haccepts).1
  rw [h.handled x hx]
  exact Plugin.handling_of_preFilter hpre

end Receiver

namespace Dispatch
namespace Phase

/-- The message that is being offered. -/
def current : Phase → List IRCMessage
  | .receiving | .looping => []
  | .filtering m _ | .delivering m _ => [m]

/-- The part of it that the plugin at position `j` has been offered. -/
def offered (j : ℕ) : Phase → List IRCMessage
  | .receiving | .looping => []
  | .filtering m i | .delivering m i => if j < i then [m] else []

theorem offered_isPrefix (p : Phase) (j : ℕ) : p.offered j <+: p.current := by
  cases p with
  | receiving | looping => exact List.prefix_rfl
  | filtering m i | delivering m i =>
    by_cases hji : j < i
    · rw [offered, if_pos hji]
      exact List.prefix_rfl
    · rw [offered, if_neg hji]
      exact List.nil_prefix

end Phase

/-- `all` are the messages of the whole stream; `gone` those the loop is done with. -/
structure Invariant (d : Dispatch) (all gone : List IRCMessage) : Prop where
  reachable : IRCParser.Reachable d.parser
  stream : all = gone ++ d.phase.current ++ (d.socket.foldl IRCParser.parse d.parser).messages
  holds : ∀ (j : ℕ) (r : Receiver), d.receivers[j]? = some r → r.Holds (gone ++ d.phase.offered j)
  passed : ∀ (m : IRCMessage) (i : ℕ) (r : Receiver),
    d.phase = .delivering m i → d.receivers[i]? = some r → r.accepts m = true

variable {all gone : List IRCMessage} {d : Dispatch}

/-- A change of one receiver by its own worker. -/
theorem Invariant.modify (h : d.Invariant all gone) (i : ℕ) {f : Receiver → Receiver}
    (hinstalled : ∀ r : Receiver, (f r).installed = r.installed)
    (hf : ∀ (r : Receiver) (offered : List IRCMessage), r.Holds offered → (f r).Holds offered) :
    { d with receivers := d.receivers.modify i f }.Invariant all gone := by
  have hback : ∀ (j : ℕ) (r : Receiver), (d.receivers.modify i f)[j]? = some r →
      ∃ s, d.receivers[j]? = some s ∧ (r = f s ∨ r = s) := by
    intro j r hj
    rw [List.getElem?_modify] at hj
    obtain ⟨s, hs, rfl⟩ := Option.map_eq_some_iff.mp hj
    refine ⟨s, hs, ?_⟩
    by_cases hij : i = j
    · exact Or.inl (by rw [if_pos hij])
    · exact Or.inr (by rw [if_neg hij])
  constructor
  · exact h.reachable
  · exact h.stream
  · intro j r hj
    obtain ⟨s, hs, rfl | rfl⟩ := hback j r hj
    · exact hf s _ (h.holds j s hs)
    · exact h.holds j r hs
  · intro m k r hphase hk
    obtain ⟨s, hs, rfl | rfl⟩ := hback k r hk
    · rw [Receiver.accepts_congr (hinstalled s)]
      exact h.passed m k s hphase hs
    · exact h.passed m k r hphase hs

/-- The loop over the plugins goes on after the plugin at position `i`, which has got the
message or has refused it. -/
theorem Invariant.next (h : d.Invariant all gone) {m : IRCMessage} {i : ℕ}
    (hcurrent : d.phase.current = [m]) (hoffered : ∀ j, d.phase.offered j = if j < i then [m] else [])
    {rs : List Receiver}
    (hothers : ∀ (j : ℕ) (r : Receiver), j ≠ i → rs[j]? = some r → d.receivers[j]? = some r)
    (hi : ∀ r : Receiver, rs[i]? = some r → r.Holds (gone ++ [m])) :
    { d with receivers := rs, phase := .filtering m (i + 1) }.Invariant all gone := by
  have hstream := h.stream
  rw [hcurrent] at hstream
  constructor
  · exact h.reachable
  · exact hstream
  · intro j r hj
    change r.Holds (gone ++ if j < i + 1 then [m] else [])
    by_cases hij : j = i
    · subst hij
      rw [if_pos (Nat.lt_succ_self j)]
      exact hi r hj
    · have hr := h.holds j r (hothers j r hij hj)
      rw [hoffered] at hr
      have hlt : j < i + 1 ↔ j < i := by omega
      simpa only [hlt] using hr
  · exact nofun

theorem Invariant.ioStep (h : d.Invariant all gone) : ∃ gone, d.ioStep.Invariant all gone := by
  have hstream := h.stream
  have hholds := h.holds
  unfold Dispatch.ioStep
  cases hphase : d.phase with
  | receiving =>
    rw [hphase] at hstream hholds
    cases hsocket : d.socket with
    | nil => exact ⟨gone, h⟩
    | cons data rest =>
      rw [hsocket] at hstream
      exact ⟨gone, h.reachable.parse data, hstream, hholds, nofun⟩
  | looping =>
    rw [hphase] at hstream hholds
    by_cases hcount : d.parser.messagesCount = 0
    · simp only [hcount, if_true]
      exact ⟨gone, h.reachable, hstream, hholds, nofun⟩
    simp only [hcount, if_false]
    cases hget : d.parser.getMessage with
    | none => exact ⟨gone, h⟩
    | some x =>
      obtain ⟨m, p⟩ := x
      have hmessages := IRCParser.messages_foldl_getMessage h.reachable hget d.socket
      refine ⟨gone, .getMessage h.reachable hget, ?_, hholds, nofun⟩
      rw [hstream, hmessages]
      simp [Phase.current]
  | filtering m i =>
    rw [hphase] at hstream hholds
    cases hget : d.receivers[i]? with
    | none =>
      simp only [hget]
      refine ⟨gone ++ [m], h.reachable, ?_, fun j r hj => ?_, nofun⟩
      · simpa [Phase.current] using hstream
      · have hlt : j < i := by
          have hlen : j < d.receivers.length := (List.getElem?_eq_some_iff.mp hj).1
          have hle := List.getElem?_eq_none_iff.mp hget
          omega
        have hr := hholds j r hj
        rw [Phase.offered, if_pos hlt] at hr
        simpa [Phase.offered] using hr
    | some r =>
      have hr := hholds i r hget
      rw [Phase.offered, if_neg (Nat.lt_irrefl i), List.append_nil] at hr
      have hnext : r.accepts m = false → { d with phase := .filtering m (i + 1) }.Invariant all gone := by
        intro hrefuse
        refine h.next (by rw [hphase]; rfl) (fun j => by rw [hphase]; rfl) (fun j r _ hj => hj) ?_
        intro r' hr'
        obtain rfl : r = r' := Option.some.inj (hget.symm.trans hr')
        exact hr.pass hrefuse
      refine ⟨gone, ?_⟩
      by_cases hpre : r.plugin.preFilter m = true
      · by_cases hfilter : r.filter m = true
        · simp only [hget, hpre, hfilter, not_true, if_true, if_false]
          refine ⟨h.reachable, hstream, hholds, ?_⟩
          intro m' i' r' hd hr'
          obtain ⟨rfl, rfl⟩ : m = m' ∧ i = i' := by simpa using hd
          obtain rfl : r = r' := Option.some.inj (hget.symm.trans hr')
          simp [Receiver.accepts, hpre, hfilter]
        · simp only [hget, hpre, hfilter, not_true, if_false]
          exact hnext (by simp [Receiver.accepts, hfilter])
      · simp only [hget, hpre]
        exact hnext (by simp [Receiver.accepts, hpre])
  | delivering m i =>
    refine ⟨gone, h.next (by rw [hphase]; rfl) (fun j => by rw [hphase]; rfl) ?_ ?_⟩
    · intro j r hij hj
      rwa [List.getElem?_modify_ne _ _ (Ne.symm hij)] at hj
    · intro r hr
      rw [List.getElem?_modify_eq] at hr
      obtain ⟨s, hs, rfl⟩ := Option.map_eq_some_iff.mp hr
      have hholds := h.holds i s hs
      rw [hphase, Phase.offered, if_neg (Nat.lt_irrefl i), List.append_nil] at hholds
      exact hholds.receive (h.passed m i s hphase hs)

theorem Invariant.step (h : d.Invariant all gone) (e : Event) :
    ∃ gone, (d.step e).Invariant all gone := by
  cases e with
  | io => exact h.ioStep
  | worker i =>
    exact ⟨gone, h.modify i (Receiver.workerStep_installed) fun _ _ hr => hr.workerStep⟩
  | workerThrows i => exact ⟨gone, h.modify i (fun _ => rfl) fun _ _ hr => hr.workerThrows⟩

theorem invariant_start (chunks : List Bytes) (plugins : List Installed) :
    (start chunks plugins).Invariant (emitted chunks) [] := by
  refine ⟨.new, rfl, fun j r hj => ?_, nofun⟩
  have hr := List.mem_of_getElem? hj
  obtain ⟨p, -, rfl⟩ := List.mem_map.mp hr
  exact ⟨rfl, by simp [Receiver.new]⟩

private theorem map_modify {l : List Receiver} {i : ℕ} {f : Receiver → Receiver}
    (hf : ∀ r : Receiver, (f r).installed = r.installed) :
    (l.modify i f).map Receiver.installed = l.map Receiver.installed := by
  induction l generalizing i with
  | nil => simp
  | cons r rs ih =>
    cases i with
    | zero => simp [hf]
    | succ i => simp [ih]

/-- The plugins of the list stay the ones they are. -/
theorem installed_step (d : Dispatch) (e : Event) :
    (d.step e).receivers.map Receiver.installed = d.receivers.map Receiver.installed := by
  cases e with
  | io =>
    unfold Dispatch.step Dispatch.ioStep
    cases d.phase with
    | receiving => cases d.socket <;> rfl
    | looping =>
      by_cases hcount : d.parser.messagesCount = 0
      · simp [hcount]
      · cases hget : d.parser.getMessage <;> simp [hcount]
    | filtering m i =>
      cases hget : d.receivers[i]? with
      | none => simp [hget]
      | some r => cases hpre : r.plugin.preFilter m <;> cases hfilter : r.filter m <;>
          simp [hget, hpre, hfilter]
    | delivering m i => exact map_modify fun _ => rfl
  | worker i => exact map_modify Receiver.workerStep_installed
  | workerThrows i => exact map_modify fun _ => rfl

/-- Whatever the workers do meanwhile, each has taken the first of the emitted messages its
plugin accepts, and has run one of the callbacks for each of them. -/
theorem taken_isPrefix (chunks : List Bytes) (plugins : List Installed) (es : List Event) :
    let d := machine.run (start chunks plugins) es
    d.receivers.map Receiver.installed = plugins ∧
      ∀ r ∈ d.receivers,
        r.messages <+: (emitted chunks).filter r.accepts ∧
          ∀ x ∈ r.taken, x.2 ≠ .neither ∧
            (r.plugin.commandParser ≠ none → r.plugin.isCommand x.1 = true) := by
  intro d
  have hinstalled : d.receivers.map Receiver.installed = plugins := by
    refine machine.run_invariant (I := fun d => d.receivers.map Receiver.installed = plugins) ?_ ?_ es
    · exact fun d e h => (installed_step d e).trans h
    · have hnew : Receiver.installed ∘ Receiver.new = id := rfl
      simp [start, hnew]
  refine ⟨hinstalled, fun r hr => ?_⟩
  obtain ⟨gone, hinv⟩ : ∃ gone, d.Invariant (emitted chunks) gone := by
    refine machine.run_invariant (I := fun d => ∃ gone, d.Invariant (emitted chunks) gone) ?_ ?_ es
    · exact fun d e ⟨gone, h⟩ => h.step e
    · exact ⟨[], invariant_start chunks plugins⟩
  obtain ⟨j, hj⟩ := List.mem_iff_getElem?.mp hr
  obtain ⟨htaken, hbranches⟩ := (hinv.holds j r hj).taken
  refine ⟨htaken.trans ?_, hbranches⟩
  rw [hinv.stream]
  exact ((List.prefix_append_right_inj gone).mpr (d.phase.offered_isPrefix j)).trans
    (List.prefix_append _ _) |>.filter _

end Dispatch
end IrcBot

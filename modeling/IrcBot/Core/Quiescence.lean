import IrcBot.Core.Answers
import IrcBot.Plugins.Bundled

/-! A plugin gives all of its answers. From every state the io thread gets to the end of the
stream and the worker to the end of its queue, and what has been sent then does not depend on
the schedule. -/
namespace IrcBot
open Irc Plugins

namespace Answering
variable {σ : Type}

/-- The io thread has no message left when it waits for data. -/
def Emptied (d : Dispatch) : Prop := d.phase = .receiving → d.parser.messages = []

theorem Emptied.step {d : Dispatch} (h : Emptied d) (e : Dispatch.Event) : Emptied (d.step e) := by
  cases e with
  | worker i => exact h
  | workerThrows i => exact h
  | io =>
    change Emptied d.ioStep
    obtain ⟨d', hd'⟩ : ∃ d', d.ioStep = d' := ⟨_, rfl⟩
    have hspec := d.ioStep_spec
    rw [hd'] at hspec ⊢
    cases hspec with
    | waits => exact h
    | empties _ hmessages => exact fun _ => hmessages
    | _ => simp [Emptied]

/-- The messages that the loop has still to take out of the parser. -/
def toTake (d : Dispatch) : ℕ := (d.socket.foldl IRCParser.parse d.parser).messages.length

/-- What the io thread has still to do until it waits at the end of the stream. -/
def toDo (d : Dispatch) : ℕ :=
  2 * d.socket.length + toTake d * (3 * d.receivers.length + 4) +
    match d.phase with
    | .receiving => 0
    | .looping => 1
    | .filtering _ i => 3 * (d.receivers.length - i) + 2
    | .delivering _ i => 3 * (d.receivers.length - (i + 1)) + 3

/-- The io thread waits at the end of the stream. -/
structure Drained (d : Dispatch) : Prop where
  socket : d.socket = []
  phase : d.phase = .receiving
  messages : d.parser.messages = []

theorem toDo_step {d : Dispatch} (hp : IRCParser.Reachable d.parser) (he : Emptied d)
    (hd : ¬ Drained d) : toDo (d.step .io) < toDo d := by
  change toDo d.ioStep < toDo d
  obtain ⟨d', hd'⟩ : ∃ d', d.ioStep = d' := ⟨_, rfl⟩
  have hspec := d.ioStep_spec
  rw [hd'] at hspec ⊢
  cases hspec with
  | waits hphase hsocket => exact absurd ⟨hsocket, hphase, he hphase⟩ hd
  | parses data rest hphase hsocket =>
    simp only [toDo, toTake, hphase, hsocket, List.length_cons, List.foldl_cons]
    omega
  | empties hphase => simp [toDo, toTake, hphase]
  | takes m q hphase hget =>
    have htake : toTake d = (d.socket.foldl IRCParser.parse q).messages.length + 1 := by
      rw [toTake, IRCParser.messages_foldl_getMessage hp hget d.socket, List.length_cons]
    rw [toDo, toDo, htake, hphase, Nat.add_mul]
    dsimp only [toTake]
    omega
  | ends m i hphase => simp [toDo, toTake, hphase]
  | skips m i r hphase hget =>
    have hlt : i < d.receivers.length := (List.getElem?_eq_some_iff.mp hget).1
    rw [toDo, toDo, hphase]
    dsimp only [toTake]
    omega
  | passes m i r hphase hget =>
    have hlt : i < d.receivers.length := (List.getElem?_eq_some_iff.mp hget).1
    rw [toDo, toDo, hphase]
    dsimp only [toTake]
    omega
  | delivers m i hphase => simp [toDo, toTake, hphase]

section
variable {j : ℕ} {onMessage : σ → IRCMessage → Except Fault (σ × List IRCMessage)} {s : σ}
  {all : List IRCMessage} {a : Answering σ}

/-- The io thread gets to the end of the stream. -/
theorem Invariant.drains (h : Invariant j onMessage s all a) (he : Emptied a.dispatch) :
    ∃ n, Drained ((machine j onMessage).run a (List.replicate n (.other .io))).dispatch := by
  obtain ⟨k, hk⟩ : ∃ k, toDo a.dispatch = k := ⟨_, rfl⟩
  induction k using Nat.strong_induction_on generalizing a with
  | _ k ih =>
    by_cases hd : Drained a.dispatch
    · exact ⟨0, hd⟩
    · obtain ⟨gone, hgone⟩ := h.dispatch
      have hnext : a.step j onMessage (.other .io) = { a with dispatch := a.dispatch.step .io } := by
        simp [Answering.step]
      have hlt : toDo (a.step j onMessage (.other .io)).dispatch < k := by
        rw [hnext, ← hk]
        exact toDo_step hgone.reachable he hd
      have he' : Emptied (a.step j onMessage (.other .io)).dispatch := by
        rw [hnext]
        exact he.step .io
      obtain ⟨n, hn⟩ := ih _ hlt (h.step (.other .io)) he' rfl
      exact ⟨n + 1, hn⟩

/-- What the worker has still to do when nothing new arrives. -/
def toWork (a : Answering σ) (r : Receiver) : ℕ :=
  2 * r.plugin.incoming.length + (if a.handling.isSome then 1 else 0)
    + if r.plugin.thread = some .starting then 1 else 0

/-- A worker that has something to do does it. -/
theorem Invariant.toWork_take (h : Invariant j onMessage s all a) {r : Receiver}
    (hr : a.dispatch.receivers[j]? = some r) (hidle : a.handling = none)
    (hqueue : r.plugin.incoming ≠ []) (hthread : r.plugin.thread ≠ some .finished) :
    toWork (a.step j onMessage .worker) r.workerStep < toWork a r := by
  have hrunning : r.plugin.running = true := by
    cases h.progress r hr with
    | alive handled messages run serving => exact serving.running
    | failed handled m e messages run error idle thread => exact absurd thread hthread
  have hhandling : (a.step j onMessage .worker).handling = r.plugin.workerStep.2 := by
    simp [Answering.step, work, hidle, hr]
  obtain ⟨m, ms, hms⟩ := List.exists_cons_of_ne_nil hqueue
  obtain ⟨w, hw⟩ := Option.isSome_iff_exists.mp (h.thread r hr)
  unfold toWork
  rw [hhandling, hidle]
  unfold Receiver.workerStep
  cases w with
  | finished => exact absurd hw hthread
  | starting =>
    have hstep : r.plugin.workerStep =
        ({ r.plugin with running := true, thread := some .looping }, none) := by
      rw [Plugin.workerStep, hw]
    simp [hstep, hw]
  | looping =>
    have hstep : r.plugin.workerStep = ({ r.plugin with incoming := ms }, some m) := by
      simp [Plugin.workerStep, hw, hrunning, Plugin.getCommand, hms]
    simp [hstep, hw, hms]
    omega

/-- At the end of the stream the worker gets to the end of its queue, or its handler fails. -/
theorem Invariant.settles (h : Invariant j onMessage s all a) (hd : Drained a.dispatch) {r : Receiver}
    (hr : a.dispatch.receivers[j]? = some r) :
    ∃ n, ((machine j onMessage).run a (List.replicate n .worker)).Idle j := by
  obtain ⟨k, hk⟩ : ∃ k, toWork a r = k := ⟨_, rfl⟩
  induction k using Nat.strong_induction_on generalizing a r with
  | _ k ih =>
    cases hm : a.handling with
    | some m =>
      cases ho : onMessage a.state m with
      | ok x =>
        obtain ⟨t, out⟩ := x
        have hnext : a.step j onMessage .worker =
            { a with handling := none, state := t, sent := a.sent ++ out } := by
          simp [Answering.step, work, hm, ho]
        have hlt : toWork (a.step j onMessage .worker) r < k := by
          rw [hnext, ← hk]
          simp [toWork, hm]
        obtain ⟨n, hn⟩ := ih _ hlt (h.step .worker) (by rw [hnext]; exact hd) (by rw [hnext]; exact hr) rfl
        exact ⟨n + 1, hn⟩
      | error e =>
        have hnext : a.step j onMessage .worker =
            { a with handling := none, dispatch := a.dispatch.step (.workerThrows j) } := by
          simp [Answering.step, work, hm, ho]
        refine ⟨1, ?_⟩
        change (a.step j onMessage .worker).Idle j
        rw [hnext]
        refine ⟨hd.socket, hd.phase, hd.messages, rfl, fun q hq => Or.inr ?_⟩
        have hq : (a.dispatch.receivers.modify j Receiver.workerThrows)[j]? = some q := hq
        rw [List.getElem?_modify_eq, hr] at hq
        obtain rfl := Option.some.inj hq
        obtain ⟨w, hw⟩ := Option.isSome_iff_exists.mp (h.thread r hr)
        simp [Receiver.workerThrows, Plugin.workerThrows, hw]
    | none =>
      by_cases hdone : r.plugin.incoming = [] ∨ r.plugin.thread = some .finished
      · refine ⟨0, hd.socket, hd.phase, hd.messages, hm, fun q hq => ?_⟩
        obtain rfl := Option.some.inj (hr.symm.trans hq)
        exact hdone
      · rw [not_or] at hdone
        have hlt := h.toWork_take hr hm hdone.1 hdone.2
        have hnext : (a.step j onMessage .worker).dispatch = a.dispatch.step (.worker j) := by
          simp [Answering.step, work, hm]
        have hr' : (a.step j onMessage .worker).dispatch.receivers[j]? = some r.workerStep := by
          rw [hnext]
          change (a.dispatch.receivers.modify j Receiver.workerStep)[j]? = _
          rw [List.getElem?_modify_eq, hr]
          rfl
        obtain ⟨n, hn⟩ := ih _ (hk ▸ hlt) (h.step .worker)
          (by rw [hnext]; exact ⟨hd.socket, hd.phase, hd.messages⟩) hr' rfl
        exact ⟨n + 1, hn⟩

/-- A step of the worker or of something else is a step of the dispatch, or leaves it alone. -/
theorem dispatch_step (a : Answering σ) (e : Event) :
    (a.step j onMessage e).dispatch = a.dispatch ∨
      ∃ d, (a.step j onMessage e).dispatch = a.dispatch.step d := by
  cases e with
  | worker =>
    simp only [Answering.step, work]
    split
    · split
      · exact Or.inl rfl
      · exact Or.inr ⟨.workerThrows j, rfl⟩
    · exact Or.inr ⟨.worker j, rfl⟩
  | other e =>
    simp only [Answering.step]
    split
    · exact Or.inl rfl
    · exact Or.inr ⟨e, rfl⟩

section runs
variable (chunks : List Bytes) (plugins : List Installed) (s : σ) (es : List Event)

theorem emptied_run : Emptied ((machine j onMessage).run (start chunks plugins s) es).dispatch := by
  refine (machine j onMessage).run_invariant (I := fun a => Emptied a.dispatch) (fun a e h => ?_)
    (fun _ => rfl) es
  rw [machine_step]
  rcases dispatch_step a e with heq | ⟨d, heq⟩
  · rwa [heq]
  · rw [heq]
    exact h.step d

variable (onMessage) in
/-- The plugin of the list is the receiver of the run. -/
theorem receiver_run {p : Installed} (hp : plugins[j]? = some p) :
    ∃ r, ((machine j onMessage).run (start chunks plugins s) es).dispatch.receivers[j]? = some r ∧
      r.accepts = (Receiver.new p).accepts := by
  have hinstalled : ((machine j onMessage).run (start chunks plugins s) es).dispatch.receivers.map
      Receiver.installed = plugins := by
    refine (machine j onMessage).run_invariant
      (I := fun a => a.dispatch.receivers.map Receiver.installed = plugins) (fun a e h => ?_) ?_ es
    · rw [machine_step]
      rcases dispatch_step a e with heq | ⟨d, heq⟩
      · rwa [heq]
      · rw [heq]
        exact (Dispatch.installed_step _ d).trans h
    · have hnew : Receiver.installed ∘ Receiver.new = id := rfl
      simp [start, Dispatch.start, hnew]
  have hj := congrArg (fun l => l[j]?) hinstalled
  rw [List.getElem?_map, hp] at hj
  obtain ⟨r, hr, hrp⟩ := Option.map_eq_some_iff.mp hj
  exact ⟨r, hr, Receiver.accepts_congr hrp⟩

theorem invariant_run : Invariant j onMessage s (Dispatch.emitted chunks)
    ((machine j onMessage).run (start chunks plugins s) es) :=
  (machine j onMessage).run_invariant (fun _ e h => h.step e)
    (invariant_start chunks plugins j onMessage s) es

variable (onMessage) in
/-- Some schedule of the io thread and the worker leads to the end. -/
theorem idle_run {p : Installed} (hp : plugins[j]? = some p) :
    ∃ later, ((machine j onMessage).run (start chunks plugins s) (es ++ later)).Idle j := by
  obtain ⟨n, hn⟩ := (invariant_run chunks plugins s es).drains (emptied_run chunks plugins s es)
  rw [← Machine.Mealy.run_append] at hn
  obtain ⟨r, hr, -⟩ := receiver_run onMessage chunks plugins s
    (es ++ List.replicate n (.other .io)) hp
  obtain ⟨k, hk⟩ := (invariant_run chunks plugins s _).settles hn hr
  rw [← Machine.Mealy.run_append, List.append_assoc] at hk
  exact ⟨_, hk⟩

end runs

end

/-- The answers are those to the messages that the plugin's filters let pass. -/
theorem sent_of_answers_eq (chunks : List Bytes) (plugins : List Installed) {j : ℕ} {p : Installed}
    (hp : plugins[j]? = some p) (onMessage : σ → IRCMessage → Except Fault (σ × List IRCMessage))
    (s : σ) (es : List Event) {expected : List IRCMessage}
    (hexpected : answers onMessage s ((Dispatch.emitted chunks).filter (Receiver.new p).accepts) =
      expected) :
    let a := (machine j onMessage).run (start chunks plugins s) es
    a.sent <+: expected ∧ (a.Idle j → a.sent = expected) ∧
      ∃ later, ((machine j onMessage).run a later).Idle j := by
  intro a
  obtain ⟨r, hr, haccepts⟩ := receiver_run onMessage chunks plugins s es hp
  obtain ⟨hsent, hidle⟩ := (invariant_run chunks plugins s es).sent hr
  rw [haccepts, hexpected] at hsent hidle
  obtain ⟨later, hlater⟩ := idle_run onMessage chunks plugins s es hp
  rw [Machine.Mealy.run_append] at hlater
  exact ⟨hsent, hidle, later, hlater⟩

end Answering
namespace Plugins.Ping

/-- The plugin as the dispatch sees it. -/
def installed (id : Bytes) : Installed := ⟨id, none, filter⟩

/-- The answer to a message with parameters. -/
def pong (m : IRCMessage) : IRCMessage :=
  { command := text ['P', 'O', 'N', 'G'], params := [m.params.getLast?.getD []] }

theorem answers_eq {ms : List IRCMessage} (h : ∀ m ∈ ms, m.params ≠ []) :
    answers plugin.onMessage () ms = ms.map pong := by
  induction ms with
  | nil => rfl
  | cons m ms ih =>
    have hlast : m.params.getLast? = some (m.params.getLast (h m (by simp))) :=
      List.getLast?_eq_getLast_of_ne_nil _
    have hok : plugin.onMessage () m = .ok ((), [pong m]) := by
      change (onMessage m >>= _) = _
      rw [onMessage, lastParam, pong, hlast]
      rfl
    rw [answers, hok, List.map_cons, ← ih fun k hk => h k (by simp [hk])]
    rfl

end Plugins.Ping
end IrcBot

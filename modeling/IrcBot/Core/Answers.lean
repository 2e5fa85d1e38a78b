import IrcBot.Core.Dispatch
import IrcBot.Machine.Fallible
import IrcBot.Plugins.Helpers

/-! What a plugin sends in answer to a byte stream. Its worker handles one message after the
other while the io thread and the other workers go on; under every schedule the answers are
those that the handler gives to the accepted messages of the stream, in order and up to the
message at which it throws. Handlers that send something before they throw are left out. -/
namespace IrcBot
open Irc Plugins

/-- What a step of the io thread can do. -/
inductive Dispatch.IoStep (d : Dispatch) : Dispatch → Prop
  | waits (phase : d.phase = .receiving) (socket : d.socket = []) : IoStep d d
  | parses (data : Bytes) (rest : List Bytes) (phase : d.phase = .receiving)
      (socket : d.socket = data :: rest) :
      IoStep d { d with socket := rest, parser := d.parser.parse data, phase := .looping }
  | empties (phase : d.phase = .looping) (messages : d.parser.messages = []) :
      IoStep d { d with phase := .receiving }
  | takes (m : IRCMessage) (p : IRCParser) (phase : d.phase = .looping)
      (get : d.parser.getMessage = some (m, p)) :
      IoStep d { d with parser := p, phase := .filtering m 0 }
  | ends (m : IRCMessage) (i : ℕ) (phase : d.phase = .filtering m i)
      (get : d.receivers[i]? = none) : IoStep d { d with phase := .looping }
  | skips (m : IRCMessage) (i : ℕ) (r : Receiver) (phase : d.phase = .filtering m i)
      (get : d.receivers[i]? = some r) : IoStep d { d with phase := .filtering m (i + 1) }
  | passes (m : IRCMessage) (i : ℕ) (r : Receiver) (phase : d.phase = .filtering m i)
      (get : d.receivers[i]? = some r) : IoStep d { d with phase := .delivering m i }
  | delivers (m : IRCMessage) (i : ℕ) (phase : d.phase = .delivering m i) :
      IoStep d { d with
        receivers := d.receivers.modify i (Receiver.receive m)
        phase := .filtering m (i + 1) }

theorem Dispatch.ioStep_spec (d : Dispatch) : d.IoStep d.ioStep := by
  unfold ioStep
  split
  · next hphase =>
    split
    · next hsocket => exact .waits hphase hsocket
    · next data rest hsocket => exact .parses data rest hphase hsocket
  · next hphase =>
    split
    · next hcount => exact .empties hphase (List.length_eq_zero_iff.mp hcount)
    · next hcount =>
      split
      · next hget =>
        unfold IRCParser.getMessage at hget
        cases hm : d.parser.messages with
        | nil => exact absurd (by simp [IRCParser.messagesCount, hm]) hcount
        | cons m ms => simp [hm] at hget
      · next m p hget => exact .takes m p hphase hget
  · next m i hphase =>
    split
    · next hget => exact .ends m i hphase hget
    · next r hget =>
      split_ifs
      · exact .passes m i r hphase hget
      · exact .skips m i r hphase hget
      · exact .skips m i r hphase hget
  · next m i hphase => exact .delivers m i hphase

/-- What a handler sends for some messages; it ends with the first at which the handler throws, which
has nothing sent for it. -/
def answers {σ : Type} (onMessage : σ → IRCMessage → Except Fault (σ × List IRCMessage)) :
    σ → List IRCMessage → List IRCMessage
  | _, [] => []
  | s, m :: ms =>
    match onMessage s m with
    | .error _ => []
    | .ok (t, out) => out ++ answers onMessage t ms

/-- The dispatch with the handler of one plugin: the message it works on, what it reads and
writes, and what it has sent. -/
structure Answering (σ : Type) where
  dispatch : Dispatch
  handling : Option IRCMessage := none
  state : σ
  sent : List IRCMessage := []

/-- The worker is in its loop, or about to enter it. -/
structure Receiver.Serving (r : Receiver) : Prop where
  running : r.plugin.running = true
  thread : r.plugin.thread ≠ some .finished

theorem Receiver.Serving.workerStep {r : Receiver} (h : r.Serving) : r.workerStep.Serving := by
  have hplugin : r.workerStep.plugin = r.plugin.workerStep.1 := by
    unfold Receiver.workerStep
    obtain ⟨⟨q, taken⟩, hq⟩ : ∃ x, r.plugin.workerStep = x := ⟨_, rfl⟩
    rw [hq]
    cases taken <;> rfl
  refine ⟨?_, ?_⟩
  · rw [hplugin]
    exact r.plugin.workerStep_spec.running h.running
  · rw [hplugin, Plugin.workerStep]
    cases ht : r.plugin.thread with
    | none => simp [ht]
    | some w =>
      cases w with
      | starting => simp
      | finished => exact absurd ht h.thread
      | looping =>
        cases hq : r.plugin.incoming <;> simp [h.running, Plugin.getCommand, hq, ht]

namespace Answering
variable {σ : Type}

/-- The worker of the plugin goes on, or something else does. -/
inductive Event
  | worker
  | other (e : Dispatch.Event)
  deriving DecidableEq, Repr

def start (chunks : List Bytes) (plugins : List Installed) (s : σ) : Answering σ where
  dispatch := Dispatch.start chunks plugins
  state := s

section
/- The plugin at position `j` with its handler. -/
variable (j : ℕ) (onMessage : σ → IRCMessage → Except Fault (σ × List IRCMessage))

/-- The worker finishes the message it works on, or takes the next one. -/
def work (a : Answering σ) : Answering σ :=
  match a.handling with
  | some m =>
    match onMessage a.state m with
    | .ok (t, out) => { a with handling := none, state := t, sent := a.sent ++ out }
    -- the exception is caught at the end of the thread
    | .error _ => { a with handling := none, dispatch := a.dispatch.step (.workerThrows j) }
  | none =>
    { a with
      dispatch := a.dispatch.step (.worker j)
      handling := a.dispatch.receivers[j]?.bind fun r => r.plugin.workerStep.2 }

def step (a : Answering σ) : Event → Answering σ
  | .worker => a.work j onMessage
  | .other e =>
    if e = .worker j ∨ e = .workerThrows j then a else { a with dispatch := a.dispatch.step e }

def machine : Machine.Mealy (Answering σ) Event Empty := ⟨fun a e => (a.step j onMessage e, [])⟩

@[simp] theorem machine_step (a : Answering σ) (e : Event) :
    (machine j onMessage).step a e = (a.step j onMessage e, []) := rfl

/-- The handler as a machine over the messages that the worker takes. -/
def handler : Machine.Fallible Fault σ IRCMessage IRCMessage := ⟨onMessage⟩

end

section
variable {onMessage : σ → IRCMessage → Except Fault (σ × List IRCMessage)} {s t : σ}
  {ms ms' out : List IRCMessage} {m : IRCMessage}

theorem answers_of_run (h : (handler onMessage).run s ms = .ok (t, out)) (ms' : List IRCMessage) :
    answers onMessage s (ms ++ ms') = out ++ answers onMessage t ms' := by
  induction ms generalizing s out with
  | nil =>
    cases h
    rfl
  | cons m ms ih =>
    obtain ⟨u, out₁, out₂, hstep, hrest, rfl⟩ := Machine.Fallible.of_run_cons h
    have hm : onMessage s m = .ok (u, out₁) := hstep
    rw [List.cons_append, answers, hm, List.append_assoc]
    exact congrArg (out₁ ++ ·) (ih hrest)

theorem answers_of_error {e : Fault} (h : onMessage s m = .error e) (ms : List IRCMessage) :
    answers onMessage s (m :: ms) = [] := by
  rw [answers, h]

theorem run_concat (h : (handler onMessage).run s ms = .ok (t, out)) {u : σ} {out' : List IRCMessage}
    (hm : onMessage t m = .ok (u, out')) :
    (handler onMessage).run s (ms ++ [m]) = .ok (u, out ++ out') := by
  induction ms generalizing s out with
  | nil =>
    cases h
    have hstep : (handler onMessage).step t m = .ok (u, out') := hm
    simpa using Machine.Fallible.run_cons_ok hstep Machine.Fallible.run_nil
  | cons m' ms ih =>
    obtain ⟨v, out₁, out₂, hstep, hrest, rfl⟩ := Machine.Fallible.of_run_cons h
    rw [List.cons_append, List.append_assoc]
    exact Machine.Fallible.run_cons_ok hstep (ih hrest)

end

section
variable {j : ℕ} {onMessage : σ → IRCMessage → Except Fault (σ × List IRCMessage)} {s : σ}
  {all : List IRCMessage} {a : Answering σ} {r : Receiver}

/-- How far the worker of `r` has come: its handler has dealt with all messages it has taken
but the one it works on, or has failed at the last one. -/
inductive Progress (onMessage : σ → IRCMessage → Except Fault (σ × List IRCMessage)) (s : σ)
    (a : Answering σ) (r : Receiver) : Prop
  | alive (handled : List IRCMessage) (messages : r.messages = handled ++ a.handling.toList)
      (run : (handler onMessage).run s handled = .ok (a.state, a.sent)) (serving : r.Serving)
  | failed (handled : List IRCMessage) (m : IRCMessage) (e : Fault)
      (messages : r.messages = handled ++ [m])
      (run : (handler onMessage).run s handled = .ok (a.state, a.sent))
      (error : onMessage a.state m = .error e) (idle : a.handling = none)
      (thread : r.plugin.thread = some .finished)

structure Invariant (j : ℕ) (onMessage : σ → IRCMessage → Except Fault (σ × List IRCMessage)) (s : σ)
    (all : List IRCMessage) (a : Answering σ) : Prop where
  dispatch : ∃ gone, a.dispatch.Invariant all gone
  thread : ∀ r, a.dispatch.receivers[j]? = some r → r.plugin.thread.isSome = true
  progress : ∀ r, a.dispatch.receivers[j]? = some r → Progress onMessage s a r

theorem messages_workerStep (r : Receiver) :
    r.workerStep.messages = r.messages ++ r.plugin.workerStep.2.toList := by
  unfold Receiver.workerStep
  obtain ⟨⟨q, taken⟩, hq⟩ : ∃ x, r.plugin.workerStep = x := ⟨_, rfl⟩
  rw [hq]
  cases taken <;> simp [Receiver.messages]

theorem thread_workerStep (r : Receiver) :
    r.workerStep.plugin.thread.isSome = r.plugin.thread.isSome := by
  obtain ⟨taken, hstep, -, -⟩ := r.workerStep_spec
  exact hstep.thread

/-- The other threads leave the worker of the plugin where it is. -/
theorem receiver_step {d : Dispatch} {e : Dispatch.Event} (he : e ≠ .worker j ∧ e ≠ .workerThrows j)
    (hr : (d.step e).receivers[j]? = some r) :
    ∃ q, d.receivers[j]? = some q ∧ r.messages = q.messages ∧ r.plugin.thread = q.plugin.thread ∧
      r.plugin.running = q.plugin.running := by
  cases e with
  | io =>
    obtain ⟨d', hd'⟩ : ∃ d', d.ioStep = d' := ⟨_, rfl⟩
    have hspec := d.ioStep_spec
    have hr : d.ioStep.receivers[j]? = some r := hr
    rw [hd'] at hspec hr
    cases hspec with
    | delivers m i =>
      dsimp only at hr
      rw [List.getElem?_modify] at hr
      obtain ⟨q, hq, rfl⟩ := Option.map_eq_some_iff.mp hr
      refine ⟨q, hq, ?_⟩
      by_cases hij : i = j
      · rw [if_pos hij]
        exact ⟨rfl, rfl, rfl⟩
      · rw [if_neg hij]
        exact ⟨rfl, rfl, rfl⟩
    | _ => exact ⟨r, hr, rfl, rfl, rfl⟩
  | worker i =>
    have hij : i ≠ j := fun h => he.1 (by rw [h])
    have hr : (d.receivers.modify i Receiver.workerStep)[j]? = some r := hr
    rw [List.getElem?_modify_ne _ _ hij] at hr
    exact ⟨r, hr, rfl, rfl, rfl⟩
  | workerThrows i =>
    have hij : i ≠ j := fun h => he.2 (by rw [h])
    have hr : (d.receivers.modify i Receiver.workerThrows)[j]? = some r := hr
    rw [List.getElem?_modify_ne _ _ hij] at hr
    exact ⟨r, hr, rfl, rfl, rfl⟩

theorem Invariant.other (h : Invariant j onMessage s all a) {e : Dispatch.Event}
    (he : e ≠ .worker j ∧ e ≠ .workerThrows j) :
    Invariant j onMessage s all { a with dispatch := a.dispatch.step e } := by
  obtain ⟨gone, hgone⟩ := h.dispatch
  refine ⟨hgone.step e, fun r hr => ?_, fun r hr => ?_⟩
  · obtain ⟨q, hq, -, hthread, -⟩ := receiver_step he hr
    rw [hthread]
    exact h.thread q hq
  · obtain ⟨q, hq, hmessages, hthread, hrunning⟩ := receiver_step he hr
    cases h.progress q hq with
    | alive handled messages run serving =>
      refine .alive handled (hmessages.trans messages) run ⟨?_, ?_⟩
      · exact hrunning.trans serving.running
      · rw [hthread]
        exact serving.thread
    | failed handled m e messages run error idle thread =>
      exact .failed handled m e (hmessages.trans messages) run error idle (hthread.trans thread)

/-- The worker takes the next message or finds none. -/
theorem Invariant.take (h : Invariant j onMessage s all a) (hidle : a.handling = none) :
    Invariant j onMessage s all
      { a with
        dispatch := a.dispatch.step (.worker j)
        handling := a.dispatch.receivers[j]?.bind fun r => r.plugin.workerStep.2 } := by
  obtain ⟨gone, hgone⟩ := h.dispatch
  have hback : ∀ r, (a.dispatch.step (.worker j)).receivers[j]? = some r →
      ∃ q, a.dispatch.receivers[j]? = some q ∧ r = q.workerStep := by
    intro r hr
    have hr : (a.dispatch.receivers.modify j Receiver.workerStep)[j]? = some r := hr
    rw [List.getElem?_modify_eq] at hr
    obtain ⟨q, hq, rfl⟩ := Option.map_eq_some_iff.mp hr
    exact ⟨q, hq, rfl⟩
  refine ⟨hgone.step (.worker j), fun r hr => ?_, fun r hr => ?_⟩
  · obtain ⟨q, hq, rfl⟩ := hback r hr
    rw [thread_workerStep]
    exact h.thread q hq
  · obtain ⟨q, hq, rfl⟩ := hback r hr
    cases h.progress q hq with
    | alive handled messages run serving =>
      refine .alive handled ?_ run serving.workerStep
      rw [hidle, Option.toList_none, List.append_nil] at messages
      rw [messages_workerStep, messages, hq]
      rfl
    | failed handled m e messages run error idle thread =>
      have hstay : q.plugin.workerStep = (q.plugin, none) := by rw [Plugin.workerStep, thread]
      have hnone : q.plugin.workerStep.2 = none := by rw [hstay]
      have hthread : q.workerStep.plugin = q.plugin := by
        unfold Receiver.workerStep
        rw [hstay]
      refine .failed handled m e ?_ run error ?_ (by rw [hthread]; exact thread)
      · rw [messages_workerStep, hnone, messages, Option.toList_none, List.append_nil]
      · rw [hq]
        exact hnone

/-- The handler returns or throws. -/
theorem Invariant.finish (h : Invariant j onMessage s all a) {m : IRCMessage}
    (hm : a.handling = some m) : Invariant j onMessage s all (a.work j onMessage) := by
  obtain ⟨gone, hgone⟩ := h.dispatch
  unfold work
  rw [hm]
  dsimp only
  cases ho : onMessage a.state m with
  | ok x =>
    obtain ⟨t, out⟩ := x
    refine ⟨⟨gone, hgone⟩, h.thread, fun r hr => ?_⟩
    cases h.progress r hr with
    | alive handled messages run serving =>
      rw [hm] at messages
      exact .alive (handled ++ [m]) (by simpa using messages) (run_concat run ho) serving
    | failed handled m' e messages run error idle thread =>
      rw [hm] at idle
      cases idle
  | error e =>
    have hback : ∀ r, (a.dispatch.step (.workerThrows j)).receivers[j]? = some r →
        ∃ q, a.dispatch.receivers[j]? = some q ∧ r = q.workerThrows := by
      intro r hr
      have hr : (a.dispatch.receivers.modify j Receiver.workerThrows)[j]? = some r := hr
      rw [List.getElem?_modify_eq] at hr
      obtain ⟨q, hq, rfl⟩ := Option.map_eq_some_iff.mp hr
      exact ⟨q, hq, rfl⟩
    refine ⟨hgone.step (.workerThrows j), fun r hr => ?_, fun r hr => ?_⟩
    · obtain ⟨q, hq, rfl⟩ := hback r hr
      simpa [Receiver.workerThrows, Plugin.workerThrows] using h.thread q hq
    · obtain ⟨q, hq, rfl⟩ := hback r hr
      obtain ⟨w, hw⟩ := Option.isSome_iff_exists.mp (h.thread q hq)
      cases h.progress q hq with
      | alive handled messages run serving =>
        rw [hm] at messages
        exact .failed handled m e messages run ho rfl (by
          simp [Receiver.workerThrows, Plugin.workerThrows, hw])
      | failed handled m' e' messages run error idle thread =>
        rw [hm] at idle
        cases idle

theorem Invariant.step (h : Invariant j onMessage s all a) (e : Event) :
    Invariant j onMessage s all (a.step j onMessage e) := by
  cases e with
  | worker =>
    cases hm : a.handling with
    | none =>
      have hwork := h.take hm
      simpa only [Answering.step, work, hm] using hwork
    | some m => exact h.finish hm
  | other e =>
    by_cases he : e = .worker j ∨ e = .workerThrows j
    · simpa only [Answering.step, if_pos he] using h
    · rw [Answering.step, if_neg he]
      exact h.other (not_or.mp he)

/-- Nothing is left to do: the io thread has read the stream to its end, and the worker has
emptied its queue or ended. -/
structure Idle (j : ℕ) (a : Answering σ) : Prop where
  socket : a.dispatch.socket = []
  phase : a.dispatch.phase = .receiving
  messages : a.dispatch.parser.messages = []
  handling : a.handling = none
  queue : ∀ r, a.dispatch.receivers[j]? = some r →
    r.plugin.incoming = [] ∨ r.plugin.thread = some .finished

theorem invariant_start (chunks : List Bytes) (plugins : List Installed) (j : ℕ)
    (onMessage : σ → IRCMessage → Except Fault (σ × List IRCMessage)) (s : σ) :
    Invariant j onMessage s (Dispatch.emitted chunks) (start chunks plugins s) := by
  have hnew : ∀ r, (start chunks plugins s).dispatch.receivers[j]? = some r →
      ∃ p, r = Receiver.new p := by
    intro r hr
    have hr : (plugins.map Receiver.new)[j]? = some r := hr
    rw [List.getElem?_map] at hr
    obtain ⟨p, -, rfl⟩ := Option.map_eq_some_iff.mp hr
    exact ⟨p, rfl⟩
  refine ⟨⟨[], Dispatch.invariant_start chunks plugins⟩, fun r hr => ?_, fun r hr => ?_⟩
  · obtain ⟨p, rfl⟩ := hnew r hr
    rfl
  · obtain ⟨p, rfl⟩ := hnew r hr
    exact .alive [] rfl rfl ⟨rfl, by simp [Receiver.new]⟩

/-- The worker has taken the first of the accepted messages, and all of them once the stream
and its queue are empty. -/
theorem Invariant.messages (h : Invariant j onMessage s all a)
    (hr : a.dispatch.receivers[j]? = some r) :
    ∃ rest, all.filter r.accepts = r.messages ++ rest ∧
      (a.Idle j → rest = [] ∨ r.plugin.thread = some .finished) := by
  obtain ⟨gone, hgone⟩ := h.dispatch
  have hholds := (hgone.holds j r hr).messages
  obtain ⟨rest, hrest⟩ := a.dispatch.phase.offered_isPrefix j
  have hstream : all = gone ++ a.dispatch.phase.offered j ++
      (rest ++ (a.dispatch.socket.foldl IRCParser.parse a.dispatch.parser).messages) := by
    rw [hgone.stream, ← hrest]
    simp
  refine ⟨r.plugin.incoming ++
    (rest ++ (a.dispatch.socket.foldl IRCParser.parse a.dispatch.parser).messages).filter r.accepts,
    ?_, fun hidle => ?_⟩
  · rw [hstream, List.filter_append, ← hholds, List.append_assoc]
  · have hnone : rest = [] := by
      rw [hidle.phase] at hrest
      exact (List.append_eq_nil_iff.mp hrest).2
    rcases hidle.queue r hr with hqueue | hthread
    · left
      rw [hqueue, hnone, hidle.socket]
      simp [hidle.messages]
    · exact Or.inr hthread

theorem Invariant.sent (h : Invariant j onMessage s all a) (hr : a.dispatch.receivers[j]? = some r) :
    a.sent <+: answers onMessage s (all.filter r.accepts) ∧
      (a.Idle j → a.sent = answers onMessage s (all.filter r.accepts)) := by
  obtain ⟨rest, hrest, hidle⟩ := h.messages hr
  rw [hrest]
  cases h.progress r hr with
  | alive handled messages run serving =>
    rw [messages, List.append_assoc, answers_of_run run]
    refine ⟨List.prefix_append _ _, fun hi => ?_⟩
    rw [hi.handling, (hidle hi).resolve_right serving.thread]
    simp [answers]
  | failed handled m e messages run error idle thread =>
    rw [messages, List.append_assoc, answers_of_run run, List.singleton_append,
      answers_of_error error, List.append_nil]
    exact ⟨List.prefix_rfl, fun _ => rfl⟩

end

end Answering
end IrcBot

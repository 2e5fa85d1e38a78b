import IrcBot.Irc.Clean
import IrcBot.Irc.Lines

/-! Lines after which the parser has forgotten what was in front of them. A line without a
command word runs on into the next one, and a damaged one may leave the parser anywhere; a
line with a command behind its first space brings it back from every state, in whatever
chunks it arrives. -/
namespace IrcBot.Irc

/-- Behind the first space there is a letter or digit, and a space behind that. -/
def resyncs (w : Bytes) : Bool :=
  Chr.space ∈ ((w.dropWhile (· ≠ Chr.space)).drop 1).dropWhile fun x => !(isDigit x || isLetter x)

private theorem mem_dropWhile_append {x : Byte} {f : Byte → Bool} (u : Bytes) {v : Bytes}
    (h : x ∈ v.dropWhile f) : x ∈ (u ++ v).dropWhile f := by
  rw [List.dropWhile_append]
  split
  · exact h
  · exact List.mem_append_right _ ((List.dropWhile_suffix f).subset h)

/-- From the start of a command the line gets to its parameters. -/
theorem space_mem_of_resyncs {w : Bytes} (h : resyncs w = true) :
    Chr.space ∈ w.dropWhile fun x => !(isDigit x || isLetter x) := by
  have hsuffix : (w.dropWhile (· ≠ Chr.space)).drop 1 <:+ w :=
    (List.drop_suffix 1 _).trans (List.dropWhile_suffix _)
  obtain ⟨u, hu⟩ := hsuffix
  have hmem := mem_dropWhile_append u (of_decide_eq_true h)
  rwa [hu] at hmem

namespace State

theorem after_append (q : State) (v w : Bytes) : q.after (v ++ w) = (q.after v).after w :=
  List.foldl_append

theorem inParams_of_resyncs {q : State} (hq : q ≠ .lf) {w : Bytes} (hw : Chr.lf ∉ w)
    (h : resyncs w = true) : (q.after w).inParams = true := by
  have hcommand := after_command hw
  rw [if_pos (space_mem_of_resyncs h)] at hcommand
  have hspace : Chr.space ∈ w := (List.dropWhile_suffix _).subset (space_mem_of_resyncs h)
  have horigin : ∀ q : State, q = .servernameNick ∨ q = .user ∨ q = .host →
      (q.after w).inParams = true := by
    intro q hq
    have hafter := after_origin hq hw
    rwa [if_pos (by simpa [resyncs] using h)] at hafter
  have hword : ∀ q : State, q = .commandNum ∨ q = .commandLetter → (q.after w).inParams = true := by
    intro q hq
    have hafter := after_commandWord hq hw
    rwa [if_pos hspace] at hafter
  cases q with
  | none =>
    cases w with
    | nil => simp at hspace
    | cons x w =>
      rw [List.mem_cons, not_or] at hw
      by_cases hx : x = Chr.colon
      · have hnext : next .none x = .servernameNick := by simp [next, hx]
        have hrest : resyncs w = true := by
          have hne : x ≠ Chr.space := by rw [hx]; decide
          simpa [resyncs, List.dropWhile_cons, hne] using h
        have hafter := after_origin (Or.inl hnext) hw.2
        rw [if_pos (by simpa [resyncs] using hrest)] at hafter
        exact hafter
      · have hnext : next .none x = .command := by simp [next, hx]
        have hafter := after_command hw.2
        have hrest : Chr.space ∈ w.dropWhile fun x => !(isDigit x || isLetter x) := by
          by_cases hsp : x = Chr.space
          · simpa [resyncs, List.dropWhile_cons, hsp] using h
          · exact space_mem_of_resyncs (by simpa [resyncs, List.dropWhile_cons, hsp] using h)
        rw [if_pos hrest, ← hnext] at hafter
        exact hafter
  | servernameNick => exact horigin _ (Or.inl rfl)
  | user => exact horigin _ (Or.inr (Or.inl rfl))
  | host => exact horigin _ (Or.inr (Or.inr rfl))
  | command => exact hcommand
  | commandNum => exact hword _ (Or.inl rfl)
  | commandLetter => exact hword _ (Or.inr rfl)
  | params | trailing | cr => exact after_inParams (by decide) hw
  | lf => exact absurd rfl hq

end State

namespace Reading

theorem state_ne_lf (r : Reading) : r.state ≠ .lf := by cases r <;> simp [state]

theorem step_out_of_ne_lf (r : Reading) {x : Byte} (hx : x ≠ Chr.lf) : (r.step x).2 = [] := by
  cases r <;> simp only [step, hx, if_false] <;> split_ifs <;> rfl

theorem out_of_lf_notMem (r : Reading) {w : Bytes} (hw : Chr.lf ∉ w) : reader.out r w = [] := by
  induction w generalizing r with
  | nil => rfl
  | cons x w ih =>
    rw [List.mem_cons, not_or] at hw
    rw [Machine.Mealy.out_cons, reader_step, step_out_of_ne_lf r (Ne.symm hw.1), ih _ hw.2]
    rfl

theorem step_lf_inParams {r : Reading} (h : r.state.inParams = true) :
    (r.step Chr.lf).2.length = 1 := by
  cases r <;> simp +decide [state, State.inParams, step] at h ⊢

theorem state_calls (r : Reading) (chunks : List Bytes) :
    (callReader.run r chunks).state = r.state.after chunks.flatten := by
  induction chunks generalizing r with
  | nil => rfl
  | cons a chunks ih =>
    rw [Machine.Mealy.run_cons, callReader_step, ih, (buffer_run r.forget a).2, state_forget,
      List.flatten_cons, State.after_append]

/-- How many lines are completed does not depend on the chunks. -/
theorem length_out_calls (r : Reading) (chunks : List Bytes) :
    (callReader.out r chunks).length = (reader.out r chunks.flatten).length := by
  induction chunks generalizing r with
  | nil => rfl
  | cons a chunks ih =>
    have hforget := out_length_congr r.forget r a (state_forget r)
    have hrest := out_length_congr (reader.run r.forget a) (reader.run r a) chunks.flatten (by
      rw [(buffer_run r.forget a).2, (buffer_run r a).2, state_forget])
    rw [Machine.Mealy.out_cons, callReader_step, List.length_append, ih, List.flatten_cons,
      Machine.Mealy.out_append, List.length_append, hforget, hrest]

end Reading

namespace IRCParser

/-- Messages that wait in the queue do not change what is parsed later. -/
theorem messages_foldl_start (ms : List IRCMessage) (chunks : List Bytes) :
    (chunks.foldl parse (Reading.start.parser ms)).messages = ms ++ (chunks.foldl parse {}).messages := by
  have hnew : ({} : IRCParser) = Reading.start.parser [] := rfl
  rw [hnew, Reading.foldl_parse, Reading.foldl_parse]
  rfl

/-- A line makes the parser read everything after it like a fresh one, from every state and
in whatever chunks the line and what follows arrive, exactly if it has a command behind its
first space; it then queues one message. -/
theorem resync_iff {w : Bytes} (hw : Chr.lf ∉ w) :
    ((∀ p, Reachable p → ∀ chunks : List Bytes, chunks.flatten = w ++ [Chr.lf] →
        ∀ later : List Bytes, (later.foldl parse (chunks.foldl parse p)).messages =
          (chunks.foldl parse p).messages ++ (later.foldl parse {}).messages) ↔
      resyncs w = true) ∧
    (resyncs w = true → ∀ p, Reachable p → ∀ chunks : List Bytes,
      chunks.flatten = w ++ [Chr.lf] →
        (chunks.foldl parse p).messages.length = p.messages.length + 1) := by
  refine ⟨⟨fun h => ?_, fun h p hp chunks hchunks later => ?_⟩, fun h p hp chunks hchunks => ?_⟩
  · by_contra hno
    have hp : Reachable (parse {} [Chr.colon]) := .parse [Chr.colon] .new
    have hparser : parse {} [Chr.colon] = (Reading.servernameNick []).parser [] := rfl
    have hstate : (callReader.run (Reading.servernameNick []) [w ++ [Chr.lf]]).state.beforeParams
        = true := by
      have hafter := State.after_origin (Or.inl rfl) hw
      rw [if_neg (by simpa [resyncs] using hno)] at hafter
      rw [Reading.state_calls, List.flatten_singleton, State.after_append]
      exact State.next_lf_beforeParams hafter
    have hl := h _ hp [w ++ [Chr.lf]] (by simp) [probe]
    rw [hparser, Reading.foldl_parse] at hl
    generalize callReader.run (Reading.servernameNick []) [w ++ [Chr.lf]] = r at hl hstate
    rw [List.foldl_cons, List.foldl_nil, Reading.parse_reading] at hl
    refine Reading.out_probe (r := r.forget) (by rwa [Reading.state_forget]) ?_
    exact List.append_cancel_left hl
  · obtain ⟨r, ms, -, rfl⟩ := hp.reading
    have hstart : callReader.run r chunks = .start := by
      refine Reading.eq_start ?_
      rw [Reading.state_calls, hchunks, State.after_append]
      exact State.next_lf_inParams (State.inParams_of_resyncs r.state_ne_lf hw h)
    rw [Reading.foldl_parse, hstart, messages_foldl_start]
    rfl
  · obtain ⟨r, ms, -, rfl⟩ := hp.reading
    have hbefore : (reader.run r w).state.inParams = true := by
      rw [(Reading.buffer_run r w).2]
      exact State.inParams_of_resyncs r.state_ne_lf hw h
    rw [Reading.foldl_parse]
    simp only [Reading.parser, List.length_append, List.length_map, Reading.length_out_calls,
      hchunks, Machine.Mealy.out_append, Reading.out_of_lf_notMem r hw, List.nil_append]
    rw [Machine.Mealy.out_cons, reader_step, Machine.Mealy.out_nil, List.append_nil,
      Reading.step_lf_inParams hbefore]

/-- `":a PRIVMSG #c :x"` brings the parser back. -/
theorem resync_iff_privmsg :
    let w := text [':', 'a', ' ', 'P', 'R', 'I', 'V', 'M', 'S', 'G', ' ', '#', 'c', ' ', ':', 'x']
    resyncs w = true ∧
      ∀ p, Reachable p → ∀ chunks : List Bytes, chunks.flatten = w ++ [Chr.lf] →
        ∀ later : List Bytes, (later.foldl parse (chunks.foldl parse p)).messages =
          (chunks.foldl parse p).messages ++ (later.foldl parse {}).messages := by
  intro w
  have hw : resyncs w = true := by decide
  exact ⟨hw, (resync_iff (w := w) (by decide)).1.mpr hw⟩

end IRCParser
end IrcBot.Irc

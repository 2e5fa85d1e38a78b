import IrcBot.Irc.Emitted

/-! What holds of the origin and the parameters of every message that the parser emits,
wherever the stream is cut into calls: the end of a call only empties the token buffer,
and an empty buffer is in every shape. -/
namespace IrcBot.Irc

/-- Origin and parameters of an emitted message. -/
structure IRCMessage.Shaped (m : IRCMessage) : Prop where
  bytes : ∀ t ∈ m.params, Chr.nul ∉ t ∧ Chr.cr ∉ t ∧ Chr.lf ∉ t
  middles : ∀ t ∈ m.params.dropLast, t ≠ [] ∧ Chr.space ∉ t ∧ Chr.colon ∉ t
  origin : m.servername ≠ [] → m.nick = [] ∧ m.user = [] ∧ m.host = []

theorem TokenLine.Shaped.message {l : TokenLine} (h : l.Shaped) : l.message.Shaped where
  bytes t ht := by
    have hbytes := h.bytes t ht
    exact ⟨fun hx => (hbytes _ hx).1 rfl, fun hx => (hbytes _ hx).2.1 rfl,
      fun hx => (hbytes _ hx).2.2 rfl⟩
  middles t ht := by
    obtain ⟨hne, hmiddle⟩ := h.middles t ht
    exact ⟨hne, fun hx => (hmiddle _ hx).2.1 rfl, fun hx => (hmiddle _ hx).1 rfl⟩
  origin hs := by
    obtain ⟨o, c, ps⟩ := l
    cases o <;> simp_all [TokenLine.message, Origin.message]

theorem Reading.Shaped.forget {r : Reading} (h : r.Shaped) : r.forget.Shaped := by
  cases r with
  | start => trivial
  | servernameNick t => exact List.forall_mem_nil _
  | user n t | host n t => exact ⟨h.1, List.forall_mem_nil _⟩
  | userHost n u t => exact ⟨h.1, h.2.1, List.forall_mem_nil _⟩
  | command o t | commandNum o t | commandLetter o t => exact h
  | params l t | trailing l t => exact ⟨h.1, List.forall_mem_nil _⟩
  | cr l => exact h

namespace IRCParser

/-- What the steps of the reader and the ends of the calls keep holds of every reachable
parser, and what the reader emits there of its messages. -/
theorem Reachable.invariant {I : Reading → Prop} {P : TokenLine → Prop} (hstart : I .start)
    (hstep : ∀ r x, I r → I (r.step x).1) (hforget : ∀ r, I r → I r.forget)
    (hout : ∀ r x, I r → ∀ l ∈ (r.step x).2, P l) {p : IRCParser} (hp : Reachable p) :
    ∃ r ms, I r ∧ (∀ m ∈ ms, ∃ l, P l ∧ m = l.message) ∧ p = Reading.parser r ms := by
  induction hp with
  | new => exact ⟨.start, [], hstart, by simp, rfl⟩
  | parse w _ ih =>
    obtain ⟨r, ms, hr, hms, rfl⟩ := ih
    refine ⟨reader.run r.forget w, _, reader.run_invariant hstep (hforget r hr) w, ?_,
      Reading.parse_reading r ms w⟩
    intro m hm
    rcases List.mem_append.mp hm with hold | hnew
    · exact hms m hold
    · obtain ⟨l, hl, rfl⟩ := List.mem_map.mp hnew
      exact ⟨l, reader.out_invariant hstep hout (hforget r hr) w l hl, rfl⟩
  | getMessage _ hget ih =>
    obtain ⟨r, ms, hr, hms, rfl⟩ := ih
    cases ms with
    | nil => simp [IRCParser.getMessage, Reading.parser] at hget
    | cons m ms =>
      simp only [IRCParser.getMessage, Reading.parser, Option.some.injEq, Prod.mk.injEq] at hget
      exact ⟨r, ms, hr, fun k hk => hms k (List.mem_cons_of_mem m hk), hget.2.symm⟩

/-- Every message in the queue of a parser is in shape, whatever it has been given. -/
theorem messages_shaped {p : IRCParser} (hp : Reachable p) : ∀ m ∈ p.messages, m.Shaped := by
  obtain ⟨r, ms, -, hms, rfl⟩ := hp.invariant (I := Reading.Shaped) (P := TokenLine.Shaped)
    trivial (fun _ x h => h.step x) (fun _ h => h.forget) (fun _ _ h _ hl => h.out hl)
  intro m hm
  obtain ⟨l, hl, rfl⟩ := hms m hm
  exact hl.message

/-- A message that arrives in two calls, cut inside its trailing parameter. -/
theorem messages_shaped_cut :
    IRCMessage.Shaped
      { command := text "PRIVMSG".toList, params := [text "#a".toList, text "c d".toList] } :=
  messages_shaped (.parse (text "c d\r\n".toList) (.parse (text "PRIVMSG #a :b ".toList) .new))
    _ (by decide +kernel)

end IRCParser
end IrcBot.Irc

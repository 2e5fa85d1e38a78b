import IrcBot.Irc.Resync

/-! How much a parser can hold. Its queues are as large as the stream makes them, but no
larger: every byte of a message and every parameter is paid for with a byte received, and
every message with a line feed. -/
namespace IrcBot.Irc

/-- What a message occupies: its bytes, its parameters and itself. -/
def IRCMessage.cost (m : IRCMessage) : ℕ := m.size + m.params.length + 1

theorem TokenLine.length_tokens_addMiddle (l : TokenLine) (t : Bytes) :
    (l.addMiddle t).tokens.length = l.tokens.length + if t ≠ [] then 1 else 0 := by
  by_cases h : t = [] <;> simp [addMiddle, h]

theorem TokenLine.cost_message (l : TokenLine) :
    l.message.cost ≤ tokensSize l.tokens + l.tokens.length := by
  have hlen : l.tokens.length = l.origin.tokens.length + (l.params.length + 1) := by
    simp [tokens]
  have hparams : l.message.params = l.params := rfl
  rw [IRCMessage.cost, l.size_message, hparams, hlen]
  omega

namespace Reading

/-- The bytes that a line has taken at least: those in its tokens and one that ended each of
them, and the colon of the trailing parameter. -/
def taken (r : Reading) : ℕ :=
  match r with
  | .trailing _ _ => r.weight + r.tokens.length + 1
  | .cr l => r.weight + l.tokens.length
  | _ => r.weight + r.tokens.length

theorem taken_forget (r : Reading) : r.forget.taken ≤ r.taken := by
  cases r <;> simp [forget, taken, weight, tokens, buffer]

section
attribute [local simp] taken weight tokens buffer TokenLine.tokensSize_addMiddle
  TokenLine.length_tokens_addMiddle

/-- A byte pays for one byte more, one token more, or the end of the line. -/
theorem taken_step (r : Reading) (x : Byte) :
    (r.step x).1.taken + ((r.step x).2.map fun l => l.message.cost).sum ≤ r.taken + 1 := by
  cases r with
  | start => simp only [step]; split_ifs <;> simp
  | servernameNick t => simp only [step]; split_ifs <;> simp
  | user n t =>
    simp only [step]
    split_ifs <;> simp
    all_goals omega
  | host n t =>
    simp only [step]
    split_ifs <;> simp
    all_goals omega
  | userHost n u t => simp only [step]; split_ifs <;> (simp; omega)
  | command o t => simp only [step]; split_ifs <;> simp <;> omega
  | commandNum o t => simp only [step]; split_ifs <;> simp <;> omega
  | commandLetter o t => simp only [step]; split_ifs <;> simp <;> omega
  | params l t =>
    have hcost := (l.addMiddle t).cost_message
    rw [TokenLine.tokensSize_addMiddle, TokenLine.length_tokens_addMiddle] at hcost
    simp only [step]
    by_cases ht : t = [] <;> split_ifs <;> simp [ht] at hcost ⊢ <;> omega
  | trailing l t =>
    have hcost := (l.addParam t).cost_message
    simp only [step]
    split_ifs <;> simp at hcost ⊢ <;> omega
  | cr l =>
    have hcost := l.cost_message
    simp only [step]
    split_ifs <;> simp at hcost ⊢
    all_goals omega

end

theorem taken_calls (chunks : List Bytes) :
    (callReader.run .start chunks).taken +
        ((callReader.out .start chunks).map fun l => l.message.cost).sum ≤
      chunks.flatten.length := by
  have hcall : ∀ (r : Reading) (a : Bytes), (callReader.step r a).1.taken +
      ((callReader.step r a).2.map fun l => l.message.cost).sum ≤ r.taken + a.length := by
    intro r a
    have hrun := reader.balance_le (f := taken) (g := fun _ => 1) taken_step r.forget a
    have hforget := r.taken_forget
    rw [List.map_const', List.sum_replicate_nat, Nat.mul_one] at hrun
    rw [callReader_step]
    exact Nat.le_trans hrun (Nat.add_le_add_right hforget _)
  have hall := callReader.balance_le (f := taken) (g := List.length) hcall .start chunks
  have hstart : taken .start = 0 := rfl
  rwa [hstart, Nat.zero_add, ← List.length_flatten] at hall

/-- Only a line feed completes a line, and only one. -/
theorem length_out_le (r : Reading) (w : Bytes) : (reader.out r w).length ≤ w.count Chr.lf := by
  induction w generalizing r with
  | nil => simp
  | cons x w ih =>
    have hstep : (r.step x).2.length ≤ if x = Chr.lf then 1 else 0 := by
      by_cases hx : x = Chr.lf
      · cases r <;> simp [step, hx] <;> simp +decide
      · simp [step_out_of_ne_lf r hx]
    have hrest := ih (r.step x).1
    rw [Machine.Mealy.out_cons, reader_step, List.length_append, List.count_cons]
    simp only [beq_iff_eq]
    omega

theorem held_le_taken (r : Reading) : tokensSize r.tokens + r.tokens.length ≤ r.taken + 1 := by
  cases r <;> simp [taken, weight, tokens] <;> omega

end Reading

namespace IRCParser

/-- Whatever has been received in whatever chunks: the tokens of the unfinished line and all
messages in the queue, each with its bytes and its parameters, are not larger than the stream,
and there are not more messages than line feeds. -/
theorem queues_le_received (chunks : List Bytes) :
    let p := chunks.foldl parse {}
    tokensSize p.tokens + p.tokens.length + (p.messages.map IRCMessage.cost).sum ≤
        chunks.flatten.length + 1 ∧
      p.messages.length ≤ chunks.flatten.count Chr.lf ∧ p.message = {} := by
  dsimp only
  have hnew : ({} : IRCParser) = Reading.start.parser [] := rfl
  rw [hnew, Reading.foldl_parse]
  have hheld := (callReader.run .start chunks).held_le_taken
  have htaken := Reading.taken_calls chunks
  refine ⟨?_, ?_, rfl⟩
  · simp only [Reading.parser, List.nil_append, List.map_map]
    change _ + _ + ((callReader.out .start chunks).map fun l => l.message.cost).sum ≤ _
    omega
  · simp only [Reading.parser, List.nil_append, List.length_map, Reading.length_out_calls]
    exact Reading.length_out_le .start chunks.flatten

end IRCParser
end IrcBot.Irc

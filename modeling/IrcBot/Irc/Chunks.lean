import IrcBot.Irc.Reading
import Mathlib.Algebra.GroupWithZero.Nat

/-! Where the cuts between `parse` calls may fall. The state of the lexer survives a
call, the token buffer does not: a call boundary inside a token loses the bytes of the
token read so far, and this is noticed as soon as the token is finished. -/
namespace IrcBot.Irc

namespace State

/-- The state after a byte; a line feed that ends a line leads back to `none`. -/
def next : State → Byte → State
  | .none, x => if x = Chr.colon then .servernameNick else .command
  | .servernameNick, x =>
    if x = Chr.space then .command else if x = Chr.bang then .user
    else if x = Chr.atSign then .host else .servernameNick
  | .user, x => if x = Chr.space then .command else if x = Chr.atSign then .host else .user
  | .host, x => if x = Chr.space then .command else .host
  | .command, x =>
    if isDigit x then .commandNum else if isLetter x then .commandLetter else .command
  | .commandNum, x => if x = Chr.space then .params else .commandNum
  | .commandLetter, x => if x = Chr.space then .params else .commandLetter
  | .params, x =>
    if x = Chr.colon then .trailing else if x = Chr.cr then .cr
    else if x = Chr.lf then .none else .params
  | .trailing, x => if x = Chr.cr then .cr else if x = Chr.lf then .none else .trailing
  | .cr, x => if x = Chr.lf then .none else .cr
  | .lf, _ => .none

/-- The byte joins the current token. -/
def puts : State → Byte → Bool
  | .none, x => x ≠ Chr.colon
  | .servernameNick, x => x ≠ Chr.space ∧ x ≠ Chr.bang ∧ x ≠ Chr.atSign
  | .user, x => x ≠ Chr.space ∧ x ≠ Chr.atSign
  | .host, x => x ≠ Chr.space
  | .command, x => isDigit x || isLetter x
  | .commandNum, x => isDigit x
  | .commandLetter, x => isLetter x
  | .params, x =>
    x ≠ Chr.colon ∧ x ≠ Chr.space ∧ x ≠ Chr.nul ∧ x ≠ Chr.cr ∧ x ≠ Chr.lf
  | .trailing, x => x ≠ Chr.nul ∧ x ≠ Chr.cr ∧ x ≠ Chr.lf
  | .cr, _ | .lf, _ => false

/-- The byte finishes the current token. -/
def ends : State → Byte → Bool
  | .servernameNick, x => x = Chr.space ∨ x = Chr.bang ∨ x = Chr.atSign
  | .user, x => x = Chr.space ∨ x = Chr.atSign
  | .host, x | .commandNum, x | .commandLetter, x => x = Chr.space
  | .params, x => x = Chr.space ∨ x = Chr.cr ∨ x = Chr.lf
  | .trailing, x => x = Chr.cr ∨ x = Chr.lf
  | .none, _ | .command, _ | .cr, _ | .lf, _ => false

theorem puts_of_ends {q : State} {x : Byte} (h : q.ends x = true) : q.puts x = false := by
  cases q <;> simp only [ends, puts, decide_eq_true_eq, Bool.false_eq_true] at h ⊢
  case commandNum | commandLetter => subst h; decide
  all_goals simp only [decide_eq_false_iff_not]; grind

/-- The state after a byte string. -/
def after (q : State) (w : Bytes) : State := w.foldl next q

/-- A token is begun in the byte string, or already open before it, and not finished. -/
def leavesOpen (q : State) (isOpen : Bool) : Bytes → Bool
  | [] => isOpen
  | x :: w => leavesOpen (q.next x) (q.puts x || (isOpen && !q.ends x)) w

/-- Some byte of the string finishes a token. -/
def endsToken (q : State) : Bytes → Bool
  | [] => false
  | x :: w => q.ends x || endsToken (q.next x) w

/-- The cut between `a` and `b` lies inside a token that `b` finishes. -/
def tearsToken (q : State) (a b : Bytes) : Bool :=
  q.leavesOpen false a && (q.after a).endsToken b

/-- No cut of the chunk list tears a token. -/
def unbroken (q : State) : List Bytes → Bool
  | [] => true
  | a :: chunks => !q.tearsToken a chunks.flatten && (q.after a).unbroken chunks

end State

/-- Number of bytes in all fields. -/
def IRCMessage.size (m : IRCMessage) : ℕ :=
  m.servername.length + m.user.length + m.nick.length + m.host.length + m.command.length
    + (m.params.map List.length).sum

/-- Number of bytes in a token queue. -/
def tokensSize (ts : List Token) : ℕ := (ts.map fun t => t.value.length).sum

@[simp] theorem tokensSize_nil : tokensSize [] = 0 := rfl

@[simp] theorem tokensSize_cons (t : Token) (ts : List Token) :
    tokensSize (t :: ts) = t.value.length + tokensSize ts := by simp [tokensSize]

@[simp] theorem tokensSize_append (ts us : List Token) :
    tokensSize (ts ++ us) = tokensSize ts + tokensSize us := by simp [tokensSize]

theorem TokenLine.tokensSize_addMiddle (l : TokenLine) (t : Bytes) :
    tokensSize (l.addMiddle t).tokens = tokensSize l.tokens + t.length := by
  by_cases h : t = [] <;> simp [addMiddle, h]

theorem TokenLine.size_message (l : TokenLine) : l.message.size = tokensSize l.tokens := by
  have hps : tokensSize (l.params.map fun t => ⟨.param, t⟩) = (l.params.map List.length).sum := by
    simp [tokensSize, Function.comp_def]
  rw [tokens, tokensSize_append, tokensSize_append, hps]
  cases h : l.origin <;> simp [message, Origin.message, IRCMessage.size, h] <;> omega

namespace Reading

/-- Number of bytes of the line that are held in tokens or in the buffer. -/
def weight (r : Reading) : ℕ := tokensSize r.tokens + r.buffer.length

section
attribute [local simp] step state buffer tokens forget State.next State.puts State.ends
  TokenLine.tokensSize_addMiddle

theorem state_step (r : Reading) (x : Byte) : (r.step x).1.state = r.state.next x := by
  cases r <;> simp only [step, state, State.next] <;> split_ifs <;> simp_all +decide

theorem buffer_step (r : Reading) (x : Byte) :
    (r.step x).1.buffer =
      if r.state.puts x then r.buffer ++ [x] else if r.state.ends x then [] else r.buffer := by
  cases r <;> simp only [step, state] <;> split_ifs <;> simp_all +decide

/-- A step without an output adds the byte to the weight if it joins a token. -/
theorem weight_step (r : Reading) (x : Byte) (h : (r.step x).2 = []) :
    (r.step x).1.weight = r.weight + if r.state.puts x then 1 else 0 := by
  cases r <;> simp only [step, state, weight] at h ⊢ <;> split_ifs at h ⊢ <;>
    simp_all +decide <;> omega

/-- A completed line carries the whole weight. -/
theorem size_of_mem_step (r : Reading) (x : Byte) {l : TokenLine} (h : l ∈ (r.step x).2) :
    l.message.size = r.weight := by
  rw [TokenLine.size_message, weight]
  cases r <;> simp only [step] at h <;> split_ifs at h <;> simp_all +decide

/-- Whether a byte completes a line depends on the state alone. -/
theorem step_out_length (r s : Reading) (x : Byte) (h : r.state = s.state) :
    (r.step x).2.length = (s.step x).2.length := by
  cases r <;> cases s <;> simp_all +decide <;> split_ifs <;> simp_all +decide

/-- Without the end of a token the buffer does not show outside. -/
theorem forget_step (r : Reading) (x : Byte) (h : r.state.ends x = false) :
    (r.step x).1.forget = (r.forget.step x).1.forget ∧ (r.step x).2 = (r.forget.step x).2 := by
  cases r <;> simp only [step, forget, state, State.ends] at h ⊢ <;> (try split_ifs) <;>
    simp_all +decide

end

/-- Whether a token is open after a word. -/
theorem buffer_run (r : Reading) (w : Bytes) :
    ((reader.run r w).buffer ≠ [] ↔ r.state.leavesOpen (r.buffer ≠ []) w) ∧
      (reader.run r w).state = r.state.after w := by
  induction w generalizing r with
  | nil => simp [State.leavesOpen, State.after]
  | cons x w ih =>
    obtain ⟨hb, hs⟩ := ih (r.step x).1
    have hopen : decide ((r.step x).1.buffer ≠ []) =
        (r.state.puts x || (decide (r.buffer ≠ []) && !r.state.ends x)) := by
      rw [buffer_step]
      cases r.state.puts x <;> cases r.state.ends x <;> simp
    rw [state_step, hopen] at hb
    rw [state_step] at hs
    exact ⟨hb, hs⟩

/-- Readings that differ in the buffer only emit the same lines and go on differing in the
buffer only, as long as no token ends. -/
theorem run_of_not_endsToken (r s : Reading) (w : Bytes) (hf : r.forget = s.forget)
    (h : r.state.endsToken w = false) :
    (reader.run r w).forget = (reader.run s w).forget ∧ reader.out r w = reader.out s w := by
  induction w generalizing r s with
  | nil => exact ⟨hf, rfl⟩
  | cons x w ih =>
    simp only [State.endsToken, Bool.or_eq_false_iff] at h
    have hst : s.state = r.state := by rw [← state_forget s, ← hf, state_forget]
    obtain ⟨hr, hro⟩ := forget_step r x h.1
    obtain ⟨hs, hso⟩ := forget_step s x (hst ▸ h.1)
    have hrs : (r.step x).1.forget = (s.step x).1.forget := by rw [hr, hs, hf]
    obtain ⟨hF, hO⟩ := ih _ _ hrs (by rw [state_step]; exact h.2)
    refine ⟨hF, ?_⟩
    simp only [Machine.Mealy.out_cons, reader_step, hO]
    rw [hro, hso, hf]

/-- Readings in one state with different weights complete different lines. -/
theorem out_ne_of_weight (r s : Reading) (w : Bytes) (hst : r.state = s.state)
    (hw : r.weight ≠ s.weight) (ho : reader.out r w ≠ []) :
    (reader.out r w).map TokenLine.message ≠ (reader.out s w).map TokenLine.message := by
  induction w generalizing r s with
  | nil => exact absurd rfl ho
  | cons x w ih =>
    have hlen := step_out_length r s x hst
    simp only [Machine.Mealy.out_cons, reader_step] at ho ⊢
    cases hr : (r.step x).2 with
    | nil =>
      have hs : (s.step x).2 = [] := List.length_eq_zero_iff.mp (by rw [← hlen, hr]; rfl)
      rw [hs, List.nil_append, List.nil_append]
      refine ih _ _ (by rw [state_step, state_step, hst]) ?_ (by simpa [hr] using ho)
      rw [weight_step r x hr, weight_step s x hs, hst]
      omega
    | cons l ls =>
      cases hs : (s.step x).2 with
      | nil => simp [hr, hs] at hlen
      | cons m ms =>
        intro heq
        have hlm : l.message = m.message := by simpa using congrArg List.head? heq
        have hl := size_of_mem_step r x (by rw [hr]; exact List.mem_cons_self)
        have hm := size_of_mem_step s x (by rw [hs]; exact List.mem_cons_self)
        rw [hlm, hm] at hl
        exact hw hl.symm

theorem out_length_congr (r s : Reading) (w : Bytes) (hst : r.state = s.state) :
    (reader.out r w).length = (reader.out s w).length := by
  induction w generalizing r s with
  | nil => rfl
  | cons x w ih =>
    have h := ih (r.step x).1 (s.step x).1 (by rw [state_step, state_step, hst])
    simp only [Machine.Mealy.out_cons, reader_step, List.length_append, h,
      step_out_length r s x hst]

theorem buffer_run_congr (r s : Reading) (w : Bytes) (hst : r.state = s.state)
    (hb : r.buffer = s.buffer) : (reader.run r w).buffer = (reader.run s w).buffer := by
  induction w generalizing r s with
  | nil => exact hb
  | cons x w ih =>
    refine ih (r.step x).1 (s.step x).1 (by rw [state_step, state_step, hst]) ?_
    rw [buffer_step, buffer_step, hst, hb]

/-- The end of a token empties the buffer whatever it held. -/
theorem buffer_run_of_endsToken (r s : Reading) (w : Bytes) (hst : r.state = s.state)
    (he : r.state.endsToken w = true) : (reader.run r w).buffer = (reader.run s w).buffer := by
  induction w generalizing r s with
  | nil => simp [State.endsToken] at he
  | cons x w ih =>
    have hst' : (r.step x).1.state = (s.step x).1.state := by rw [state_step, state_step, hst]
    by_cases hx : r.state.ends x = true
    · refine buffer_run_congr (r.step x).1 (s.step x).1 w hst' ?_
      rw [buffer_step, buffer_step, ← hst, State.puts_of_ends hx, hx]
      rfl
    · refine ih (r.step x).1 (s.step x).1 hst' ?_
      rw [state_step]
      simpa [State.endsToken, hx] using he

/-- Two readings in one state keep the difference of their weights. -/
theorem weight_run (r s : Reading) (w : Bytes) (hst : r.state = s.state)
    (ho : reader.out r w = []) :
    (reader.run r w).weight + s.weight = (reader.run s w).weight + r.weight := by
  induction w generalizing r s with
  | nil => exact Nat.add_comm _ _
  | cons x w ih =>
    have hst' : (r.step x).1.state = (s.step x).1.state := by rw [state_step, state_step, hst]
    obtain ⟨hr, ho⟩ := List.append_eq_nil_iff.mp ho
    rw [reader_step] at hr ho
    have hs : (s.step x).2 = [] :=
      List.length_eq_zero_iff.mp (by rw [← step_out_length r s x hst, hr]; rfl)
    have h := ih _ _ hst' ho
    rw [weight_step r x hr, weight_step s x hs, hst] at h
    simp only [Machine.Mealy.run_cons, reader_step]
    omega

/-- Bytes that complete a line in every state. -/
def lineEnd : Bytes := text [' ', 'a', ' ', '\n']

theorem out_lineEnd (r : Reading) : reader.out r lineEnd ≠ [] := by
  cases r <;> simp +decide [lineEnd, text, step]

/-- Losing the buffer inside a token shows in the next message that is completed. -/
theorem out_ne_of_torn (r : Reading) (w : Bytes) (hb : r.buffer ≠ [])
    (he : r.state.endsToken w = true) :
    (reader.out r.forget w).map TokenLine.message ≠ (reader.out r w).map TokenLine.message ∨
      reader.out r w = [] ∧ reader.out r.forget w = [] ∧
      (reader.out (reader.run r.forget w).forget lineEnd).map TokenLine.message ≠
        (reader.out (reader.run r w).forget lineEnd).map TokenLine.message := by
  have hst : r.forget.state = r.state := state_forget r
  have hpos : 0 < r.buffer.length := List.length_pos_iff.mpr hb
  have hw : r.weight = r.forget.weight + r.buffer.length := by simp [weight]
  by_cases ho : reader.out r.forget w = []
  · right
    have ho' : reader.out r w = [] :=
      List.length_eq_zero_iff.mp (by rw [← out_length_congr _ _ w hst, ho]; rfl)
    refine ⟨ho', ho, out_ne_of_weight _ _ _ ?_ ?_ (out_lineEnd _)⟩
    · rw [state_forget, state_forget, (buffer_run _ w).2, (buffer_run _ w).2, hst]
    · have hdiff := weight_run r.forget r w hst ho
      have hbuf := buffer_run_of_endsToken r.forget r w hst (hst.symm ▸ he)
      simp only [weight, tokens_forget, buffer_forget, hbuf] at hdiff hw ⊢
      omega
  · left
    exact out_ne_of_weight _ _ w hst (by omega) ho

end Reading

namespace IRCParser

/-- A later call sees the reading without its buffer only. -/
private theorem messages_parse_lineEnd (r : Reading) (ms : List IRCMessage) :
    ((r.parser ms).parse Reading.lineEnd).messages =
      ms ++ (reader.out r.forget Reading.lineEnd).map TokenLine.message := by
  rw [Reading.parse_reading]
  rfl

/-- Two `parse` calls are one call on the joined bytes, now and for all later calls,
exactly when the cut between them does not tear a token. -/
theorem parse_append_iff {p : IRCParser} (hp : Reachable p) (a b : Bytes) :
    (∀ later : List Bytes, (later.foldl parse ((p.parse a).parse b)).messages =
        (later.foldl parse (p.parse (a ++ b))).messages) ↔
      p.state.tearsToken a b = false := by
  obtain ⟨r, ms, hr, rfl⟩ := hp.reading
  obtain ⟨hopen, hafter⟩ := Reading.buffer_run r a
  have hsplit := Reading.parse_reading (reader.run r a)
    (ms ++ (reader.out r a).map TokenLine.message) b
  have hwhole := Reading.parse_reading r ms (a ++ b)
  rw [Reading.forget_eq_self hr, Machine.Mealy.run_append, Machine.Mealy.out_append,
    List.map_append, ← List.append_assoc] at hwhole
  rw [Reading.parse_reading r ms a, Reading.forget_eq_self hr, hsplit, hwhole]
  change _ ↔ (r.state.leavesOpen false a && (r.state.after a).endsToken b) = false
  simp only [hr, ne_eq, not_true_eq_false, decide_false] at hopen
  rw [← hafter]
  generalize reader.run r a = s at *
  constructor
  · intro h
    by_contra htorn
    rw [Bool.not_eq_false, Bool.and_eq_true, ← hopen] at htorn
    rcases Reading.out_ne_of_torn s b htorn.1 htorn.2 with hne | ⟨ho, hof, hne⟩
    · exact hne (List.append_cancel_left (h []))
    · have hl := h [Reading.lineEnd]
      simp only [List.foldl_cons, List.foldl_nil, messages_parse_lineEnd, ho, hof] at hl
      exact hne (List.append_cancel_left hl)
  · intro htorn later
    have hsame : (reader.run s.forget b).forget = (reader.run s b).forget ∧
        reader.out s.forget b = reader.out s b := by
      rw [Bool.and_eq_false_iff] at htorn
      rcases htorn with h | h
      · have hs : s.forget = s := Reading.forget_eq_self (by_contra fun hs => by simp_all)
        rw [hs]
        exact ⟨rfl, rfl⟩
      · exact Reading.run_of_not_endsToken _ _ b (Reading.forget_forget s)
          (by rw [Reading.state_forget]; exact h)
    rw [hsame.2, ← Reading.parser_forget (reader.run s.forget b), hsame.1, Reading.parser_forget]

theorem state_parse {p : IRCParser} (hp : Reachable p) (a : Bytes) :
    (p.parse a).state = p.state.after a := by
  obtain ⟨r, ms, hr, rfl⟩ := hp.reading
  rw [Reading.parse_reading, Reading.forget_eq_self hr]
  exact (Reading.buffer_run r a).2

/-- A stream cut between its tokens is read like the whole stream. -/
theorem parse_chunks {p : IRCParser} (hp : Reachable p) (chunks later : List Bytes)
    (h : p.state.unbroken chunks = true) :
    (later.foldl parse (chunks.foldl parse p)).messages =
      (later.foldl parse (p.parse chunks.flatten)).messages := by
  induction chunks generalizing p with
  | nil => rfl
  | cons a chunks ih =>
    rw [State.unbroken, Bool.and_eq_true, Bool.not_eq_true', ← state_parse hp] at h
    rw [List.foldl_cons, ih (hp.parse a) h.2]
    exact (parse_append_iff hp a chunks.flatten).mpr h.1 later

/-- Chunk invariance, with its exact condition for one cut and for a whole stream. -/
theorem parse_chunk_invariance {p : IRCParser} (hp : Reachable p) :
    (∀ a b : Bytes,
      (∀ later : List Bytes, (later.foldl parse ((p.parse a).parse b)).messages =
          (later.foldl parse (p.parse (a ++ b))).messages) ↔
        p.state.tearsToken a b = false) ∧
    ∀ chunks : List Bytes, p.state.unbroken chunks = true →
      (chunks.foldl parse p).messages = (p.parse chunks.flatten).messages := by
  constructor
  · exact parse_append_iff hp
  · intro chunks h
    exact parse_chunks hp chunks [] h

/-- `"PING "` and `":x\r\n"` may arrive apart. -/
theorem parse_chunk_invariance_ping :
    ((parse {} (text ['P', 'I', 'N', 'G', ' '])).parse (text [':', 'x', '\r', '\n'])).messages =
      (parse {} (text ['P', 'I', 'N', 'G', ' '] ++ text [':', 'x', '\r', '\n'])).messages :=
  ((parse_chunk_invariance .new).1 (text ['P', 'I', 'N', 'G', ' '])
    (text [':', 'x', '\r', '\n'])).mpr (by decide) []

/-- `"PI"` and `"NG :x\r\n"` may not: the message of the second call is `NG`. -/
theorem parse_chunk_variance :
    ¬ ∀ p, Reachable p → ∀ (a b : Bytes) (later : List Bytes),
      (later.foldl parse ((p.parse a).parse b)).messages =
        (later.foldl parse (p.parse (a ++ b))).messages := by
  intro h
  have h := h {} .new (text ['P', 'I']) (text ['N', 'G', ' ', ':', 'x', '\r', '\n']) []
  revert h
  decide

end IRCParser
end IrcBot.Irc

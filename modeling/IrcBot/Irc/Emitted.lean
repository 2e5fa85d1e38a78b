import IrcBot.Irc.Segments

/-! What holds of every line the reader emits: the origin has no byte that ends one of
its parts, all parameters but the last are middle parameters, and, as long as no call
boundary has dropped a buffer, the command is one the lexer accepts. -/
namespace IrcBot.Irc

private theorem forall_concat {α : Type*} {P : α → Prop} {w : List α} {x : α}
    (hw : ∀ y ∈ w, P y) (hx : P x) : ∀ y ∈ w ++ [x], P y :=
  List.forall_mem_append.mpr ⟨hw, List.forall_mem_singleton.mpr hx⟩

theorem IsMiddle.isTrailing {t : Bytes} (h : IsMiddle t) : IsTrailing t := fun x hx =>
  (h x hx).2.2

namespace TokenLine

/-- A line that may get further parameters. -/
structure Open (l : TokenLine) : Prop where
  origin : l.origin.Clean
  params : ∀ p ∈ l.params, p ≠ [] ∧ IsMiddle p

/-- A complete line. -/
structure Shaped (l : TokenLine) : Prop where
  origin : l.origin.Clean
  middles : ∀ p ∈ l.params.dropLast, p ≠ [] ∧ IsMiddle p
  bytes : ∀ p ∈ l.params, IsTrailing p

theorem Open.shaped {l : TokenLine} (h : l.Open) : l.Shaped where
  origin := h.origin
  middles p hp := h.params p (List.dropLast_subset _ hp)
  bytes p hp := (h.params p hp).2.isTrailing

theorem Open.addMiddle {l : TokenLine} (h : l.Open) {t : Bytes} (ht : IsMiddle t) :
    (l.addMiddle t).Open := by
  unfold TokenLine.addMiddle
  split
  · next hne =>
    exact ⟨h.origin, forall_concat h.params ⟨hne, ht⟩⟩
  · exact h

theorem Open.addParam {l : TokenLine} (h : l.Open) {t : Bytes} (ht : IsTrailing t) :
    (l.addParam t).Shaped where
  origin := h.origin
  middles p hp := by
    rw [TokenLine.addParam, List.dropLast_concat] at hp
    exact h.params p hp
  bytes := forall_concat (fun p hp => (h.params p hp).2.isTrailing) ht

end TokenLine

/-- What the initial state leaves in the token buffer in front of the command. -/
def Origin.Leads (t : Bytes) : Origin → Prop
  | .absent => ∃ x, x ≠ Chr.colon ∧ t = [x]
  | _ => t = []

theorem Origin.Leads.accepts {o : Origin} {a w : Bytes} (h : o.Leads a) (hw : IsWord w) :
    o.Accepts (a ++ w) := by
  cases o with
  | absent =>
    obtain ⟨x, hx, rfl⟩ := h
    exact ⟨x, w, rfl, hx, hw⟩
  | server | user | host | userHost =>
    rw [show a = [] from h]
    exact hw

namespace Reading

/-- Origin and parameters of the line so far. -/
def Shaped : Reading → Prop
  | .start => True
  | .servernameNick t => IsName t
  | .user n t => IsName n ∧ IsUser t
  | .host n t => IsName n ∧ IsHost t
  | .userHost n u t => IsName n ∧ IsUser u ∧ IsHost t
  | .command o _ | .commandNum o _ | .commandLetter o _ => o.Clean
  | .params l t => l.Open ∧ IsMiddle t
  | .trailing l t => l.Open ∧ IsTrailing t
  | .cr l => l.Shaped

/-- The command of the line so far, all of it read in one call. -/
def Commanded : Reading → Prop
  | .start | .servernameNick _ | .user .. | .host .. | .userHost .. => True
  | .command o t => o.Leads t
  | .commandNum o t => ∃ a w, t = a ++ w ∧ o.Leads a ∧ w ≠ [] ∧ ∀ x ∈ w, isDigit x = true
  | .commandLetter o t => ∃ a w, t = a ++ w ∧ o.Leads a ∧ w ≠ [] ∧ ∀ x ∈ w, isLetter x = true
  | .params l _ | .trailing l _ | .cr l => l.origin.Accepts l.command

/-- One byte keeps origin and parameters in shape. -/
theorem Shaped.step {r : Reading} (h : r.Shaped) (x : Byte) : (r.step x).1.Shaped := by
  cases r with
  | start => by_cases hx : x = Chr.colon <;> simp [Reading.step, hx, Shaped, IsName, Origin.Clean]
  | servernameNick t =>
    simp only [Reading.step]
    split_ifs with hs hb ha
    · exact h
    · exact ⟨h, by simp [IsUser]⟩
    · exact ⟨h, by simp [IsHost]⟩
    · exact forall_concat h ⟨hs, hb, ha⟩
  | user n t =>
    simp only [Reading.step]
    split_ifs with hs ha
    · exact h
    · exact ⟨h.1, h.2, by simp [IsHost]⟩
    · exact ⟨h.1, forall_concat h.2 ⟨hs, ha⟩⟩
  | host n t =>
    simp only [Reading.step]
    split_ifs with hs
    · exact h
    · exact ⟨h.1, forall_concat h.2 hs⟩
  | userHost n u t =>
    simp only [Reading.step]
    split_ifs with hs
    · exact h
    · exact ⟨h.1, h.2.1, forall_concat h.2.2 hs⟩
  | command o t =>
    simp only [Reading.step]
    split_ifs <;> exact h
  | commandNum o t | commandLetter o t =>
    simp only [Reading.step]
    split_ifs
    · exact h
    · exact ⟨⟨h, by simp⟩, by simp [IsMiddle]⟩
    · exact h
  | params l t =>
    simp only [Reading.step]
    split_ifs with hc hs hr hf hn
    · exact ⟨h.1, h.2.isTrailing⟩
    · exact ⟨h.1.addMiddle h.2, by simp [IsMiddle]⟩
    · exact (h.1.addMiddle h.2).shaped
    · trivial
    · exact h
    · exact ⟨h.1, forall_concat h.2 ⟨hc, hs, hn, hr, hf⟩⟩
  | trailing l t =>
    simp only [Reading.step]
    split_ifs with hr hf hn
    · exact h.1.addParam h.2
    · trivial
    · exact h
    · exact ⟨h.1, forall_concat h.2 ⟨hn, hr, hf⟩⟩
  | cr l =>
    simp only [Reading.step]
    split_ifs
    · trivial
    · exact h

/-- The lines a byte can complete. -/
theorem out_cases {r : Reading} {x : Byte} {l : TokenLine} (h : l ∈ (r.step x).2) :
    (∃ k t, r = .params k t ∧ l = k.addMiddle t) ∨ (∃ k t, r = .trailing k t ∧ l = k.addParam t) ∨
      r = .cr l := by
  cases r <;> simp only [Reading.step] at h <;> split_ifs at h <;> simp_all

theorem Shaped.out {r : Reading} (h : r.Shaped) {x : Byte} {l : TokenLine}
    (hl : l ∈ (r.step x).2) : l.Shaped := by
  obtain ⟨k, t, rfl, rfl⟩ | ⟨k, t, rfl, rfl⟩ | rfl := out_cases hl
  · exact (h.1.addMiddle h.2).shaped
  · exact h.1.addParam h.2
  · exact h

private theorem commanded_append {p : Byte → Bool} {o : Origin} {t : Bytes} {x : Byte}
    (h : ∃ a w, t = a ++ w ∧ o.Leads a ∧ w ≠ [] ∧ ∀ y ∈ w, p y = true) (hx : p x = true) :
    ∃ a w, t ++ [x] = a ++ w ∧ o.Leads a ∧ w ≠ [] ∧ ∀ y ∈ w, p y = true := by
  obtain ⟨a, w, rfl, ha, -, hw⟩ := h
  exact ⟨a, w ++ [x], by simp, ha, by simp, forall_concat hw hx⟩

/-- One byte keeps the command well-formed. -/
theorem Commanded.step {r : Reading} (h : r.Commanded) (x : Byte) : (r.step x).1.Commanded := by
  cases r with
  | start => by_cases hx : x = Chr.colon <;> simp [Reading.step, hx, Commanded, Origin.Leads]
  | servernameNick t | user n t | host n t | userHost n u t =>
    simp only [Reading.step]
    split_ifs <;> trivial
  | command o t =>
    simp only [Reading.step]
    split_ifs with hd hl
    · exact ⟨t, [x], rfl, h, by simp, by simpa using hd⟩
    · exact ⟨t, [x], rfl, h, by simp, by simpa using hl⟩
    · exact h
  | commandNum o t =>
    simp only [Reading.step]
    split_ifs with hd
    · exact commanded_append h hd
    · obtain ⟨a, w, rfl, ha, hne, hw⟩ := h
      exact ha.accepts ⟨hne, Or.inr hw⟩
    · exact h
  | commandLetter o t =>
    simp only [Reading.step]
    split_ifs with hl
    · exact commanded_append h hl
    · obtain ⟨a, w, rfl, ha, hne, hw⟩ := h
      exact ha.accepts ⟨hne, Or.inl hw⟩
    · exact h
  | params l t | trailing l t | cr l =>
    simp only [Reading.step, TokenLine.addMiddle]
    split_ifs <;> trivial

theorem Commanded.out {r : Reading} (h : r.Commanded) {x : Byte} {l : TokenLine}
    (hl : l ∈ (r.step x).2) : l.origin.Accepts l.command := by
  obtain ⟨k, t, rfl, rfl⟩ | ⟨k, t, rfl, rfl⟩ | rfl := out_cases hl
  · unfold TokenLine.addMiddle
    split <;> exact h
  · exact h
  · exact h

/-- Every line completed from the start of a line, without a call boundary in between. -/
theorem out_start_shaped {w : Bytes} {l : TokenLine} (hl : l ∈ reader.out .start w) : l.Shaped :=
  reader.out_invariant (I := Shaped) (fun _ x h => h.step x) (fun _ _ h _ => h.out)
    (s := .start) trivial w l hl

theorem out_start_accepts {w : Bytes} {l : TokenLine} (hl : l ∈ reader.out .start w) :
    l.origin.Accepts l.command :=
  reader.out_invariant (I := Commanded) (fun _ x h => h.step x) (fun _ _ h _ => h.out)
    (s := .start) trivial w l hl

/-- The command of a line with this origin is being read, or the parameters after it. -/
def AfterOrigin (o : Origin) : Reading → Prop
  | .command o' _ | .commandNum o' _ | .commandLetter o' _ => o' = o
  | .params l _ | .trailing l _ | .cr l => l.origin = o
  | _ => False

/-- The first line completed after an origin has this origin. -/
theorem AfterOrigin.out_head {o : Origin} {r : Reading} (h : AfterOrigin o r) {w : Bytes}
    {l : TokenLine} {ls : List TokenLine} (hw : reader.out r w = l :: ls) : l.origin = o := by
  refine reader.out_head (I := AfterOrigin o) (P := fun l => l.origin = o) ?_ ?_ h hw
  · intro r x hr hx
    cases r with
    | start | servernameNick | user | host | userHost => exact hr.elim
    | command | commandNum | commandLetter =>
      simp only [reader_step, Reading.step]
      split_ifs <;> exact hr
    | params | trailing | cr =>
      simp only [reader_step, Reading.step, TokenLine.addMiddle] at hx ⊢
      split_ifs at hx ⊢ <;> exact hr
  · intro r x l ls hr hx
    have hl : l ∈ (r.step x).2 := by
      rw [← reader_step, hx]
      exact List.mem_cons_self
    obtain ⟨k, t, rfl, rfl⟩ | ⟨k, t, rfl, rfl⟩ | rfl := out_cases hl
    · unfold TokenLine.addMiddle
      split <;> exact hr
    · exact hr
    · exact hr

end Reading
end IrcBot.Irc

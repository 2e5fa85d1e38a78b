import IrcBot.Irc.Grammar
import Mathlib.Data.List.TakeWhile

/-! How many parameters a line has. The words behind the command are the parameters, the last of
them with everything behind the first colon. No command has a fixed number of them. -/
namespace IrcBot.Irc

/-- The parameters in what stands behind the space after a command. -/
def paramsOf (z : Bytes) : List Bytes :=
  let words := (z.takeWhile (· ≠ Chr.colon)).splitOn Chr.space
  if Chr.colon ∈ z then
    words.dropLast.filter (· ≠ []) ++
      [words.getLast?.getD [] ++ (z.dropWhile (· ≠ Chr.colon)).tail]
  else words.filter (· ≠ [])

/-- A line with a command and `z` behind it. -/
def lineOf (o : Origin) (gap : ℕ) (c z : Bytes) (withCR : Bool) : Bytes :=
  o.text ++ List.replicate gap Chr.space ++ c ++ Chr.space :: z ++ Reading.crlf withCR

namespace Reading

theorem exists_words (w : Bytes) : ∃ ts t, w.splitOn Chr.space = ts ++ [t] := by
  rcases List.eq_nil_or_concat (w.splitOn Chr.space) with hnil | ⟨ts, t, hwords⟩
  · exact absurd hnil (List.splitOn_ne_nil Chr.space w)
  · exact ⟨ts, t, by rw [hwords, List.concat_eq_append]⟩

/-- In front of a colon all words but the last are complete. The induction is on the bytes, with
the word that has begun as `t`. -/
theorem silent_words (l : TokenLine) {t u : Bytes} (ht : Chr.space ∉ t)
    (hu : ∀ x ∈ u, x ≠ Chr.colon ∧ x ≠ Chr.nul ∧ x ≠ Chr.cr ∧ x ≠ Chr.lf)
    {ws : List Bytes} {w : Bytes} (hwords : (t ++ u).splitOn Chr.space = ws ++ [w]) :
    reader.Silent (.params l t) u
      (.params { l with params := l.params ++ ws.filter (· ≠ []) } w) := by
  induction u generalizing l t ws with
  | nil =>
    rw [List.append_nil, List.splitOn_eq_singleton ht] at hwords
    obtain ⟨rfl, hlast⟩ := List.append_inj' (show [] ++ [t] = ws ++ [w] from hwords) rfl
    obtain rfl : t = w := List.singleton_inj.mp hlast
    simpa using Machine.Mealy.Silent.nil
  | cons x u ih =>
    have hx := hu x List.mem_cons_self
    have hrest : ∀ y ∈ u, y ≠ Chr.colon ∧ y ≠ Chr.nul ∧ y ≠ Chr.cr ∧ y ≠ Chr.lf :=
      fun y hy => hu y (List.mem_cons_of_mem x hy)
    by_cases hspace : x = Chr.space
    · subst hspace
      obtain ⟨ts, t', hts⟩ := exists_words u
      rw [List.splitOn_append_cons_self_of_not_mem ht, hts, ← List.cons_append] at hwords
      obtain ⟨rfl, hlast⟩ := List.append_inj' hwords rfl
      obtain rfl : t' = w := (List.cons.inj hlast).1
      have hstep : reader.step (.params l t) Chr.space = (.params (l.addMiddle t) [], []) := by
        simp +decide [step]
      have hwords := ih (l.addMiddle t) List.not_mem_nil hrest hts
      refine .cons hstep ?_
      by_cases hempty : t = []
      · simpa [TokenLine.addMiddle, hempty] using hwords
      · simpa [TokenLine.addMiddle, TokenLine.addParam, hempty] using hwords
    · have hstep : reader.step (.params l t) x = (.params l (t ++ [x]), []) := by
        simp [step, hx, hspace]
      have hword : Chr.space ∉ t ++ [x] := by
        rw [List.mem_append, List.mem_singleton]
        rintro (hmem | heq)
        · exact ht hmem
        · exact hspace heq.symm
      exact .cons hstep (ih l hword hrest (by simpa using hwords))

/-- What stands behind a command without a colon is read as its parameters. -/
theorem out_words (o : Origin) (c : Bytes) {z : Bytes} (hz : IsTrailing z) (hcolon : Chr.colon ∉ z)
    (b : Bool) : reader.out (.params ⟨o, c, []⟩ []) (z ++ crlf b) = [⟨o, c, paramsOf z⟩] := by
  have hbytes : ∀ x ∈ z, x ≠ Chr.colon := fun x hx heq => hcolon (heq ▸ hx)
  have htake : z.takeWhile (· ≠ Chr.colon) = z :=
    List.takeWhile_eq_self_iff.mpr (by simpa using hbytes)
  obtain ⟨ws, w, hws⟩ := exists_words z
  have hwords := silent_words ⟨o, c, []⟩ List.not_mem_nil (fun x hx => ⟨hbytes x hx, hz x hx⟩) hws
  rw [hwords.out_append, (run_params_crlf _ w b).2, paramsOf, htake, if_neg hcolon, hws]
  by_cases hempty : w = []
  · simp [TokenLine.addMiddle, hempty]
  · simp [TokenLine.addMiddle, TokenLine.addParam, hempty]

/-- With a colon the last word goes on to the end of the line. -/
theorem out_words_colon (o : Origin) (c : Bytes) {u v : Bytes} (hz : IsTrailing (u ++ Chr.colon :: v))
    (hcolon : Chr.colon ∉ u) (b : Bool) :
    reader.out (.params ⟨o, c, []⟩ []) (u ++ Chr.colon :: v ++ crlf b) =
      [⟨o, c, paramsOf (u ++ Chr.colon :: v)⟩] := by
  have hbytes : ∀ x ∈ u, x ≠ Chr.colon := fun x hx heq => hcolon (heq ▸ hx)
  have htake : (u ++ Chr.colon :: v).takeWhile (· ≠ Chr.colon) = u := by
    rw [List.takeWhile_append_of_pos (by simpa using hbytes)]
    simp
  have hdrop : (u ++ Chr.colon :: v).dropWhile (· ≠ Chr.colon) = Chr.colon :: v := by
    rw [List.dropWhile_append_of_pos (by simpa using hbytes)]
    simp
  obtain ⟨ws, w, hws⟩ := exists_words u
  have hwords := silent_words ⟨o, c, []⟩ List.not_mem_nil
    (fun x hx => ⟨hbytes x hx, hz x (List.mem_append_left _ hx)⟩) hws
  rw [List.nil_append] at hwords
  have hstep : reader.step (.params ⟨o, c, ws.filter (· ≠ [])⟩ w) Chr.colon =
      (.trailing ⟨o, c, ws.filter (· ≠ [])⟩ w, []) := by
    simp [step]
  have hrest : IsTrailing v := fun x hx => hz x (by simp [hx])
  have htrailing := silent_trailing ⟨o, c, ws.filter (· ≠ [])⟩ w hrest
  have hline := hwords.append (.cons hstep htrailing)
  rw [hline.out_append, (run_trailing_crlf _ (w ++ v) b).2, paramsOf, htake, hdrop,
    if_pos (by simp), hws]
  simp [TokenLine.addParam]

/-- What stands behind a command is read as its parameters. -/
theorem out_params (o : Origin) (c : Bytes) {z : Bytes} (hz : IsTrailing z) (b : Bool) :
    reader.out (.params ⟨o, c, []⟩ []) (z ++ crlf b) = [⟨o, c, paramsOf z⟩] := by
  by_cases hcolon : Chr.colon ∈ z
  · obtain ⟨u, v, rfl, hu⟩ := List.eq_append_cons_of_mem hcolon
    exact out_words_colon o c hz hu b
  · exact out_words o c hz hcolon b

end Reading

/-- A line is read as its origin, its command and these parameters. -/
theorem messagesOf_lineOf {o : Origin} {c z : Bytes} (ho : o.Clean) (hc : o.Accepts c) {gap : ℕ}
    (hgap : o = .absent → gap = 0) (hz : IsTrailing z) (b : Bool) :
    IRCParser.messagesOf (lineOf o gap c z b) = [(⟨o, c, paramsOf z⟩ : TokenLine).message] := by
  obtain ⟨r, hr, hcmd⟩ := Reading.silent_head ho hc gap hgap
  rw [IRCParser.messagesOf_eq, lineOf, List.append_assoc, hr.out_append, List.cons_append,
    Machine.Mealy.out_cons, reader_step, hcmd.step_space, List.nil_append,
    Reading.out_params o c hz b]
  rfl

/-- A word with a space behind it is one parameter more. -/
theorem paramsOf_middle {t : Bytes} (ht : IsMiddle t) (hne : t ≠ []) (z : Bytes) :
    paramsOf (t ++ Chr.space :: z) = t :: paramsOf z := by
  have hcolon : ∀ x ∈ t, decide (x ≠ Chr.colon) = true := fun x hx => decide_eq_true (ht x hx).1
  have hspace : Chr.space ∉ t := fun hmem => (ht _ hmem).2.1 rfl
  have htake : (t ++ Chr.space :: z).takeWhile (· ≠ Chr.colon) =
      t ++ Chr.space :: z.takeWhile (· ≠ Chr.colon) := by
    rw [List.takeWhile_append_of_pos hcolon, List.takeWhile_cons_of_pos (by decide)]
  have hdrop : (t ++ Chr.space :: z).dropWhile (· ≠ Chr.colon) = z.dropWhile (· ≠ Chr.colon) := by
    rw [List.dropWhile_append_of_pos hcolon, List.dropWhile_cons_of_pos (by decide)]
  have hmem : Chr.colon ∈ t ++ Chr.space :: z ↔ Chr.colon ∈ z := by
    have hfree : Chr.colon ∉ t := fun hmem => (ht _ hmem).1 rfl
    simp +decide [hfree]
  obtain ⟨ws, w, hws⟩ := Reading.exists_words (z.takeWhile (· ≠ Chr.colon))
  unfold paramsOf
  rw [htake, hdrop, List.splitOn_append_cons_self_of_not_mem hspace, hws, ← List.cons_append]
  by_cases hz : Chr.colon ∈ z
  · rw [if_pos (hmem.mpr hz), if_pos hz]
    rw [List.dropLast_concat, List.dropLast_concat, List.getLast?_concat, List.getLast?_concat]
    simp [hne]
  · rw [if_neg fun h => hz (hmem.mp h), if_neg hz]
    simp [hne]

/-- Every number of parameters occurs. -/
theorem exists_length_paramsOf (n : ℕ) : ∃ z, IsTrailing z ∧ (paramsOf z).length = n := by
  induction n with
  | zero => exact ⟨[], List.forall_mem_nil _, rfl⟩
  | succ n ih =>
    obtain ⟨z, hz, hn⟩ := ih
    have hword : IsMiddle (text ['a']) := by decide +kernel
    refine ⟨text ['a'] ++ Chr.space :: z, ?_, ?_⟩
    · intro x hx
      rcases List.mem_append.mp hx with hx | hx
      · exact (hword x hx).2.2
      · rcases List.mem_cons.mp hx with rfl | hx
        · decide
        · exact hz x hx
    · rw [paramsOf_middle hword (by decide), List.length_cons, hn]

end IrcBot.Irc

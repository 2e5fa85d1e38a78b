import IrcBot.Admin.Survival

/-! Commands on one admin connection. The port takes every read for one command, so that
the commands executed are the commands sent exactly if the reads are cut at the commands. -/
namespace IrcBot
namespace AdminPort
open CommandParser

/-- An argument that needs no quoting. -/
def Plain (a : Bytes) : Prop :=
  a ≠ [] ∧ ∀ x ∈ a, x ≠ Chr.space ∧ x ≠ Chr.lf ∧ x ≠ Chr.cr ∧ x ≠ Chr.quote ∧ x ≠ Chr.dquote ∧
    x ≠ Chr.backslash

instance (a : Bytes) : Decidable (Plain a) :=
  @instDecidableAnd _ _ inferInstance (List.decidableBAll _ a)

/-- A command that a client of the admin port sends. -/
structure IsAdminCommand (cmd : Command) : Prop where
  isSome : (operation cmd).isSome = true
  plain : ∀ a ∈ cmd.arguments, Plain a

/-- Text of a command without the newline at its end. -/
def line (cmd : Command) : Bytes := cmd.command ++ cmd.arguments.flatMap fun a => Chr.space :: a

/-- Everything that is sent on the connection. -/
def stream (commands : List Command) : Bytes := commands.flatMap fun cmd => line cmd ++ [Chr.lf]

def withoutLf (data : Bytes) : Bytes := data.filter (· ≠ Chr.lf)

/-- The reads that have more than newlines. -/
def busy (reads : List (Found × Bytes)) : List (Found × Bytes) :=
  reads.filter fun r => withoutLf r.2 ≠ []

/-- The reads are cut at the commands, up to the newlines between them. -/
def Framed (reads : List (Found × Bytes)) (commands : List Command) : Prop :=
  (busy reads).map (fun r => withoutLf r.2) = commands.map line

/-- The session has not moved at any read up to the last command. -/
def Stays : List (Found × Bytes) → Prop
  | [] => True
  | r :: reads => (busy (r :: reads) ≠ [] → r.1.moved = false) ∧ Stays reads

/-- The calls for every command come back, and the session goes on after it or it is the last
one. -/
def GoesOn (loads : Bytes → Bool) (reads : List (Found × Bytes)) (commands : List Command) : Prop :=
  (∀ p ∈ (busy reads).zip commands, ∀ op ∈ operation p.2, Completes loads p.1.1.core op) ∧
    ∀ cmd ∈ commands.dropLast, operation cmd ≠ some .shutdown

/-- Bytes that are neither spaces nor newlines. -/
def content (data : Bytes) : Bytes := data.filter fun x => x ≠ Chr.space ∧ x ≠ Chr.lf

@[simp] theorem content_nil : content [] = [] := rfl

@[simp] theorem content_append (a b : Bytes) : content (a ++ b) = content a ++ content b := by
  unfold content
  exact List.filter_append a b

theorem content_withoutLf (data : Bytes) : content (withoutLf data) = content data := by
  unfold content withoutLf
  rw [List.filter_filter]
  refine List.filter_congr fun x _ => ?_
  by_cases h : x = Chr.lf <;> simp [h]

theorem content_ne_nil {x : Byte} {data : Bytes} (hx : x ∈ data) (hs : x ≠ Chr.space)
    (hl : x ≠ Chr.lf) : content data ≠ [] := by
  have hmem : x ∈ content data := List.mem_filter.mpr ⟨hx, by simp [hs, hl]⟩
  exact List.ne_nil_of_mem hmem

/-- A read that has the content of a line, or nothing of it, is cut at the line. Before and
after the line there is content at once. -/
theorem eq_of_content {p q u v : Bytes} (h : p ++ q = u ++ Chr.lf :: v)
    (hlast : ∀ x ∈ u.getLast?, x ≠ Chr.space ∧ x ≠ Chr.lf)
    (hhead : ∀ x ∈ v.head?, x ≠ Chr.space ∧ x ≠ Chr.lf) (hc : content p = content u) :
    p = u ∨ p = u ++ [Chr.lf] := by
  rcases List.append_eq_append_iff.mp h with ⟨w, rfl, hq⟩ | ⟨w, rfl, hw⟩
  · -- the read ends within the line
    left
    rcases w.eq_nil_or_concat with rfl | ⟨w', x, rfl⟩
    · simp
    · exfalso
      obtain ⟨hs, hl⟩ := hlast x (by simp)
      have hne : content (w'.concat x) ≠ [] := content_ne_nil (x := x) (by simp) hs hl
      apply hne
      simpa using hc
  · have hcw : content w = [] := by simpa using hc
    cases w with
    | nil => exact .inl (List.append_nil u)
    | cons y w =>
      rw [List.cons_append, List.cons.injEq] at hw
      obtain ⟨rfl, hv⟩ := hw
      right
      cases w with
      | nil => rfl
      | cons z w =>
        exfalso
        obtain ⟨hs, hl⟩ := hhead z (by rw [hv]; rfl)
        exact content_ne_nil (x := z) (by simp) hs hl hcw

/-- Bytes that have no meaning of their own in arguments, separators apart. -/
def Clean (data : Bytes) : Prop :=
  ∀ x ∈ data, x ≠ Chr.cr ∧ x ≠ Chr.quote ∧ x ≠ Chr.dquote ∧ x ≠ Chr.backslash

instance (data : Bytes) : Decidable (Clean data) :=
  List.decidableBAll _ data

/-- A newline, or nothing. -/
def IsBreak (data : Bytes) : Prop := data = [] ∨ data = [Chr.lf]

/-- Classification of a byte outside quotations. -/
def mark (x : Byte) : Option Byte := if x = Chr.space ∨ x = Chr.lf then none else some x

theorem classify_clean {data : Bytes} (h : Clean data) :
    classify none data = data.map mark := by
  induction data with
  | nil => exact classify_nil none
  | cons x data ih =>
    obtain ⟨⟨hcr, hquote, hdquote, hbackslash⟩, hrest⟩ := List.forall_mem_cons.mp h
    have hopen : ¬ (x = Chr.quote ∨ x = Chr.dquote) := fun hq => hq.elim hquote hdquote
    rw [classify_cons hbackslash, List.map_cons, ← ih hrest]
    unfold mark
    by_cases hs : x = Chr.space ∨ x = Chr.lf <;> simp [hopen, hcr, hs]

theorem flatten_kept (all : List Bytes) : (kept all).flatten = all.flatten := by
  induction all with
  | nil => rfl
  | cons a all ih =>
    by_cases h : all = []
    · subst h
      rw [kept_singleton]
      split <;> simp_all
    · rw [kept_cons a h, List.flatten_cons, List.flatten_cons, ih]

/-- The arguments have all literal bytes, in order. -/
theorem flatten_segments (ws : List (Option Byte)) : (segments ws).flatten = ws.reduceOption := by
  unfold segments
  rw [flatten_kept]
  induction ws with
  | nil => rfl
  | cons w ws ih =>
    rw [List.splitOn_cons_eq_if_modifyHead]
    cases w with
    | none => simpa using ih
    | some x =>
      obtain ⟨s, ss, hs⟩ := List.exists_cons_of_ne_nil (List.splitOn_ne_nil none ws)
      rw [hs] at ih ⊢
      simpa [List.reduceOption_cons_of_some] using ih

theorem reduceOption_mark (data : Bytes) : (data.map mark).reduceOption = content data := by
  unfold content List.reduceOption
  rw [List.filterMap_map, ← List.filterMap_eq_filter]
  refine List.filterMap_congr fun x _ => ?_
  simp only [Function.comp_apply, id_eq, mark, Option.guard]
  by_cases hs : x = Chr.space
  · simp [hs]
  · by_cases hl : x = Chr.lf <;> simp [hs, hl]

theorem body_config (data : Bytes) : body config data = data := if_pos rfl

/-- A reading has the content of its data. -/
theorem readBody_content {data : Bytes} (h : Clean data) :
    (readBody data).command ++ (readBody data).arguments.flatten = content data := by
  induction data with
  | nil => rfl
  | cons x data ih =>
    obtain ⟨⟨hcr, -⟩, hrest⟩ := List.forall_mem_cons.mp h
    have hcons : content (x :: data) = content [x] ++ content data := content_append [x] data
    rw [hcons]
    by_cases hs : x = Chr.space
    · subst hs
      rw [readBody_space, flatten_segments, classify_clean hrest, reduceOption_mark]
      rfl
    · have hx : commandName [x] = content [x] := by
        refine List.filter_congr fun y hy => ?_
        obtain rfl := List.mem_singleton.mp hy
        simp [hs, hcr]
      rw [readBody_cons hs, ← ih hrest, hx, List.append_assoc]

/-- A plain argument is its own classification. -/
theorem classify_plain {a : Bytes} (ha : Plain a) (xs : Bytes) :
    classify none (a ++ xs) = a.map some ++ classify none xs := by
  have hall := ha.2
  clear ha
  induction a with
  | nil => rfl
  | cons x a ih =>
    obtain ⟨⟨hs, hl, hcr, hquote, hdquote, hbackslash⟩, hrest⟩ := List.forall_mem_cons.mp hall
    rw [List.cons_append, classify_cons hbackslash, ih hrest]
    simp [hs, hl, hcr, hquote, hdquote]

/-- Plain arguments are the segments, with a newline at their end or without it. -/
theorem segments_plain {a : Bytes} {arguments : List Bytes} (ha : Plain a)
    (h : ∀ b ∈ arguments, Plain b) {after : Bytes} (hafter : IsBreak after) :
    segments (classify none (a ++ (arguments.flatMap (fun b => Chr.space :: b) ++ after))) =
      a :: arguments := by
  induction arguments generalizing a with
  | nil =>
    rw [List.flatMap_nil, List.nil_append, classify_plain ha]
    rcases hafter with rfl | rfl
    · rw [classify_nil, List.append_nil, segments_literals, if_neg ha.1]
    · have hlf : classify none [Chr.lf] = [none] := by
        rw [classify_clean (by decide)]
        rfl
      rw [hlf, segments_separator]
      rfl
  | cons b arguments ih =>
    obtain ⟨hb, hrest⟩ := List.forall_mem_cons.mp h
    rw [List.flatMap_cons, List.append_assoc, List.cons_append, classify_plain ha,
      classify_space, segments_separator, ih hb hrest]

theorem IsAdminCommand.isCommandCharacter {cmd : Command} (h : IsAdminCommand cmd) :
    cmd.command ≠ [] ∧ ∀ x ∈ cmd.command, CommandParser.isCommandCharacter x = true := by
  have hsome := h.isSome
  unfold operation at hsome
  split at hsome
  · next hc =>
    rw [hc]
    exact ⟨by decide, List.all_eq_true.mp (by decide)⟩
  split at hsome
  · next hc =>
    rw [hc]
    exact ⟨by decide, List.all_eq_true.mp (by decide)⟩
  split at hsome
  · next hc =>
    rw [hc]
    exact ⟨by decide, List.all_eq_true.mp (by decide)⟩
  · cases hsome

theorem isBreak_nil : IsBreak [] := .inl rfl

theorem IsBreak.space_notMem {data : Bytes} (h : IsBreak data) : Chr.space ∉ data := by
  rcases h with rfl | rfl <;> decide

theorem IsBreak.commandName {data : Bytes} (h : IsBreak data) :
    CommandParser.commandName data = [] := by
  rcases h with rfl | rfl <;> rfl

theorem IsBreak.isAccepted {data : Bytes} (h : IsBreak data) : ∀ x ∈ data, IsAccepted x := by
  intro x hx
  rcases h with rfl | rfl
  · cases hx
  · exact .inr (.inr (List.mem_singleton.mp hx))

theorem commandName_append (a b : Bytes) : commandName (a ++ b) = commandName a ++ commandName b := by
  unfold commandName
  exact List.filter_append a b

/-- The reading of data that is split at the end of its command part. -/
theorem reading_split {w t : Bytes} (hw : Chr.space ∉ w) (ht : leadingWord t = [])
    (hacc : ∀ x ∈ w, IsAccepted x) :
    ¬ Rejected config (w ++ t) ∧
      reading config (w ++ t) =
        ⟨commandName w, ((rest t).map fun r => segments (classify none r)).getD []⟩ := by
  have hword : leadingWord (body config (w ++ t)) = w := by
    rw [body_config]
    exact leadingWord_append hw ht
  constructor
  · rintro (⟨hp, -⟩ | ⟨x, hx, hn⟩)
    · exact hp rfl
    · rw [hword] at hx
      exact hn (hacc x hx)
  · unfold reading readBody
    rw [hword, body_config, rest_append hw]

/-- A line is read as its command, with newlines around it or without. -/
theorem reading_line {cmd : Command} (h : IsAdminCommand cmd) {before after : Bytes}
    (hbefore : IsBreak before) (hafter : IsBreak after) :
    ¬ Rejected config (before ++ line cmd ++ after) ∧
      reading config (before ++ line cmd ++ after) = cmd := by
  obtain ⟨-, hchars⟩ := h.isCommandCharacter
  have hspace : Chr.space ∉ cmd.command := fun hmem => absurd (hchars _ hmem) (by decide)
  have hname := commandName_eq_self hchars
  have hacc : ∀ x ∈ cmd.command, IsAccepted x := fun x hx => .inl (hchars x hx)
  obtain ⟨command, arguments⟩ := cmd
  cases arguments with
  | nil =>
    have hline : before ++ line ⟨command, []⟩ ++ after = (before ++ command ++ after) ++ [] := by
      simp [line]
    rw [hline]
    obtain ⟨hrej, hread⟩ := reading_split (w := before ++ command ++ after) (t := [])
      (by simp [hbefore.space_notMem, hafter.space_notMem, hspace]) rfl
      (by
        intro x hx
        rw [List.mem_append, List.mem_append] at hx
        rcases hx with (hx | hx) | hx
        · exact hbefore.isAccepted x hx
        · exact hacc x hx
        · exact hafter.isAccepted x hx)
    refine ⟨hrej, hread.trans ?_⟩
    rw [commandName_append, commandName_append, hbefore.commandName, hafter.commandName, hname]
    simp [rest]
  | cons a arguments =>
    obtain ⟨ha, hrest⟩ := List.forall_mem_cons.mp h.plain
    have hline : before ++ line ⟨command, a :: arguments⟩ ++ after =
        (before ++ command) ++
          (Chr.space :: (a ++ (arguments.flatMap (fun b => Chr.space :: b) ++ after))) := by
      simp [line]
    rw [hline]
    obtain ⟨hrej, hread⟩ := reading_split (w := before ++ command)
      (t := Chr.space :: (a ++ (arguments.flatMap (fun b => Chr.space :: b) ++ after)))
      (by simp [hbefore.space_notMem, hspace]) (leadingWord_space _)
      (by
        intro x hx
        rcases List.mem_append.mp hx with hx | hx
        · exact hbefore.isAccepted x hx
        · exact hacc x hx)
    refine ⟨hrej, hread.trans ?_⟩
    rw [commandName_append, hbefore.commandName, hname, rest_space]
    simp only [Option.map_some, Option.getD_some, List.nil_append]
    rw [segments_plain ha hrest hafter]

namespace IsAdminCommand
variable {cmd : Command} (h : IsAdminCommand cmd)
include h

theorem clean_line : Clean (line cmd) := by
  intro x hx
  rcases List.mem_append.mp hx with hx | hx
  · have hc := h.isCommandCharacter.2 x hx
    refine ⟨?_, ?_, ?_, ?_⟩ <;> rintro rfl <;> exact absurd hc (by decide)
  · obtain ⟨a, ha, hx⟩ := List.mem_flatMap.mp hx
    rcases List.mem_cons.mp hx with rfl | hx
    · decide
    · exact ((h.plain a ha).2 x hx).2.2

theorem content_line : content (line cmd) = cmd.command ++ cmd.arguments.flatten := by
  obtain ⟨-, hread⟩ := reading_line h isBreak_nil isBreak_nil
  have hcontent := readBody_content h.clean_line
  rw [List.nil_append, List.append_nil, reading, body_config] at hread
  rw [hread] at hcontent
  exact hcontent.symm

/-- A line starts with a byte of the command. -/
theorem line_eq_cons : ∃ x xs, line cmd = x :: xs ∧ x ≠ Chr.space ∧ x ≠ Chr.lf := by
  obtain ⟨hne, hchars⟩ := h.isCommandCharacter
  obtain ⟨x, xs, hx⟩ := List.exists_cons_of_ne_nil hne
  have hc := hchars x (by simp [hx])
  refine ⟨x, _, by rw [line, hx, List.cons_append], ?_, ?_⟩ <;> rintro rfl <;>
    exact absurd hc (by decide)

/-- A line ends with a byte of the command or of the last argument. -/
theorem getLast?_line : ∀ x ∈ (line cmd).getLast?, x ≠ Chr.space ∧ x ≠ Chr.lf := by
  intro x hx
  unfold line at hx
  rcases cmd.arguments.eq_nil_or_concat with hnil | ⟨as, a, hcat⟩
  · rw [hnil, List.flatMap_nil, List.append_nil] at hx
    have hc := h.isCommandCharacter.2 x (List.mem_of_getLast? hx)
    constructor <;> rintro rfl <;> exact absurd hc (by decide)
  · have ha := h.plain a (by simp [hcat])
    rw [hcat, List.concat_eq_append, List.flatMap_append, List.flatMap_singleton, ← List.append_assoc,
      List.getLast?_append_of_ne_nil _ (by simp), List.getLast?_cons_of_ne_nil ha.1] at hx
    have hmem := ha.2 x (List.mem_of_getLast? hx)
    exact ⟨hmem.1, hmem.2.1⟩

end IsAdminCommand

theorem withoutLf_eq_self {data : Bytes} (h : Chr.lf ∉ data) : withoutLf data = data := by
  unfold withoutLf
  rw [List.filter_eq_self]
  intro x hx
  exact decide_eq_true (ne_of_mem_of_not_mem hx h)

theorem IsAdminCommand.lf_notMem_line {cmd : Command} (h : IsAdminCommand cmd) :
    Chr.lf ∉ line cmd := by
  intro hx
  rcases List.mem_append.mp hx with hx | hx
  · exact absurd (h.isCommandCharacter.2 _ hx) (by decide)
  · obtain ⟨a, ha, hx⟩ := List.mem_flatMap.mp hx
    rcases List.mem_cons.mp hx with hx | hx
    · exact absurd hx (by decide)
    · exact ((h.plain a ha).2 _ hx).2.1 rfl

theorem stream_cons (cmd : Command) (commands : List Command) :
    stream (cmd :: commands) = line cmd ++ Chr.lf :: stream commands := by
  simp [stream]

theorem head?_stream {commands : List Command} (h : ∀ cmd ∈ commands, IsAdminCommand cmd) :
    ∀ x ∈ (stream commands).head?, x ≠ Chr.space ∧ x ≠ Chr.lf := by
  cases commands with
  | nil => simp [stream]
  | cons cmd commands =>
    obtain ⟨x, xs, hx, hs, hl⟩ := (h cmd (by simp)).line_eq_cons
    intro y hy
    rw [stream_cons, hx] at hy
    obtain rfl : x = y := Option.some.inj hy
    exact ⟨hs, hl⟩

theorem clean_stream {commands : List Command} (h : ∀ cmd ∈ commands, IsAdminCommand cmd) :
    Clean (stream commands) := by
  intro x hx
  obtain ⟨cmd, hcmd, hx⟩ := List.mem_flatMap.mp hx
  rcases List.mem_append.mp hx with hx | hx
  · exact (h cmd hcmd).clean_line x hx
  · rw [List.mem_singleton.mp hx]
    decide

theorem IsBreak.content {data : Bytes} (h : IsBreak data) : AdminPort.content data = [] := by
  rcases h with rfl | rfl <;> rfl

theorem eq_nil_of_content {p q v : Bytes} {x : Byte} (hs : x ≠ Chr.space) (hl : x ≠ Chr.lf)
    (h : p ++ q = x :: v) (hc : content p = []) : p = [] := by
  cases p with
  | nil => rfl
  | cons y p =>
    rw [List.cons_append, List.cons.injEq] at h
    obtain ⟨rfl, -⟩ := h
    exact absurd hc (content_ne_nil List.mem_cons_self hs hl)

/-- A read with nothing of the next line stops in front of it. -/
theorem idle_read {p q before v : Bytes} {x : Byte} (hbefore : IsBreak before)
    (hs : x ≠ Chr.space) (hl : x ≠ Chr.lf) (h : p ++ q = before ++ x :: v)
    (hc : content p = []) : IsBreak p ∧ ∃ rest, IsBreak rest ∧ q = rest ++ x :: v := by
  rcases hbefore with rfl | rfl
  · obtain rfl := eq_nil_of_content hs hl h hc
    exact ⟨.inl rfl, [], .inl rfl, h⟩
  · cases p with
    | nil => exact ⟨.inl rfl, [Chr.lf], .inr rfl, h⟩
    | cons y p =>
      rw [List.cons_append, List.singleton_append, List.cons.injEq] at h
      obtain ⟨rfl, h⟩ := h
      have hc' : content p = [] := hc
      obtain rfl := eq_nil_of_content hs hl h hc'
      exact ⟨.inr rfl, [], .inl rfl, h⟩

/-- A read with the content of the next line is cut at this line. -/
theorem aligned_read {p q before v : Bytes} {cmd : Command} (hbefore : IsBreak before)
    (hcmd : IsAdminCommand cmd) (hv : ∀ x ∈ v.head?, x ≠ Chr.space ∧ x ≠ Chr.lf)
    (h : p ++ q = before ++ (line cmd ++ Chr.lf :: v)) (hc : content p = content (line cmd)) :
    ∃ after rest, IsBreak after ∧ IsBreak rest ∧ p = before ++ line cmd ++ after ∧
      q = rest ++ v := by
  obtain ⟨x, xs, hx, -⟩ := hcmd.line_eq_cons
  have hlast : ∀ y ∈ (before ++ line cmd).getLast?, y ≠ Chr.space ∧ y ≠ Chr.lf := by
    intro y hy
    rw [List.getLast?_append_of_ne_nil _ (by simp [hx])] at hy
    exact hcmd.getLast?_line y hy
  have hcut : p ++ q = (before ++ line cmd) ++ Chr.lf :: v := by rw [h, List.append_assoc]
  have hcontent : content p = content (before ++ line cmd) := by
    rw [content_append, hbefore.content, List.nil_append, hc]
  rcases eq_of_content hcut hlast hv hcontent with rfl | rfl
  · refine ⟨[], [Chr.lf], .inl rfl, .inr rfl, (List.append_nil _).symm, ?_⟩
    exact List.append_cancel_left hcut
  · refine ⟨[Chr.lf], [], .inr rfl, .inl rfl, rfl, ?_⟩
    rw [List.append_assoc, List.append_assoc] at hcut
    simpa using hcut

/-- What a read of newlines does: nothing. -/
theorem idle_step (loads : Bytes → Bool) {f : Found} (hf : f.moved = false) {data : Bytes}
    (h : IsBreak data) : executed loads f data = [] ∧ (receive loads f data).2 = true := by
  obtain ⟨core, moved⟩ := f
  obtain rfl : moved = false := hf
  rcases h with rfl | rfl <;> exact ⟨rfl, rfl⟩

/-- A session that has moved executes nothing any more. -/
theorem moved_step (loads : Bytes → Bool) {f : Found} (hf : f.moved = true) (data : Bytes) :
    executed loads f data = [] ∧ (receive loads f data).2 = false := by
  unfold executed receive
  rw [if_pos hf, if_pos hf]
  exact ⟨rfl, rfl⟩

theorem withoutLf_break {data : Bytes} (h : IsBreak data) : withoutLf data = [] := by
  rcases h with rfl | rfl <;> rfl

theorem withoutLf_aligned {cmd : Command} (hcmd : IsAdminCommand cmd) {before after : Bytes}
    (hbefore : IsBreak before) (hafter : IsBreak after) :
    withoutLf (before ++ line cmd ++ after) = line cmd := by
  have hself := withoutLf_eq_self hcmd.lf_notMem_line
  have hbefore := withoutLf_break hbefore
  have hafter := withoutLf_break hafter
  unfold withoutLf at hbefore hafter hself ⊢
  rw [List.filter_append, List.filter_append, hbefore, hafter, hself, List.nil_append,
    List.append_nil]

/-- What a read of one line does: its command. -/
theorem aligned_step (loads : Bytes → Bool) {f : Found} (hf : f.moved = false)
    (hc : ∀ r ∈ f.core.plugins, r.Healthy) {cmd : Command} (hcmd : IsAdminCommand cmd)
    {before after : Bytes} (hbefore : IsBreak before) (hafter : IsBreak after) :
    ∃ op, operation cmd = some op ∧
      executed loads f (before ++ line cmd ++ after) = [(cmd, (op.execute loads f.core).2)] ∧
        ((receive loads f (before ++ line cmd ++ after)).2 = true ↔
          Completes loads f.core op ∧ op ≠ .shutdown) := by
  obtain ⟨hrej, hread⟩ := reading_line hcmd hbefore hafter
  obtain ⟨op, hop⟩ := Option.isSome_iff_exists.mp hcmd.isSome
  refine ⟨op, hop, ?_, ?_⟩
  · rw [executed, if_neg (by simp [hf]), request_of_not_rejected hrej, hread, hop]
    rfl
  · rw [receive_posts_iff hc, Harmless, hread, hop, and_iff_right hf, and_iff_right hrej]
    exact ⟨fun h => h op rfl, fun h op' hop' => Option.some.inj hop' ▸ h⟩

section
variable (loads : Bytes → Bool)

theorem out_cons (r : Found × Bytes) (reads : List (Found × Bytes)) :
    (session loads).out true (r :: reads) =
      executed loads r.1 r.2 ++ (session loads).out (receive loads r.1 r.2).2 reads := rfl

theorem out_false (reads : List (Found × Bytes)) : (session loads).out false reads = [] := by
  induction reads with
  | nil => rfl
  | cons r reads ih => exact ih

/-- A command has the content of the read that it comes from. -/
theorem content_of_mem_executed {f : Found} {data : Bytes} (h : Clean data)
    {x : Command × Control} (hx : x ∈ executed loads f data) :
    executed loads f data = [x] ∧ x.1.command ++ x.1.arguments.flatten = content data := by
  by_cases hm : f.moved = true
  · rw [(moved_step loads hm data).1] at hx
    cases hx
  · have hexecuted : executed loads f data =
        (request data).toList.map fun r => (r.1, (r.2.execute loads f.core).2) := if_neg hm
    rw [hexecuted] at hx ⊢
    by_cases hr : Rejected config data
    · rw [(processCommand_rejected (fun _ => true) {} hr).2] at hx
      cases hx
    · rw [request_of_not_rejected hr] at hx ⊢
      cases ho : operation (reading config data) with
      | none => simp [ho] at hx
      | some op =>
        obtain rfl : x = (reading config data, (op.execute loads f.core).2) := by simpa [ho] using hx
        refine ⟨rfl, ?_⟩
        have := readBody_content h
        rwa [← body_config data] at this

/-- All reads of a session, one after the other. -/
def received (reads : List (Found × Bytes)) : Bytes := (reads.map Prod.snd).flatten

theorem received_cons (r : Found × Bytes) (reads : List (Found × Bytes)) :
    received (r :: reads) = r.2 ++ received reads := rfl

def weight (cmd : Command) : Bytes := cmd.command ++ cmd.arguments.flatten

/-- The commands executed have no more content than what is received. -/
theorem length_weight_out_le {reads : List (Found × Bytes)} (h : Clean (received reads))
    (posted : Bool) :
    (((session loads).out posted reads).flatMap fun x => weight x.1).length ≤
      (content (received reads)).length := by
  induction reads generalizing posted with
  | nil => exact Nat.le_refl _
  | cons r reads ih =>
    rw [received_cons] at h ⊢
    have hr : Clean r.2 := fun x hx => h x (List.mem_append_left _ hx)
    have hrest : Clean (received reads) := fun x hx => h x (List.mem_append_right _ hx)
    cases posted with
    | false =>
      rw [out_false]
      exact Nat.zero_le _
    | true =>
      have hle := ih hrest (receive loads r.1 r.2).2
      have hex : ((executed loads r.1 r.2).flatMap fun x => weight x.1).length ≤ (content r.2).length := by
        cases he : executed loads r.1 r.2 with
        | nil => exact Nat.zero_le _
        | cons x xs =>
          have hmem : x ∈ executed loads r.1 r.2 := by simp [he]
          obtain ⟨hone, hweight⟩ := content_of_mem_executed loads hr hmem
          rw [← he, hone, List.flatMap_singleton, ← hweight]
          exact Nat.le_refl _
      rw [out_cons, List.flatMap_append, List.length_append, content_append, List.length_append]
      omega

theorem content_stream {commands : List Command} (h : ∀ cmd ∈ commands, IsAdminCommand cmd) :
    content (stream commands) = commands.flatMap weight := by
  induction commands with
  | nil => rfl
  | cons cmd commands ih =>
    obtain ⟨hcmd, hrest⟩ := List.forall_mem_cons.mp h
    have hlf : content (Chr.lf :: stream commands) = content (stream commands) := rfl
    rw [stream_cons, content_append, hcmd.content_line, hlf, ih hrest]
    rfl

/-- Commands whose calls have all come back. -/
def returned (commands : List Command) : List (Command × Control) :=
  commands.map fun cmd => (cmd, .returns)

theorem returned_cons (cmd : Command) (commands : List Command) :
    returned (cmd :: commands) = (cmd, .returns) :: returned commands := rfl

theorem flatMap_weight_returned (commands : List Command) :
    ((returned commands).flatMap fun x => weight x.1) = commands.flatMap weight := by
  rw [returned, List.flatMap_map]

/-- If the right commands are executed, the first read has nothing or all of the first one. -/
theorem content_of_out_eq {r : Found × Bytes} {reads : List (Found × Bytes)} {before : Bytes}
    {cmd : Command} {commands : List Command} (hbefore : IsBreak before)
    (hcmd : ∀ c ∈ cmd :: commands, IsAdminCommand c)
    (hcut : received (r :: reads) = before ++ stream (cmd :: commands))
    (hout : (session loads).out true (r :: reads) = returned (cmd :: commands)) :
    content r.2 = [] ∨ content r.2 = content (line cmd) := by
  have hclean : Clean (received (r :: reads)) := by
    rw [hcut]
    intro x hx
    rcases List.mem_append.mp hx with hx | hx
    · rcases hbefore with rfl | rfl
      · cases hx
      · rw [List.mem_singleton.mp hx]
        decide
    · exact clean_stream hcmd x hx
  have hr : Clean r.2 := fun x hx => hclean x (List.mem_append_left _ hx)
  have hreads : Clean (received reads) := fun x hx => hclean x (List.mem_append_right _ hx)
  rw [out_cons] at hout
  cases he : executed loads r.1 r.2 with
  | nil =>
    left
    rw [he, List.nil_append] at hout
    have hle := length_weight_out_le loads hreads (receive loads r.1 r.2).2
    have hsum : (content r.2).length + (content (received reads)).length =
        ((cmd :: commands).flatMap weight).length := by
      rw [← List.length_append, ← content_append, ← received_cons, hcut, content_append,
        hbefore.content, List.nil_append, content_stream hcmd]
    rw [hout, flatMap_weight_returned] at hle
    apply List.eq_nil_of_length_eq_zero
    omega
  | cons x xs =>
    right
    have hmem : x ∈ executed loads r.1 r.2 := by simp [he]
    obtain ⟨hone, hweight⟩ := content_of_mem_executed loads hr hmem
    rw [hone, List.singleton_append, returned_cons, List.cons.injEq] at hout
    obtain ⟨rfl, -⟩ := hout
    rw [(hcmd cmd List.mem_cons_self).content_line, hweight]

theorem content_of_framed {r : Found × Bytes} {reads : List (Found × Bytes)}
    {cmd : Command} {commands : List Command} (h : Framed (r :: reads) (cmd :: commands)) :
    content r.2 = [] ∨ content r.2 = content (line cmd) := by
  unfold Framed busy at h
  rw [← content_withoutLf]
  by_cases hr : withoutLf r.2 = []
  · exact .inl (by rw [hr]; rfl)
  · rw [List.filter_cons_of_pos (by simpa using hr), List.map_cons, List.map_cons,
      List.cons.injEq] at h
    exact .inr (by rw [h.1])

theorem busy_cons_idle {r : Found × Bytes} (reads : List (Found × Bytes))
    (h : withoutLf r.2 = []) : busy (r :: reads) = busy reads :=
  List.filter_cons_of_neg (by simpa using h)

theorem busy_cons {r : Found × Bytes} (reads : List (Found × Bytes)) (h : withoutLf r.2 ≠ []) :
    busy (r :: reads) = r :: busy reads :=
  List.filter_cons_of_pos (by simpa using h)

theorem stays_of_busy_eq_nil {reads : List (Found × Bytes)} (h : busy reads = []) : Stays reads := by
  induction reads with
  | nil => trivial
  | cons r reads ih =>
    refine ⟨fun hne => absurd h hne, ih ?_⟩
    unfold busy at h ⊢
    exact List.filter_eq_nil_iff.mpr fun q hq => List.filter_eq_nil_iff.mp h q (List.mem_cons_of_mem r hq)

theorem busy_ne_nil {reads : List (Found × Bytes)} {cmd : Command} {commands : List Command}
    (h : Framed reads (cmd :: commands)) : busy reads ≠ [] := by
  intro hnil
  unfold Framed at h
  rw [hnil] at h
  cases h

/-- A read of newlines changes nothing on both sides, unless it finds the session moved. -/
theorem out_idle_iff {r : Found × Bytes} (hr : IsBreak r.2) (reads : List (Found × Bytes))
    (cmd : Command) (commands : List Command)
    (ih : (session loads).out true reads = returned (cmd :: commands) ↔
      Framed reads (cmd :: commands) ∧ Stays reads ∧ GoesOn loads reads (cmd :: commands)) :
    (session loads).out true (r :: reads) = returned (cmd :: commands) ↔
      Framed (r :: reads) (cmd :: commands) ∧ Stays (r :: reads) ∧
        GoesOn loads (r :: reads) (cmd :: commands) := by
  have hbusy := busy_cons_idle reads (withoutLf_break hr)
  have hframed : Framed (r :: reads) (cmd :: commands) ↔ Framed reads (cmd :: commands) := by
    unfold Framed
    rw [hbusy]
  have hgoes : GoesOn loads (r :: reads) (cmd :: commands) ↔ GoesOn loads reads (cmd :: commands) := by
    unfold GoesOn
    rw [hbusy]
  rw [out_cons, hframed, hgoes, Stays, hbusy]
  by_cases hm : r.1.moved = false
  · obtain ⟨hex, hposts⟩ := idle_step loads hm hr
    rw [hex, hposts, List.nil_append, ih]
    simp [hm]
  · obtain ⟨hex, hposts⟩ := moved_step loads (by simpa using hm) r.2
    rw [hex, hposts, out_false]
    refine iff_of_false nofun ?_
    rintro ⟨hf, ⟨hstays, -⟩, -⟩
    exact hm (hstays (busy_ne_nil hf))

/-- A read of the next line leaves the rest to the rest. -/
theorem out_aligned_iff {r : Found × Bytes} (hr : ∀ p ∈ r.1.core.plugins, p.Healthy) {cmd : Command}
    (hcmd : IsAdminCommand cmd) {before after : Bytes} (hbefore : IsBreak before)
    (hafter : IsBreak after) (hdata : r.2 = before ++ line cmd ++ after)
    {reads : List (Found × Bytes)} {commands : List Command}
    (ih : (session loads).out true reads = returned commands ↔
      Framed reads commands ∧ Stays reads ∧ GoesOn loads reads commands)
    (hnil : commands = [] → ∀ posted, (session loads).out posted reads = [] ∧ busy reads = []) :
    (session loads).out true (r :: reads) = returned (cmd :: commands) ↔
      Framed (r :: reads) (cmd :: commands) ∧ Stays (r :: reads) ∧
        GoesOn loads (r :: reads) (cmd :: commands) := by
  have hlf : withoutLf r.2 = line cmd := by
    rw [hdata]
    exact withoutLf_aligned hcmd hbefore hafter
  obtain ⟨x, xs, hx, -⟩ := hcmd.line_eq_cons
  have hbusy := busy_cons reads (r := r) (by rw [hlf, hx]; simp)
  have hframed : Framed (r :: reads) (cmd :: commands) ↔ Framed reads commands := by
    unfold Framed
    rw [hbusy, List.map_cons, List.map_cons, hlf, List.cons.injEq]
    exact ⟨fun h => h.2, fun h => ⟨rfl, h⟩⟩
  have hstays : Stays (r :: reads) ↔ r.1.moved = false ∧ Stays reads := by
    rw [Stays, hbusy]
    simp
  rw [out_cons, hframed, hstays]
  by_cases hm : r.1.moved = false
  swap
  · obtain ⟨hex, hposts⟩ := moved_step loads (by simpa using hm) r.2
    rw [hex, hposts, out_false]
    exact iff_of_false nofun fun h => hm h.2.1.1
  obtain ⟨op, hop, hex, hposts⟩ := aligned_step loads hm hr hcmd hbefore hafter
  rw [← hdata] at hex hposts
  have hgoes : GoesOn loads (r :: reads) (cmd :: commands) ↔
      Completes loads r.1.core op ∧ (commands ≠ [] → op ≠ .shutdown) ∧ GoesOn loads reads commands := by
    unfold GoesOn
    rw [hbusy, List.zip_cons_cons, List.forall_mem_cons, hop]
    have hfirst : (∀ op' ∈ some op, Completes loads r.1.core op') ↔ Completes loads r.1.core op :=
      ⟨fun h => h op rfl, fun h op' hop' => Option.some.inj hop' ▸ h⟩
    dsimp only
    rw [hfirst]
    by_cases hempty : commands = []
    · simp [hempty]
    · rw [List.dropLast_cons_of_ne_nil hempty, List.forall_mem_cons, hop]
      constructor
      · rintro ⟨⟨hc, hall⟩, hs, hrest⟩
        exact ⟨hc, fun _ h => hs (congrArg some h), hall, hrest⟩
      · rintro ⟨hc, hs, hall, hrest⟩
        exact ⟨⟨hc, hall⟩, fun h => hs hempty (Option.some.inj h), hrest⟩
  rw [hex, List.singleton_append, returned_cons, List.cons.injEq, hgoes, Prod.mk.injEq,
    and_iff_right rfl, ← completes_iff hr, and_iff_right hm]
  by_cases hcomplete : Completes loads r.1.core op
  swap
  · exact iff_of_false (fun h => hcomplete h.1) fun h => hcomplete h.2.2.1
  rw [and_iff_right hcomplete, and_iff_right hcomplete]
  rw [and_iff_right hcomplete] at hposts
  cases commands with
  | nil =>
    obtain ⟨hout, hempty⟩ := hnil rfl (receive loads r.1 r.2).2
    simp [hout, returned, Framed, GoesOn, hempty, stays_of_busy_eq_nil hempty]
  | cons cmd' commands =>
    by_cases hs : op = .shutdown
    · have hfalse : (receive loads r.1 r.2).2 = false := by
        rw [← Bool.not_eq_true, hposts]
        exact not_not.mpr hs
      rw [hfalse, out_false]
      exact iff_of_false nofun fun h => h.2.2.1 (by simp) hs
    · rw [hposts.mpr hs, ih]
      simp [hs]

theorem out_newlines {reads : List (Found × Bytes)} (h : IsBreak (received reads)) (posted : Bool) :
    (session loads).out posted reads = [] ∧ busy reads = [] := by
  induction reads generalizing posted with
  | nil => exact ⟨rfl, rfl⟩
  | cons r reads ih =>
    rw [received_cons] at h
    have hsplit : IsBreak r.2 ∧ IsBreak (received reads) := by
      rcases h with h | h
      · obtain ⟨h1, h2⟩ := List.append_eq_nil_iff.mp h
        exact ⟨.inl h1, .inl h2⟩
      · rcases List.append_eq_singleton_iff.mp h with ⟨h1, h2⟩ | ⟨h1, h2⟩
        · exact ⟨.inl h1, .inr h2⟩
        · exact ⟨.inr h1, .inl h2⟩
    have hbusy := busy_cons_idle reads (withoutLf_break hsplit.1)
    have hrest := fun posted => ih hsplit.2 posted
    rw [hbusy]
    cases posted with
    | false => exact ⟨out_false loads _, (hrest true).2⟩
    | true =>
      rw [out_cons]
      by_cases hm : r.1.moved = false
      · obtain ⟨hex, hposts⟩ := idle_step loads hm hsplit.1
        rw [hex, hposts]
        exact hrest true
      · obtain ⟨hex, hposts⟩ := moved_step loads (by simpa using hm) r.2
        rw [hex, hposts]
        exact hrest false

/-- The reads from a point on, where a newline may be left over. -/
theorem out_eq_iff {commands : List Command} (hcmd : ∀ cmd ∈ commands, IsAdminCommand cmd)
    {reads : List (Found × Bytes)} (hreads : ∀ r ∈ reads, ∀ p ∈ r.1.core.plugins, p.Healthy)
    {before : Bytes} (hbefore : IsBreak before) (hcut : received reads = before ++ stream commands) :
    (session loads).out true reads = returned commands ↔
      Framed reads commands ∧ Stays reads ∧ GoesOn loads reads commands := by
  induction reads generalizing commands before with
  | nil =>
    cases commands with
    | nil => simp [Framed, busy, GoesOn, Stays, returned]
    | cons cmd commands =>
      rw [stream_cons] at hcut
      have hlen := congrArg List.length hcut
      simp [received] at hlen
  | cons r reads ih =>
    obtain ⟨hr, hrest⟩ := List.forall_mem_cons.mp hreads
    cases commands with
    | nil =>
      have hbreak : IsBreak (received (r :: reads)) := by
        rw [hcut]
        simpa [stream] using hbefore
      obtain ⟨hout, hbusy⟩ := out_newlines loads hbreak true
      simp [hout, returned, Framed, GoesOn, hbusy, stays_of_busy_eq_nil hbusy]
    | cons cmd commands =>
      obtain ⟨hfirst, hall⟩ := List.forall_mem_cons.mp hcmd
      obtain ⟨x, xs, hx, hs, hl⟩ := hfirst.line_eq_cons
      by_cases hidle : content r.2 = []
      · have hcut' : r.2 ++ received reads =
            before ++ x :: (xs ++ Chr.lf :: stream commands) := by
          rw [← received_cons, hcut, stream_cons, hx, List.cons_append]
        obtain ⟨hbreak, rest, hrest', hq⟩ := idle_read hbefore hs hl hcut' hidle
        refine out_idle_iff loads hbreak reads cmd commands (ih hcmd hrest hrest' (hq.trans ?_))
        rw [stream_cons, hx, List.cons_append]
      by_cases haligned : content r.2 = content (line cmd)
      · have hcut' : r.2 ++ received reads = before ++ (line cmd ++ Chr.lf :: stream commands) := by
          rw [← received_cons, hcut, stream_cons]
        obtain ⟨after, rest, hafter, hrest', hdata, hq⟩ :=
          aligned_read hbefore hfirst (head?_stream hall) hcut' haligned
        refine out_aligned_iff loads hr hfirst hbefore hafter hdata (ih hall hrest hrest' hq) ?_
        rintro rfl
        apply out_newlines loads
        rw [hq]
        simpa [stream] using hrest'
      · refine iff_of_false (fun hout => ?_) fun hframed => ?_
        · rcases content_of_out_eq loads hbefore hcmd hcut hout with h | h
          · exact hidle h
          · exact haligned h
        · rcases content_of_framed hframed.1 with h | h
          · exact hidle h
          · exact haligned h

end

def restart : Command := ⟨text "restartPlugin".toList, [text ['p']]⟩

def shutdown : Command := ⟨text "shutdown".toList, []⟩

private theorem isAdminCommand_restart_shutdown :
    ∀ cmd ∈ [restart, shutdown], IsAdminCommand cmd := by
  have hrestart : IsAdminCommand restart := ⟨by decide, by decide⟩
  have hshutdown : IsAdminCommand shutdown := ⟨by decide, by decide⟩
  simp [hrestart, hshutdown]

private theorem attainable_nil : System.Attainable [] := ⟨none, [], rfl, rfl⟩

end AdminPort
end IrcBot

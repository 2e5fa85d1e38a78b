import IrcBot.Admin.AdminPort
import IrcBot.Command.Reference
import IrcBot.Core.Reload

/-! When a call of the admin port comes back: restarting or reloading waits for a plugin with an
open connection or a worker that has only been created, and reloading one that does not load
dereferences the end of the list. -/
namespace IrcBot

namespace AdminPort
open IrcBot.Core

/-- What restarting needs of a plugin whose id is given `n` times: the first one with the id can
be stopped, and is not stopped again while its new worker has only been created. -/
def Restartable (c : Core) (n : Nat) (id : Bytes) : Prop :=
  ∀ r, c.findPlugin id = some r → r.blocks = false ∧ (r.isSo = true → n ≤ 1)

/-- Restarting one plugin uses up one of the times that its id is given. -/
theorem restartable_next {c : Core} (h : ∀ r ∈ c.plugins, r.Healthy) {y : Bytes}
    (hy : ∀ r, c.findPlugin y = some r → r.blocks = false) {ys : List Bytes} {x : Bytes}
    (hx : x ∈ ys) :
    Restartable (c.restartPlugin y).1 (ys.count x) x ↔ Restartable c ((y :: ys).count x) x := by
  obtain ⟨-, -, hothers, hself⟩ := restartPlugin_returns h hy
  unfold Restartable
  by_cases hxy : x = y
  · subst hxy
    rw [List.count_cons_self]
    have hcount := List.count_pos_iff.mpr hx
    cases hr : c.findPlugin x with
    | none =>
      have hnone : (c.restartPlugin x).1.findPlugin x = none := by rw [restartPlugin, onFirst_none hr, ← hr]
      simp [hnone]
    | some r =>
      obtain ⟨q, hq, hso, hblocks⟩ := hself r hr
      have hfree := hy r hr
      simp only [hq, Option.some.injEq, forall_eq', hso, hblocks, hfree, true_and]
      cases r.isSo with
      | true => simp [hcount.ne']
      | false => simp
  · rw [hothers x hxy, List.count_cons_of_ne fun hyx => hxy hyx.symm]

/-- Restarting several plugins comes back if each of them does when its turn comes. -/
theorem forEachId_restartPlugin_iff {c : Core} (h : ∀ r ∈ c.plugins, r.Healthy)
    (ids : List Bytes) :
    (forEachId Core.restartPlugin c ids).2 = .returns ↔
      ∀ id ∈ ids, Restartable c (ids.count id) id := by
  induction ids generalizing c with
  | nil => simp [forEachId]
  | cons y ys ih =>
    rw [forEachId, andThen_returns_iff, restartPlugin_returns_iff h]
    by_cases hy : ∀ r, c.findPlugin y = some r → r.blocks = false
    · obtain ⟨-, hhealthy, -⟩ := restartPlugin_returns h hy
      rw [and_iff_right hy, ih hhealthy]
      refine ⟨fun hys x hx => ?_, fun hys x hx => ?_⟩
      · by_cases hmem : x ∈ ys
        · exact (restartable_next h hy hmem).mp (hys x hmem)
        · obtain rfl : x = y := (List.mem_cons.mp hx).resolve_right hmem
          have hcount : (x :: ys).count x = 1 := by simp [List.count_eq_zero.mpr hmem]
          exact fun r hr => ⟨hy r hr, fun _ => hcount.le⟩
      · exact (restartable_next h hy hx).mpr (hys x (List.mem_cons_of_mem y hx))
    · exact iff_of_false (fun hret => hy hret.1) fun hys => hy fun r hr => (hys y (by simp) r hr).1

/-- What reloading needs of the plugins with one id that is given `n` times: the plugin loads, and
the first `n` of them can be stopped; there are as many, since the first new one could not be. -/
def Replaceable (loads : Bytes → Bool) (c : Core) (n : Nat) (id : Bytes) : Prop :=
  c.named id ≠ [] →
    loads id = true ∧ n ≤ (c.named id).length ∧ ∀ r ∈ (c.named id).take n, r.blocks = false

/-- Plugins go from the head of their list to its end, where a stop comes too early. -/
theorem take_rotate_iff {l : List Registered} {r : Registered} {n : Nat} (hl : l ≠ [])
    (hhead : ∀ q, l.head? = some q → q.blocks = false) (hr : r.blocks = true) :
    (n ≤ (l.tail ++ [r]).length ∧ ∀ q ∈ (l.tail ++ [r]).take n, q.blocks = false) ↔
      n + 1 ≤ l.length ∧ ∀ q ∈ l.take (n + 1), q.blocks = false := by
  obtain ⟨a, t, rfl⟩ := List.exists_cons_of_ne_nil hl
  have ha := hhead a rfl
  rw [List.tail_cons, List.take_succ_cons, List.forall_mem_cons, List.length_append,
    List.length_singleton, List.length_cons, Nat.add_le_add_iff_right]
  constructor
  · rintro ⟨hn, hall⟩
    have hle : n ≤ t.length := by
      by_contra hlt
      have hmem : r ∈ (t ++ [r]).take n := by
        rw [List.take_of_length_le (by simp; omega)]
        simp
      rw [hall r hmem] at hr
      cases hr
    rw [List.take_append_of_le_length hle] at hall
    exact ⟨hle, ha, hall⟩
  · rintro ⟨hle, -, hall⟩
    rw [List.take_append_of_le_length hle]
    exact ⟨Nat.le_succ_of_le hle, hall⟩

/-- Reloading one plugin uses up one of the times that its id is given. -/
theorem replaceable_next {loads : Bytes → Bool} {c : Core} (h : ∀ r ∈ c.plugins, r.Healthy)
    {y : Bytes} (hb : ∀ r, c.findPlugin y = some r → r.blocks = false)
    (hl : c.findPlugin y ≠ none → loads y = true) (ys : List Bytes) (x : Bytes) :
    Replaceable loads (c.reloadPlugin (loads y) y).1 (ys.count x) x ↔
      Replaceable loads c ((y :: ys).count x) x := by
  obtain ⟨-, -, hnamed⟩ := reloadPlugin_returns h hb hl
  unfold Replaceable
  rw [hnamed]
  by_cases hx : x = y
  · subst hx
    rw [List.count_cons_self]
    by_cases hne : c.findPlugin x = none
    · have hnil := (named_eq_nil_iff c x).mpr hne
      simp [hne, hnil]
    · have hnil : c.named x ≠ [] := mt (named_eq_nil_iff c x).mp hne
      rw [if_pos ⟨rfl, hne⟩]
      have hlast : (c.named x).tail ++ [spawned x] ≠ [] := by simp
      have hhead : ∀ q, (c.named x).head? = some q → q.blocks = false := by
        rw [head?_named]
        exact hb
      have hnew : (spawned x).blocks = true := rfl
      simp only [ne_eq, hlast, not_false_eq_true, true_imp_iff, hnil, take_rotate_iff hnil hhead hnew]
  · rw [if_neg fun h => hx h.1, List.count_cons_of_ne fun hy => hx hy.symm]

/-- Reloading several plugins comes back if each of them does when its turn comes. -/
theorem forEachId_reloadPlugin_iff {loads : Bytes → Bool} {c : Core}
    (h : ∀ r ∈ c.plugins, r.Healthy) (ids : List Bytes) :
    (forEachId (fun c id => c.reloadPlugin (loads id) id) c ids).2 = .returns ↔
      ∀ id ∈ ids, Replaceable loads c (ids.count id) id := by
  induction ids generalizing c with
  | nil => simp [forEachId]
  | cons y ys ih =>
    rw [forEachId, andThen_returns_iff, reloadPlugin_returns_iff h]
    by_cases hy : (∀ r, c.findPlugin y = some r → r.blocks = false) ∧
        (c.findPlugin y ≠ none → loads y = true)
    · obtain ⟨-, hhealthy, -⟩ := reloadPlugin_returns h hy.1 hy.2
      simp only [ih hhealthy, replaceable_next h hy.1 hy.2]
      refine ⟨fun hys x hx => ?_, fun hys => ⟨hy, fun x hx => hys x (by simp [hx])⟩⟩
      by_cases hmem : x ∈ ys
      · exact hys.2 x hmem
      · obtain rfl : x = y := (List.mem_cons.mp hx).resolve_right hmem
        have hcount : (x :: ys).count x = 1 := by simp [List.count_eq_zero.mpr hmem]
        rw [hcount]
        intro hne
        obtain ⟨r, rs, hrs⟩ := List.exists_cons_of_ne_nil hne
        have hfree := hy.1 r (findPlugin_of_named hrs)
        refine ⟨hy.2 (mt (named_eq_nil_iff c x).mpr hne), ?_⟩
        rw [hrs]
        simp [hfree]
    · refine iff_of_false (fun hret => hy hret.1) fun hys => hy ?_
      have hfirst := hys y (by simp)
      have hpos : 0 < (y :: ys).count y := List.count_pos_iff.mpr (by simp)
      constructor
      · intro r hr
        rw [← head?_named] at hr
        obtain ⟨t, ht⟩ := List.head?_eq_some_iff.mp hr
        apply (hfirst (by simp [ht])).2.2 r
        obtain ⟨n, hn⟩ := Nat.exists_eq_add_of_lt hpos
        rw [ht, hn]
        simp
      · exact fun hne => (hfirst (mt (named_eq_nil_iff c y).mp hne)).1

/-- The calls for an operation come back. -/
def Completes (loads : Bytes → Bool) (c : Core) : Operation → Prop
  | .restartPlugin ids => ∀ id ∈ ids, Restartable c (ids.count id) id
  | .reloadPlugin ids => ∀ id ∈ ids, Replaceable loads c (ids.count id) id
  | .shutdown => c.Stoppable

theorem completes_iff {loads : Bytes → Bool} {c : Core} (h : ∀ r ∈ c.plugins, r.Healthy)
    (op : Operation) : Completes loads c op ↔ (op.execute loads c).2 = .returns := by
  cases op with
  | restartPlugin ids => exact (forEachId_restartPlugin_iff h ids).symm
  | reloadPlugin ids => exact (forEachId_reloadPlugin_iff h ids).symm
  | shutdown => exact (stop_returns_iff h).symm

/-- Data that is no command of the admin port. -/
def Malformed (data : Bytes) : Prop := request data = none

/-- Data that a session gets over: it has a reading, and what this asks for comes back and leaves
the session. -/
def Harmless (loads : Bytes → Bool) (c : Core) (data : Bytes) : Prop :=
  ¬ CommandParser.Rejected config data ∧
    ∀ op ∈ operation (CommandParser.reading config data), Completes loads c op ∧ op ≠ .shutdown

theorem processCommand_rejected (loads : Bytes → Bool) (c : Core) {data : Bytes}
    (h : CommandParser.Rejected config data) :
    processCommand loads c data = (c, .terminates) ∧ request data = none := by
  obtain ⟨x, -, expected, he⟩ := CommandParser.parse_of_rejected h
  simp [processCommand, request, he]

theorem request_of_not_rejected {data : Bytes} (h : ¬ CommandParser.Rejected config data) :
    request data = (operation (CommandParser.reading config data)).map
      fun op => (CommandParser.reading config data, op) := by
  rw [request, CommandParser.parse_of_not_rejected h]

theorem processCommand_of_not_rejected (loads : Bytes → Bool) (c : Core) {data : Bytes}
    (h : ¬ CommandParser.Rejected config data) :
    processCommand loads c data =
      ((operation (CommandParser.reading config data)).map (Operation.execute loads c)).getD
        (c, .returns) := by
  rw [processCommand, CommandParser.parse_of_not_rejected h]
  dsimp only
  cases operation (CommandParser.reading config data) <;> rfl

theorem endsSession_iff {data : Bytes} (h : ¬ CommandParser.Rejected config data) :
    endsSession data = true ↔
      operation (CommandParser.reading config data) = some .shutdown := by
  unfold endsSession
  rw [request_of_not_rejected h]
  cases operation (CommandParser.reading config data) <;> simp

/-- A session posts its next read exactly after harmless data, where it has not moved. -/
theorem receive_posts_iff {loads : Bytes → Bool} {f : Found} (h : ∀ r ∈ f.core.plugins, r.Healthy)
    (data : Bytes) :
    (receive loads f data).2 = true ↔ f.moved = false ∧ Harmless loads f.core data := by
  cases hm : f.moved with
  | true => simp [receive, hm]
  | false =>
    unfold receive Harmless
    simp only [hm, Bool.false_eq_true, if_false, Bool.and_eq_true, decide_eq_true_eq,
      Bool.not_eq_true', true_and]
    by_cases hr : CommandParser.Rejected config data
    · simp [processCommand_rejected loads f.core hr, hr]
    · rw [processCommand_of_not_rejected loads f.core hr, ← Bool.not_eq_true, endsSession_iff hr]
      cases ho : operation (CommandParser.reading config data) with
      | none => simp [hr]
      | some op => simp [hr, completes_iff h]

end AdminPort
end IrcBot

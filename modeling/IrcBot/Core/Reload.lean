import IrcBot.Core.IoThread

/-! Restarting and reloading one plugin: when the call comes back, and what it leaves of the
plugins. -/
namespace IrcBot

namespace Registered

/-- A plugin without a thread starts. A stop of it that comes too soon does not return, unless it
has a connection that is closed. -/
theorem spawn_returns {r : Registered} (ht : r.base.thread = none) :
    r.spawn.2 = .returns ∧ r.spawn.1.getId = r.getId ∧ r.spawn.1.isSo = r.isSo ∧
      r.spawn.1.isOpen = r.isOpen ∧ r.spawn.1.isStarting = true := by
  cases r with
  | so p =>
    have ht : p.thread = none := ht
    simp [spawn, Plugin.spawn, ht, getId, base, isSo, isOpen, isStarting]
  | tcp p =>
    have ht : p.thread = none := ht
    simp [spawn, TcpPlugin.spawn, Plugin.spawn, ht, getId, base, isSo, isOpen, isStarting]

theorem blocks_of_isStarting {r : Registered} (h : r.isStarting = true) :
    r.blocks = (r.isSo || r.isOpen) := by
  cases r with
  | so p => exact h
  | tcp p => rfl

theorem Healthy.restart_returns {r : Registered} (h : r.Healthy) (hb : r.blocks = false) :
    r.restart.2 = .returns ∧ r.restart.1.getId = r.getId ∧ r.restart.1.isSo = r.isSo ∧
      r.restart.1.blocks = r.isSo := by
  obtain ⟨-, hthread, hopen, -, hid, hso⟩ := h.stop_free hb
  have hrestart : r.restart = r.stop.1.spawn := by simp [restart, h.stopInList_free hb]
  obtain ⟨hret, hid', hso', hopen', hstarting⟩ := spawn_returns hthread
  rw [hrestart]
  refine ⟨hret, hid'.trans hid, hso'.trans hso, ?_⟩
  rw [blocks_of_isStarting hstarting, hso', hso, hopen', hopen, Bool.or_false]

end Registered

namespace Core

/-- The plugins with this id, in the order of the list. -/
def named (c : Core) (id : Bytes) : List Registered := c.plugins.filter fun r => r.getId = id

theorem head?_named (c : Core) (id : Bytes) : (c.named id).head? = c.findPlugin id :=
  List.head?_filter

theorem named_eq_nil_iff (c : Core) (id : Bytes) : c.named id = [] ↔ c.findPlugin id = none := by
  rw [← List.head?_eq_none_iff, head?_named]

theorem findPlugin_of_named {c : Core} {id : Bytes} {r : Registered} {rs : List Registered}
    (h : c.named id = r :: rs) : c.findPlugin id = some r := by
  rw [← head?_named, h, List.head?_cons]

/-- A call on the first plugin with an id that keeps its id. -/
theorem filter_onFirst {id : Bytes} {f : Registered → Registered × Control} {rs : List Registered}
    {r : Registered} (hr : rs.find? (fun r => r.getId = id) = some r)
    (hid : (f r).1.getId = r.getId) (x : Bytes) :
    ((onFirst id f rs).1.filter fun r => r.getId = x) =
      if x = id then (f r).1 :: (rs.filter fun r => r.getId = x).tail
      else rs.filter fun r => r.getId = x := by
  induction rs with
  | nil => cases hr
  | cons r' rs ih =>
    by_cases h : r'.getId = id
    · obtain rfl : r' = r := by simpa [List.find?_cons, h] using hr
      have hf : (f r').1.getId = id := hid.trans h
      rw [onFirst, if_pos h]
      by_cases hx : x = id
      · simp [hx, hf, h]
      · have hne : ¬ id = x := fun he => hx he.symm
        simp [hx, hf, h, hne]
    · have ih := ih (by simpa [List.find?_cons, h] using hr)
      rw [onFirst, if_neg h]
      by_cases hx : x = id
      · subst hx
        simpa [h] using ih
      · rw [if_neg hx] at ih ⊢
        by_cases hr' : r'.getId = x <;> simpa [hr'] using ih

/-- The plugin that has been stopped is the one that is removed. -/
theorem eraseP_onFirst {id : Bytes} {f : Registered → Registered × Control}
    {rs : List Registered} {r : Registered} (hr : rs.find? (fun r => r.getId = id) = some r)
    (hid : (f r).1.getId = r.getId) :
    (onFirst id f rs).1.eraseP (fun r => r.getId = id) = rs.eraseP fun r => r.getId = id := by
  induction rs with
  | nil => rfl
  | cons r' rs ih =>
    by_cases h : r'.getId = id
    · obtain rfl : r' = r := by simpa [List.find?_cons, h] using hr
      have hf : (f r').1.getId = id := hid.trans h
      rw [onFirst, if_pos h]
      simp [hf, h]
    · have ih := ih (by simpa [List.find?_cons, h] using hr)
      rw [onFirst, if_neg h]
      simpa [List.eraseP_cons, h] using ih

theorem filter_eraseP_self {α : Type*} (p : α → Bool) (l : List α) :
    (l.eraseP p).filter p = (l.filter p).tail := by
  induction l with
  | nil => rfl
  | cons a l ih =>
    by_cases h : p a = true
    · rw [List.eraseP_cons_of_pos h, List.filter_cons_of_pos h, List.tail_cons]
    · rw [List.eraseP_cons_of_neg h, List.filter_cons_of_neg h, List.filter_cons_of_neg h, ih]

theorem filter_eraseP_of_disjoint {α : Type*} {p q : α → Bool} (hpq : ∀ a, p a = true → q a = false)
    (l : List α) : (l.eraseP p).filter q = l.filter q := by
  induction l with
  | nil => rfl
  | cons a l ih =>
    by_cases h : p a = true
    · rw [List.eraseP_cons_of_pos h, List.filter_cons_of_neg (by simp [hpq a h])]
    · rw [List.eraseP_cons_of_neg h, List.filter_cons, List.filter_cons, ih]

/-- What a plugin is after it has been loaded and spawned. -/
def spawned (id : Bytes) : Registered := .so { id := id, thread := some .starting }

theorem named_addPlugin (d : Core) (id x : Bytes) :
    (d.addPlugin (spawned id)).named x = d.named x ++ if x = id then [spawned id] else [] := by
  have hid : (spawned id).getId = id := rfl
  unfold named addPlugin
  by_cases hx : x = id
  · simp [hx, hid]
  · have hne : ¬ id = x := fun h => hx h.symm
    simp [hx, hid, hne]

theorem named_removePlugin (d : Core) (id x : Bytes) :
    (d.removePlugin id).named x = if x = id then (d.named x).tail else d.named x := by
  unfold named removePlugin
  by_cases hx : x = id
  · subst hx
    rw [if_pos rfl, filter_eraseP_self]
  · have hdisjoint : ∀ r : Registered, decide (r.getId = id) = true → decide (r.getId = x) = false := by
      intro r hr
      have hr : r.getId = id := of_decide_eq_true hr
      exact decide_eq_false fun hrx => hx (hrx.symm.trans hr)
    rw [if_neg hx, filter_eraseP_of_disjoint hdisjoint]

theorem andThen_returns_iff (r : Core × Control) (f : Core → Core × Control) :
    (andThen r f).2 = .returns ↔ r.2 = .returns ∧ (f r.1).2 = .returns := by
  obtain ⟨c, k⟩ := r
  cases k <;> simp [andThen]

section
variable {c : Core} (h : ∀ r ∈ c.plugins, r.Healthy)
include h

/-- Restarting a plugin that is found comes back if nothing keeps its `stop`. -/
theorem restartPlugin_returns {id : Bytes} (hb : ∀ r, c.findPlugin id = some r → r.blocks = false) :
    (c.restartPlugin id).2 = .returns ∧ (∀ r ∈ (c.restartPlugin id).1.plugins, r.Healthy) ∧
      (∀ x ≠ id, (c.restartPlugin id).1.findPlugin x = c.findPlugin x) ∧
      ∀ r, c.findPlugin id = some r →
        ∃ q, (c.restartPlugin id).1.findPlugin id = some q ∧ q.isSo = r.isSo ∧ q.blocks = r.isSo := by
  cases hr : c.findPlugin id with
  | none =>
    rw [restartPlugin, onFirst_none hr]
    exact ⟨rfl, h, fun _ _ => rfl, fun r hr => by cases hr⟩
  | some r =>
    have hfree := hb r hr
    have hreturns := (h r (List.mem_of_find?_eq_some hr)).restart_returns hfree
    have hret : (c.restartPlugin id).2 = .returns := (onFirst_some hr).1.trans hreturns.1
    have hnamed : ∀ x, (c.restartPlugin id).1.named x = _ := filter_onFirst hr hreturns.2.1
    have hawaits : ∀ q, c.findPlugin id = some q → q.awaits = false := by
      intro q hq
      unfold Registered.awaits
      rw [hb q hq, Bool.false_and]
    refine ⟨hret, (restartPlugin_kept h hawaits).2 hret, fun x hx => ?_, fun q hq => ?_⟩
    · rw [← head?_named, hnamed, if_neg hx]
      exact head?_named c x
    · obtain rfl : r = q := Option.some.inj hq
      refine ⟨r.restart.1, ?_, hreturns.2.2⟩
      rw [← head?_named, hnamed, if_pos rfl, List.head?_cons]

theorem restartPlugin_returns_iff (id : Bytes) :
    (c.restartPlugin id).2 = .returns ↔ ∀ r, c.findPlugin id = some r → r.blocks = false := by
  refine ⟨fun hret r hr => ?_, fun hb => (restartPlugin_returns h hb).1⟩
  by_contra hb
  have hb : r.blocks = true := by simpa using hb
  have hrestart := (h r (List.mem_of_find?_eq_some hr)).restart_blocked hb
  rw [restartPlugin] at hret
  have hkept : (onFirst id Registered.restart c.plugins).2 = _ := (onFirst_some hr).1.trans hrestart
  rw [hkept] at hret
  split_ifs at hret

/-- Reloading a plugin that can be stopped puts a new one at the end of the list. -/
theorem reloadPlugin_eq {id : Bytes} {r : Registered} (hr : c.findPlugin id = some r)
    (hb : r.blocks = false) :
    c.reloadPlugin true id = ((c.removePlugin id).addPlugin (spawned id), .returns) := by
  have hhealthy := h r (List.mem_of_find?_eq_some hr)
  obtain ⟨-, -, -, -, hid, -⟩ := hhealthy.stop_free hb
  have hstop := hhealthy.stopInList_free hb
  have hcontrol := (onFirst_some (f := Registered.stopInList) hr).1
  have herase := eraseP_onFirst (f := Registered.stopInList) hr (by rw [hstop]; exact hid)
  obtain ⟨⟨rs, k⟩, hrs⟩ : ∃ x, onFirst id Registered.stopInList c.plugins = x := ⟨_, rfl⟩
  rw [hrs, hstop] at hcontrol
  obtain rfl : k = .returns := hcontrol
  rw [hrs] at herase
  simp [reloadPlugin, hr, hrs, andThen, Registered.spawn, Plugin.spawn, removePlugin, herase, spawned]

/-- Reloading a plugin that is found comes back if nothing keeps its `stop` and it loads. Its
place in the list is then at the end. -/
theorem reloadPlugin_returns {loaded : Bool} {id : Bytes}
    (hb : ∀ r, c.findPlugin id = some r → r.blocks = false)
    (hl : c.findPlugin id ≠ none → loaded = true) :
    (c.reloadPlugin loaded id).2 = .returns ∧
      (∀ r ∈ (c.reloadPlugin loaded id).1.plugins, r.Healthy) ∧
      ∀ x, (c.reloadPlugin loaded id).1.named x =
        if x = id ∧ c.findPlugin id ≠ none then (c.named x).tail ++ [spawned id] else c.named x := by
  cases hr : c.findPlugin id with
  | none =>
    rw [reloadPlugin, if_pos hr]
    exact ⟨rfl, h, fun x => (if_neg fun hx => hx.2 rfl).symm⟩
  | some r =>
    have hfree := hb r hr
    obtain rfl := hl (by simp [hr])
    have hreload := reloadPlugin_eq h hr hfree
    have hawaits : ∀ q, c.findPlugin id = some q → q.awaits = false := by
      intro q hq
      unfold Registered.awaits
      rw [hb q hq, Bool.false_and]
    have hret : (c.reloadPlugin true id).2 = .returns := by rw [hreload]
    refine ⟨hret, (reloadPlugin_kept h hawaits).2 hret, fun x => ?_⟩
    rw [hreload, named_addPlugin, named_removePlugin]
    by_cases hx : x = id
    · rw [if_pos hx, if_pos hx, if_pos ⟨hx, Option.some_ne_none r⟩]
    · rw [if_neg hx, if_neg hx, if_neg fun hx' => hx hx'.1, List.append_nil]

theorem reloadPlugin_returns_iff (loaded : Bool) (id : Bytes) :
    (c.reloadPlugin loaded id).2 = .returns ↔
      (∀ r, c.findPlugin id = some r → r.blocks = false) ∧
        (c.findPlugin id ≠ none → loaded = true) := by
  refine ⟨fun hret => ?_, fun hc => (reloadPlugin_returns h hc.1 hc.2).1⟩
  constructor
  · intro r hr
    by_contra hb
    rw [reloadPlugin_blocked h _ hr (by simpa using hb)] at hret
    split_ifs at hret
  · intro hne
    by_contra hl
    obtain ⟨r, hr⟩ := Option.ne_none_iff_exists'.mp hne
    have hl : loaded = false := by simpa using hl
    subst hl
    obtain ⟨⟨rs, k⟩, hrs⟩ : ∃ x, onFirst id Registered.stopInList c.plugins = x := ⟨_, rfl⟩
    cases k <;> simp [reloadPlugin, hr, hrs, andThen] at hret

end

end Core
end IrcBot

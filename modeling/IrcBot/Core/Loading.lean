import IrcBot.Core.Reload

/-! Loading a plugin from a shared library, with every way in which it can fail, and
reloading with it. -/
namespace IrcBot

/-- What loading depends on besides the code: the configuration, the files and what they
export. -/
structure Loader where
  /-- The `path` in the configuration of a plugin; reading a missing one throws. -/
  path : Bytes → Option Bytes
  /-- `dlopen` succeeds. -/
  opens : Bytes → Bool
  /-- `dlsym` finds `getPlugin`. -/
  exports : Bytes → Bool

/-- Results of `loadPlugin`: an exception, the end of the list, or a plugin for the list. -/
inductive Loaded
  | throws
  | nowhere
  | plugin (p : Plugin)
  deriving DecidableEq, Repr

def slash : Byte := 0x2f

def dot : Byte := 0x2e

/-- Last part of a path. -/
def fileName (path : Bytes) : Bytes := (path.reverse.takeWhile (· ≠ slash)).reverse

/-- `boost::filesystem::path::extension`: what follows the last dot, with the dot. -/
def extension (path : Bytes) : Bytes :=
  let name := fileName path
  if name = [dot] ∨ name = [dot, dot] ∨ dot ∉ name then []
  else dot :: (name.reverse.takeWhile (· ≠ dot)).reverse

namespace Loader

/-- A library exports a function that makes a plugin with the id it is given. -/
def loadSoPlugin (l : Loader) (fname id : Bytes) : Option Plugin :=
  if ¬ l.opens fname then none
  else if ¬ l.exports fname then none
  else some { id := id }

def loadPlugin (l : Loader) (id : Bytes) : Loaded :=
  match l.path id with
  | none => .throws
  | some path =>
    if path = [] then .nowhere
    else if extension path = [] then .nowhere
    else if extension path = text ".so".toList then
      match l.loadSoPlugin path id with
      | none => .nowhere
      | some p => .plugin p
    else .nowhere

/-- The result of `loadPlugin` is dereferenced whatever it is; `dlclose` reports an error
on a handle that is not open. -/
def reloadPlugin (l : Loader) (c : Core) (id : Bytes) : Core × Control :=
  if c.findPlugin id = none then (c, .returns)
  else
    let (rs, k) := Core.onFirst id Registered.stopInList c.plugins
    Core.andThen ({ c with plugins := rs }, k) fun c =>
      let c := c.removePlugin id
      match l.loadPlugin id with
      | .throws | .nowhere => (c, .terminates)
      | .plugin p =>
        let (r, k) := (Registered.so p).spawn
        (c.addPlugin r, k)

/-- Everything that loading needs is there. -/
def Loads (l : Loader) (id : Bytes) : Prop :=
  ∃ path, l.path id = some path ∧ extension path = text ".so".toList ∧ l.opens path = true ∧
    l.exports path = true

/-- Loading succeeds in one way only, with a plugin of this id. -/
theorem loadPlugin_cases (l : Loader) (id : Bytes) :
    (l.Loads id ∧ l.loadPlugin id = .plugin { id := id }) ∨
      (¬ l.Loads id ∧ (l.loadPlugin id = .throws ∨ l.loadPlugin id = .nowhere)) := by
  unfold Loads loadPlugin
  cases hpath : l.path id with
  | none => exact .inr ⟨by simp, .inl rfl⟩
  | some path =>
    dsimp only
    by_cases hso : extension path = text ".so".toList
    · have hext : extension path ≠ [] := by rw [hso]; decide
      have hne : path ≠ [] := by
        rintro rfl
        exact hext rfl
      rw [if_neg hne, if_neg hext, if_pos hso]
      unfold loadSoPlugin
      cases ho : l.opens path with
      | false => exact .inr ⟨by simp [ho], .inr (by simp)⟩
      | true =>
        cases he : l.exports path with
        | false => exact .inr ⟨by simp [he], .inr (by simp)⟩
        | true => exact .inl ⟨⟨path, rfl, hso, ho, he⟩, by simp⟩
    · refine .inr ⟨?_, .inr ?_⟩
      · rintro ⟨path', hpath', hso', -⟩
        exact hso (Option.some.inj hpath' ▸ hso')
      rw [if_neg hso]
      split
      · rfl
      · split <;> rfl

def loads (l : Loader) (id : Bytes) : Bool := l.loadPlugin id = .plugin { id := id }

theorem loads_iff (l : Loader) (id : Bytes) : l.loads id = true ↔ l.Loads id := by
  unfold loads
  rcases l.loadPlugin_cases id with ⟨hl, hp⟩ | ⟨hl, hp | hp⟩ <;> simp [hl, hp]

/-- All that matters of a failed load is that it has failed. -/
theorem reloadPlugin_eq (l : Loader) (c : Core) (id : Bytes) :
    l.reloadPlugin c id = c.reloadPlugin (l.loads id) id := by
  unfold reloadPlugin Core.reloadPlugin loads
  rcases l.loadPlugin_cases id with ⟨-, hp⟩ | ⟨-, hp | hp⟩ <;> simp [hp]

/-- What a reload should leave: it comes back; a plugin that is there is replaced by one that
has been spawned, or gone if loading fails; the others are as before. -/
structure Reloaded (l : Loader) (c : Core) (id : Bytes) : Prop where
  returns : (l.reloadPlugin c id).2 = .returns
  absent : c.findPlugin id = none → (l.reloadPlugin c id).1 = c
  others : ((l.reloadPlugin c id).1.plugins.filter fun r => r.getId ≠ id) =
    c.plugins.filter fun r => r.getId ≠ id
  loaded : c.findPlugin id ≠ none → l.Loads id →
    ∃ r, ((l.reloadPlugin c id).1.plugins.filter fun r => r.getId = id) = [r] ∧
      r.base.thread.isSome = true
  failed : c.findPlugin id ≠ none → ¬ l.Loads id →
    ∀ r ∈ (l.reloadPlugin c id).1.plugins, r ∈ c.plugins

/-- A reload that does what it should has found nothing, or one plugin to stop and load. -/
theorem Reloaded.named {l : Loader} {c : Core} (hhealthy : ∀ r ∈ c.plugins, r.Healthy) {id : Bytes}
    (h : Reloaded l c id) :
    c.findPlugin id = none ∨ (∃ r, c.named id = [r] ∧ r.blocks = false) ∧ l.Loads id := by
  have hret := h.returns
  rw [reloadPlugin_eq, Core.reloadPlugin_returns_iff hhealthy] at hret
  obtain ⟨hfree, hl⟩ := hret
  by_cases hnone : c.findPlugin id = none
  · exact .inl hnone
  right
  have hloads := (l.loads_iff id).mp (hl hnone)
  obtain ⟨q, hq, -⟩ := h.loaded hnone hloads
  obtain ⟨-, -, hnamed⟩ := Core.reloadPlugin_returns hhealthy hfree hl
  have hone : (l.reloadPlugin c id).1.named id = [q] := hq
  rw [reloadPlugin_eq, hnamed, if_pos ⟨rfl, hnone⟩] at hone
  obtain ⟨r, t, hrt⟩ := List.exists_cons_of_ne_nil (mt (Core.named_eq_nil_iff c id).mp hnone)
  have hlen := congrArg List.length hone
  rw [hrt, List.tail_cons, List.length_append] at hlen
  have ht : t = [] := List.eq_nil_of_length_eq_zero (by simpa using hlen)
  subst ht
  exact ⟨⟨r, hrt, hfree r (Core.findPlugin_of_named hrt)⟩, hloads⟩

theorem reloaded_of_absent (l : Loader) {c : Core} {id : Bytes} (hnone : c.findPlugin id = none) :
    Reloaded l c id := by
  have hreload : l.reloadPlugin c id = (c, .returns) := by
    unfold reloadPlugin
    rw [if_pos hnone]
  exact ⟨by rw [hreload], fun _ => by rw [hreload], by rw [hreload],
    fun h => absurd hnone h, fun h => absurd hnone h⟩

theorem reloaded_of_named {l : Loader} {c : Core} (hhealthy : ∀ r ∈ c.plugins, r.Healthy)
    {id : Bytes} {r : Registered} (hnamed : c.named id = [r]) (hb : r.blocks = false)
    (hloads : l.Loads id) : Reloaded l c id := by
  have hr := Core.findPlugin_of_named hnamed
  have hne : c.findPlugin id ≠ none := by simp [hr]
  have hreload : l.reloadPlugin c id = ((c.removePlugin id).addPlugin (Core.spawned id), .returns) := by
    rw [reloadPlugin_eq, (l.loads_iff id).mpr hloads, Core.reloadPlugin_eq hhealthy hr hb]
  refine ⟨by rw [hreload], fun h => absurd h hne, ?_, fun _ _ => ?_, fun _ h => absurd hloads h⟩
  · have hdisjoint : ∀ q : Registered, decide (q.getId = id) = true →
        decide (q.getId ≠ id) = false := by
      intro q hq
      exact decide_eq_false (not_not_intro (of_decide_eq_true hq))
    have hnew : (Core.spawned id).getId = id := rfl
    rw [hreload]
    simp only [Core.addPlugin, Core.removePlugin, List.filter_append]
    rw [Core.filter_eraseP_of_disjoint hdisjoint]
    simp [hnew]
  · refine ⟨Core.spawned id, ?_, rfl⟩
    have hall : ((l.reloadPlugin c id).1.plugins.filter fun r => r.getId = id) =
        (l.reloadPlugin c id).1.named id := rfl
    rw [hall, hreload, Core.named_addPlugin, Core.named_removePlugin, if_pos rfl, if_pos rfl, hnamed]
    rfl

/-- A library that cannot be opened. -/
def missing : Loader := ⟨fun _ => some (text "p.so".toList), fun _ => false, fun _ => true⟩

/-- A plugin in its loop, as the only one of a bot. -/
theorem attainable_looping :
    System.Attainable [.so { id := text ['p'], thread := some .looping }] :=
  ⟨none, [.run [text ['p']], .worker 0], rfl, rfl⟩

end Loader

end IrcBot

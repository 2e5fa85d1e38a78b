import IrcBot.Core.Reload
import Mathlib.Logic.Function.Basic

/-! The libraries that the plugins come from: the list of plugins, the map of their open
handles and the reference counts behind them. Plugins that are removed or deinitialized
leave their handles open. -/
namespace IrcBot

/-- A library is its file; a handle is null or stands for a library that `dlopen` has given. -/
abbrev Library := Bytes

abbrev Handle := Option Library

/-- A plugin in the list, with the library it has been created from. TCP plugins have none. -/
structure Entry where
  id : Bytes
  library : Option Library
  deriving DecidableEq, Repr

/-- Everything that knows about libraries. -/
structure Registry where
  plugins : List Entry := []
  /-- `m_dl_plugins` -/
  dlPlugins : Bytes → Option Handle := fun _ => none
  /-- References that `dlopen` has given and `dlclose` has not taken back. -/
  refs : Library → Nat := fun _ => 0

namespace Registry

def dlopen (r : Registry) (lib : Library) : Registry :=
  { r with refs := Function.update r.refs lib (r.refs lib + 1) }

/-- Closing a null handle is an error without consequences. -/
def dlclose (r : Registry) (h : Handle) : Registry :=
  match h with
  | none => r
  | some lib => { r with refs := Function.update r.refs lib (r.refs lib - 1) }

def findPlugin (r : Registry) (id : Bytes) : Option Entry := r.plugins.find? fun e => e.id = id

def addPlugin (r : Registry) (e : Entry) : Registry := { r with plugins := r.plugins ++ [e] }

def removePlugin (r : Registry) (id : Bytes) : Registry :=
  { r with plugins := r.plugins.eraseP fun e => e.id = id }

def loadSoPlugin (r : Registry) (id : Bytes) (lib : Library) : Registry × Entry :=
  let r := r.dlopen lib
  ({ r with dlPlugins := Function.update r.dlPlugins id (some (some lib)) }, ⟨id, some lib⟩)

def loadPlugin (r : Registry) (id : Bytes) (lib : Library) : Registry :=
  let (r, e) := r.loadSoPlugin id lib
  r.addPlugin e

/-- `m_dl_plugins[pluginId]` makes a null handle for an id without one. -/
def lookup (r : Registry) (id : Bytes) : Registry × Handle :=
  match r.dlPlugins id with
  | some h => (r, h)
  | none => ({ r with dlPlugins := Function.update r.dlPlugins id (some none) }, none)

/-- The part of `reloadPlugin` that gives the old plugin up. -/
def unload (r : Registry) (id : Bytes) : Registry :=
  let (r, h) := r.lookup id
  (r.removePlugin id).dlclose h

/-- `lib` is the library that the configuration gives for the plugin; it loads. -/
def reloadPlugin (r : Registry) (id : Bytes) (lib : Library) : Registry :=
  if r.findPlugin id = none then r else (r.unload id).loadPlugin id lib

def deinitializePlugins (r : Registry) : Registry := { r with plugins := [] }

/-- `initializePlugins`, with the libraries of the configured plugins; all of them load. -/
def initializePlugins (r : Registry) (configured : List (Bytes × Library)) : Registry :=
  configured.foldl (fun r c => r.loadPlugin c.1 c.2) r

/-- Everything that changes the list of plugins. -/
inductive Event
  | loadPlugin (id : Bytes) (lib : Library)
  /-- A TCP plugin connects. -/
  | connect (id : Bytes)
  | removePlugin (id : Bytes)
  | reloadPlugin (id : Bytes) (lib : Library)
  | deinitializePlugins
  | run (configured : List (Bytes × Library))
  | stop
  deriving DecidableEq, Repr

def step (r : Registry) : Event → Registry
  | .loadPlugin id lib => r.loadPlugin id lib
  | .connect id => r.addPlugin ⟨id, none⟩
  | .removePlugin id => r.removePlugin id
  | .reloadPlugin id lib => r.reloadPlugin id lib
  | .deinitializePlugins | .stop => r.deinitializePlugins
  | .run configured => r.initializePlugins configured

def machine : Machine.Mealy Registry Event Empty := ⟨fun r e => (r.step e, [])⟩

/-- Number of live plugins from a library. -/
def live (r : Registry) (lib : Library) : Nat := r.plugins.countP fun e => e.library = some lib

/-- References are plugins, handles are ids of plugins, and giving up the last plugin of a
library gives up its last reference. -/
structure Balanced (r : Registry) : Prop where
  refs : ∀ lib, r.refs lib = r.live lib
  handles : ∀ id h, r.dlPlugins id = some h ↔ ∃ lib, h = some lib ∧ ⟨id, some lib⟩ ∈ r.plugins
  closes : ∀ id lib, r.findPlugin id = some ⟨id, some lib⟩ →
    (∀ e ∈ (r.removePlugin id).plugins, e.library ≠ some lib) → (r.unload id).refs lib = 0

/-- No other library has plugins with one of the ids. -/
def Agrees (plugins : List Entry) (configured : List (Bytes × Library)) : Prop :=
  ∀ c ∈ configured, ∀ lib, (⟨c.1, some lib⟩ ∈ plugins ∨ (c.1, lib) ∈ configured) → lib = c.2

/-- The condition on a step. -/
def Accounted (r : Registry) : Event → Prop
  | .loadPlugin id lib => Agrees r.plugins [(id, lib)]
  | .connect _ => True
  | .removePlugin id => ∀ e, r.findPlugin id = some e → e.library = none
  | .reloadPlugin id lib => ∀ e, r.findPlugin id = some e →
      if e.library = none then ∀ lib', ⟨id, some lib'⟩ ∉ r.plugins
      else Agrees (r.removePlugin id).plugins [(id, lib)]
  | .deinitializePlugins | .stop => ∀ e ∈ r.plugins, e.library = none
  | .run configured => Agrees r.plugins configured

theorem agrees_singleton (plugins : List Entry) (id : Bytes) (lib : Library) :
    Agrees plugins [(id, lib)] ↔ ∀ lib', ⟨id, some lib'⟩ ∈ plugins → lib' = lib := by
  unfold Agrees
  constructor
  · intro h lib' hmem
    exact h (id, lib) (by simp) lib' (.inl hmem)
  · intro h c hc lib' hlib
    obtain rfl : c = (id, lib) := by simpa using hc
    rcases hlib with hmem | hmem
    · exact h lib' hmem
    · simpa using hmem

section
variable {r : Registry} {id : Bytes}

theorem mem_of_findPlugin {e : Entry} (h : r.findPlugin id = some e) : e ∈ r.plugins ∧ e.id = id :=
  ⟨List.mem_of_find?_eq_some h, by simpa using List.find?_some h⟩

theorem removePlugin_of_none (h : r.findPlugin id = none) : r.removePlugin id = r := by
  unfold removePlugin
  rw [List.eraseP_of_forall_not fun e he => List.find?_eq_none.mp h e he]

/-- The list with the first plugin of an id cut out. -/
theorem exists_removePlugin {e : Entry} (h : r.findPlugin id = some e) :
    ∃ front back, r.plugins = front ++ e :: back ∧ (r.removePlugin id).plugins = front ++ back := by
  obtain ⟨hid, front, back, hsplit, hfront⟩ := List.find?_eq_some_iff_append.mp h
  refine ⟨front, back, hsplit, ?_⟩
  unfold removePlugin
  rw [hsplit, List.eraseP_append_right _ fun b hb => by simpa using hfront b hb]
  exact congrArg (front ++ ·) (List.eraseP_cons_of_pos hid)

theorem live_removePlugin {e : Entry} (h : r.findPlugin id = some e) (lib : Library) :
    r.live lib = (r.removePlugin id).live lib + if e.library = some lib then 1 else 0 := by
  obtain ⟨front, back, hsplit, hremove⟩ := exists_removePlugin h
  unfold live
  rw [hremove, hsplit, List.countP_append, List.countP_append, List.countP_cons]
  by_cases he : e.library = some lib <;> simp [he, Nat.add_assoc]

theorem mem_removePlugin {e e' : Entry} (h : r.findPlugin id = some e) (hne : e' ≠ e) :
    e' ∈ (r.removePlugin id).plugins ↔ e' ∈ r.plugins := by
  obtain ⟨front, back, hsplit, hremove⟩ := exists_removePlugin h
  rw [hremove, hsplit]
  simp [hne]

theorem live_eq_zero_iff (lib : Library) :
    r.live lib = 0 ↔ ∀ e ∈ r.plugins, e.library ≠ some lib := by
  unfold live
  simp [List.countP_eq_zero]

theorem live_pos {lib : Library} (h : ⟨id, some lib⟩ ∈ r.plugins) : 0 < r.live lib := by
  unfold live
  rw [List.countP_pos_iff]
  exact ⟨_, h, by simp⟩

theorem unload_of_handle {h : Handle} (hdl : r.dlPlugins id = some h) :
    r.unload id = (r.removePlugin id).dlclose h := by
  unfold unload lookup
  rw [hdl]

end

/-- The last field of the invariant follows from the others. -/
theorem balanced_of {r : Registry} (hrefs : ∀ lib, r.refs lib = r.live lib)
    (hhandles : ∀ id h, r.dlPlugins id = some h ↔
      ∃ lib, h = some lib ∧ ⟨id, some lib⟩ ∈ r.plugins) : Balanced r := by
  refine ⟨hrefs, hhandles, fun id lib hfind hlast => ?_⟩
  have hdl : r.dlPlugins id = some (some lib) :=
    (hhandles id _).mpr ⟨lib, rfl, (mem_of_findPlugin hfind).1⟩
  have hlive := live_removePlugin hfind lib
  rw [if_pos rfl, (live_eq_zero_iff lib).mpr hlast] at hlive
  rw [unload_of_handle hdl]
  change Function.update r.refs lib (r.refs lib - 1) lib = 0
  rw [Function.update_self, hrefs, hlive]

/-- Loading keeps the references right, and the handles if no other library has a plugin with
the id. The old handle of the id does not matter. -/
theorem balanced_loadPlugin_iff {r : Registry} {id : Bytes} (lib : Library)
    (hrefs : ∀ lib, r.refs lib = r.live lib)
    (hhandles : ∀ x h, x ≠ id → (r.dlPlugins x = some h ↔
      ∃ lib, h = some lib ∧ ⟨x, some lib⟩ ∈ r.plugins)) :
    Balanced (r.loadPlugin id lib) ↔ ∀ lib', ⟨id, some lib'⟩ ∈ r.plugins → lib' = lib := by
  have hmem : ∀ e, e ∈ (r.loadPlugin id lib).plugins ↔ e ∈ r.plugins ∨ e = ⟨id, some lib⟩ := by
    intro e
    change e ∈ r.plugins ++ [_] ↔ _
    simp
  have hdl : (r.loadPlugin id lib).dlPlugins id = some (some lib) := Function.update_self ..
  constructor
  · intro h lib' hlib'
    have hid := (h.handles id (some lib')).mpr ⟨lib', rfl, (hmem _).mpr (.inl hlib')⟩
    rw [hdl] at hid
    exact (Option.some.inj (Option.some.inj hid)).symm
  · intro hsame
    refine balanced_of (fun x => ?_) fun x h => ?_
    · change Function.update r.refs lib (r.refs lib + 1) x =
        List.countP (fun e : Entry => e.library = some x) (r.plugins ++ [⟨id, some lib⟩])
      rw [List.countP_append, List.countP_singleton]
      by_cases hx : x = lib
      · subst hx
        simp [hrefs, live]
      · simp [Function.update_of_ne hx, hrefs, live, Ne.symm hx]
    · by_cases hx : x = id
      · subst hx
        rw [hdl]
        constructor
        · intro hh
          exact ⟨lib, (Option.some.inj hh).symm, (hmem _).mpr (.inr rfl)⟩
        · rintro ⟨lib', rfl, hlib'⟩
          rcases (hmem _).mp hlib' with hold | hnew
          · rw [hsame lib' hold]
          · rw [(Entry.mk.inj hnew).2]
      · have hother : (r.loadPlugin id lib).dlPlugins x = r.dlPlugins x := Function.update_of_ne hx ..
        rw [hother, hhandles x h hx]
        have hne : ∀ lib', (⟨x, some lib'⟩ : Entry) ≠ ⟨id, some lib⟩ :=
          fun lib' he => hx (Entry.mk.inj he).1
        simp [hmem, hne]

theorem plugins_initializePlugins (r : Registry) (configured : List (Bytes × Library)) :
    (r.initializePlugins configured).plugins =
      r.plugins ++ configured.map fun c => ⟨c.1, some c.2⟩ := by
  unfold initializePlugins
  induction configured generalizing r with
  | nil => simp
  | cons c configured ih =>
    have hload : (r.loadPlugin c.1 c.2).plugins = r.plugins ++ [⟨c.1, some c.2⟩] := rfl
    rw [List.foldl_cons, ih, hload, List.map_cons, List.append_assoc]
    rfl

theorem agrees_cons {plugins : List Entry} {c : Bytes × Library} {configured : List (Bytes × Library)}
    (h : Agrees plugins (c :: configured)) :
    Agrees plugins [(c.1, c.2)] ∧ Agrees (plugins ++ [⟨c.1, some c.2⟩]) configured := by
  constructor
  · rw [agrees_singleton]
    intro lib' hmem
    exact h c (by simp) lib' (.inl hmem)
  · intro c' hc' lib hlib
    apply h c' (by simp [hc']) lib
    rcases hlib with hmem | hmem
    · rcases List.mem_append.mp hmem with hmem | hmem
      · exact .inl hmem
      · have he := Entry.mk.inj (List.mem_singleton.mp hmem)
        right
        rw [he.1, Option.some.inj he.2]
        exact List.mem_cons_self
    · exact .inr (List.mem_cons_of_mem _ hmem)

section
variable {r : Registry} (h : Balanced r)
include h

theorem balanced_initializePlugins_iff (configured : List (Bytes × Library)) :
    Balanced (r.initializePlugins configured) ↔ Agrees r.plugins configured := by
  constructor
  · intro hrun c hc lib hlib
    have hmem : ∀ e, e ∈ r.plugins ∨ (∃ c ∈ configured, (⟨c.1, some c.2⟩ : Entry) = e) →
        e ∈ (r.initializePlugins configured).plugins := by
      intro e he
      rw [plugins_initializePlugins]
      simpa using he
    have hone := (hrun.handles c.1 (some c.2)).mpr ⟨c.2, rfl, hmem _ (.inr ⟨c, hc, rfl⟩)⟩
    have htwo := (hrun.handles c.1 (some lib)).mpr ⟨lib, rfl, hmem _ (hlib.imp_right fun hl =>
      ⟨(c.1, lib), hl, rfl⟩)⟩
    rw [hone] at htwo
    exact (Option.some.inj (Option.some.inj htwo)).symm
  · intro hagrees
    unfold initializePlugins
    induction configured generalizing r with
    | nil => exact h
    | cons c configured ih =>
      obtain ⟨hfirst, hrest⟩ := agrees_cons hagrees
      rw [agrees_singleton] at hfirst
      exact ih ((balanced_loadPlugin_iff c.2 h.refs fun x k _ => h.handles x k).mpr hfirst) hrest

theorem balanced_removePlugin_iff (id : Bytes) :
    Balanced (r.removePlugin id) ↔ ∀ e, r.findPlugin id = some e → e.library = none := by
  cases hfind : r.findPlugin id with
  | none =>
    rw [removePlugin_of_none hfind]
    exact iff_of_true h nofun
  | some e =>
    constructor
    · intro hrem e' he'
      obtain rfl := Option.some.inj he'
      by_contra hlib
      obtain ⟨lib, hlib⟩ := Option.ne_none_iff_exists'.mp hlib
      have hlive := live_removePlugin hfind lib
      have hrefs := hrem.refs lib
      have hold := h.refs lib
      rw [if_pos hlib] at hlive
      change r.refs lib = _ at hrefs
      omega
    · intro hnone
      have hlib := hnone e rfl
      refine balanced_of (fun lib => ?_) fun x k => ?_
      · have hlive := live_removePlugin hfind lib
        rw [hlib, if_neg (by simp)] at hlive
        exact (h.refs lib).trans hlive
      · have hne : ∀ lib, (⟨x, some lib⟩ : Entry) ≠ e := by
          rintro lib rfl
          cases hlib
        simp only [mem_removePlugin hfind (hne _)]
        exact h.handles x k

theorem balanced_deinitializePlugins_iff :
    Balanced r.deinitializePlugins ↔ ∀ e ∈ r.plugins, e.library = none := by
  constructor
  · intro hd e he
    by_contra hlib
    obtain ⟨lib, hlib⟩ := Option.ne_none_iff_exists'.mp hlib
    have hzero : r.refs lib = 0 := hd.refs lib
    rw [h.refs, live_eq_zero_iff] at hzero
    exact hzero e he hlib
  · intro hall
    refine balanced_of (fun lib => ?_) fun x k => ?_
    · have hzero : r.live lib = 0 := (live_eq_zero_iff lib).mpr fun e he => by simp [hall e he]
      exact (h.refs lib).trans hzero
    · constructor
      · intro hk
        obtain ⟨lib, -, hmem⟩ := (h.handles x k).mp hk
        exact absurd (hall _ hmem) (by simp)
      · rintro ⟨lib, -, hmem⟩
        cases hmem

theorem balanced_connect (id : Bytes) : Balanced (r.addPlugin ⟨id, none⟩) := by
  refine balanced_of (fun lib => ?_) fun x k => ?_
  · change r.refs lib = (r.plugins ++ [_]).countP _
    rw [List.countP_append]
    simpa [live] using h.refs lib
  · change r.dlPlugins x = some k ↔ ∃ lib, k = some lib ∧ _ ∈ r.plugins ++ [_]
    simpa using h.handles x k

/-- Giving up a plugin from a library gives up one reference to it. -/
theorem unload_so {id : Bytes} {lib : Library} (hfind : r.findPlugin id = some ⟨id, some lib⟩) :
    (∀ x, (r.unload id).refs x = (r.unload id).live x) ∧
      (r.unload id).plugins = (r.removePlugin id).plugins ∧
      (r.unload id).dlPlugins = r.dlPlugins := by
  have hdl : r.dlPlugins id = some (some lib) :=
    (h.handles id _).mpr ⟨lib, rfl, (mem_of_findPlugin hfind).1⟩
  rw [unload_of_handle hdl]
  refine ⟨fun x => ?_, rfl, rfl⟩
  have hlive := live_removePlugin hfind x
  change Function.update r.refs lib (r.refs lib - 1) x = (r.removePlugin id).live x
  by_cases hx : x = lib
  · subst hx
    rw [if_pos rfl] at hlive
    rw [Function.update_self, h.refs, hlive, Nat.add_sub_cancel]
  · have hne : ¬ (some lib = some x) := fun hl => hx (Option.some.inj hl).symm
    rw [if_neg hne] at hlive
    rw [Function.update_of_ne hx, h.refs, hlive, Nat.add_zero]

/-- Giving up a TCP plugin whose id no other plugin shares. -/
theorem unload_tcp {id : Bytes} {e : Entry} (hfind : r.findPlugin id = some e)
    (he : e.library = none) (hnone : ∀ lib, ⟨id, some lib⟩ ∉ r.plugins) :
    (∀ x, (r.unload id).refs x = (r.unload id).live x) ∧
      (r.unload id).plugins = (r.removePlugin id).plugins ∧
      ∀ x, x ≠ id → (r.unload id).dlPlugins x = r.dlPlugins x := by
  have hdl : r.dlPlugins id = none := by
    by_contra hdl
    obtain ⟨k, hk⟩ := Option.ne_none_iff_exists'.mp hdl
    obtain ⟨lib, -, hmem⟩ := (h.handles id k).mp hk
    exact hnone lib hmem
  have hunload : r.unload id =
      { r.removePlugin id with dlPlugins := Function.update r.dlPlugins id (some none) } := by
    unfold unload lookup
    rw [hdl]
    rfl
  rw [hunload]
  refine ⟨fun x => ?_, rfl, fun x hx => Function.update_of_ne hx ..⟩
  have hlive := live_removePlugin hfind x
  rw [he, if_neg (by simp), Nat.add_zero] at hlive
  exact (h.refs x).trans hlive

/-- A plugin from a library whose handle goes with a TCP plugin of the same id loses its
reference. -/
theorem not_balanced_reload_tcp {id : Bytes} {e : Entry} {lib' : Library}
    (hfind : r.findPlugin id = some e) (he : e.library = none) (hmem : ⟨id, some lib'⟩ ∈ r.plugins)
    (lib : Library) : ¬ Balanced ((r.unload id).loadPlugin id lib) := by
  intro hb
  have hdl : r.dlPlugins id = some (some lib') := (h.handles id _).mpr ⟨lib', rfl, hmem⟩
  have hrefs := hb.refs lib'
  have hlive := live_removePlugin hfind lib'
  have hpos := live_pos hmem
  have hold := h.refs lib'
  rw [he, if_neg (by simp), Nat.add_zero] at hlive
  rw [unload_of_handle hdl] at hrefs
  change Function.update (Function.update r.refs lib' (r.refs lib' - 1)) lib
      (Function.update r.refs lib' (r.refs lib' - 1) lib + 1) lib' =
    List.countP (fun e : Entry => e.library = some lib')
      ((r.removePlugin id).plugins ++ [⟨id, some lib⟩]) at hrefs
  rw [List.countP_append, List.countP_singleton] at hrefs
  change _ = (r.removePlugin id).live lib' + _ at hrefs
  by_cases hl : lib' = lib
  · subst hl
    simp only [Function.update_self, decide_true, if_true] at hrefs
    omega
  · have hne : ¬ (some lib = some lib') := fun hs => hl (Option.some.inj hs).symm
    rw [Function.update_of_ne hl, Function.update_self] at hrefs
    simp only [hne, decide_false, Bool.false_eq_true, if_false] at hrefs
    omega

theorem balanced_reloadPlugin_iff (id : Bytes) (lib : Library) :
    Balanced (r.reloadPlugin id lib) ↔ Accounted r (.reloadPlugin id lib) := by
  cases hfind : r.findPlugin id with
  | none =>
    have hreload : r.reloadPlugin id lib = r := by
      unfold reloadPlugin
      rw [if_pos hfind]
    rw [hreload]
    refine iff_of_true h fun e he => ?_
    rw [hfind] at he
    cases he
  | some e =>
    have hreload : r.reloadPlugin id lib = (r.unload id).loadPlugin id lib := by
      unfold reloadPlugin
      rw [if_neg (by simp [hfind])]
    have hcond : Accounted r (.reloadPlugin id lib) ↔
        if e.library = none then ∀ lib', ⟨id, some lib'⟩ ∉ r.plugins
        else Agrees (r.removePlugin id).plugins [(id, lib)] := by
      simp only [Accounted, hfind, Option.some.injEq, forall_eq']
    rw [hreload, hcond]
    cases he : e.library with
    | none =>
      rw [if_pos rfl]
      constructor
      · intro hb lib' hmem
        exact not_balanced_reload_tcp h hfind he hmem lib hb
      · intro hnone
        obtain ⟨hrefs, hplugins, hdl⟩ := unload_tcp h hfind he hnone
        rw [balanced_loadPlugin_iff lib hrefs]
        · intro lib' hmem
          rw [hplugins] at hmem
          exact absurd (List.mem_of_mem_eraseP hmem) (hnone lib')
        · intro x k hx
          have hne : ∀ l, (⟨x, some l⟩ : Entry) ≠ e := by
            rintro l rfl
            cases he
          simp only [hdl x hx, hplugins, mem_removePlugin hfind (hne _)]
          exact h.handles x k
    | some l =>
      have hid := (mem_of_findPlugin hfind).2
      obtain rfl : e = ⟨id, some l⟩ := by rw [← hid, ← he]
      obtain ⟨hrefs, hplugins, hdl⟩ := unload_so h hfind
      rw [if_neg (by simp), agrees_singleton, balanced_loadPlugin_iff lib hrefs, hplugins]
      intro x k hx
      have hne : ∀ l', (⟨x, some l'⟩ : Entry) ≠ ⟨id, some l⟩ := fun l' he => hx (Entry.mk.inj he).1
      simp only [hdl, hplugins, mem_removePlugin hfind (hne _)]
      exact h.handles x k

/-- A step keeps the balance exactly if it meets its condition. -/
theorem balanced_step_iff (e : Event) : Balanced (r.step e) ↔ Accounted r e := by
  cases e with
  | loadPlugin id lib =>
    change Balanced (r.loadPlugin id lib) ↔ Agrees r.plugins [(id, lib)]
    rw [agrees_singleton]
    exact balanced_loadPlugin_iff lib h.refs fun x k _ => h.handles x k
  | connect id => exact iff_of_true (balanced_connect h id) trivial
  | removePlugin id => exact balanced_removePlugin_iff h id
  | reloadPlugin id lib => exact balanced_reloadPlugin_iff h id lib
  | deinitializePlugins | stop => exact balanced_deinitializePlugins_iff h
  | run configured => exact balanced_initializePlugins_iff h configured

end

theorem balanced_empty : Balanced {} :=
  balanced_of (fun _ => rfl) fun x k => by simp

/-- The libraries are in balance all along a run exactly if all its steps meet their
condition. -/
theorem balanced_always_iff (events : List Event) :
    (∀ v, v <+: events → Balanced (machine.run {} v)) ↔ machine.Along Accounted {} events :=
  machine.always_iff (I := Balanced) (P := Accounted) (fun _ e h => balanced_step_iff h e)
    balanced_empty events

/-- Stopping a run with one plugin leaves its library open. -/
theorem not_balanced_stop :
    ¬ ∀ (events v : List Event), v <+: events → Balanced (machine.run {} v) := by
  intro h
  have hstop := h [.run [(text ['p'], text "p.so".toList)], .stop] _ List.prefix_rfl
  have hrefs := hstop.refs (text "p.so".toList)
  exact absurd hrefs (by decide)

/-- What the list of the bot and the registry have in common: the ids, and which plugins
come from a library. -/
def Represents (r : Registry) (c : Core) : Prop :=
  r.plugins.map (fun e => (e.id, e.library.isSome)) = c.plugins.map fun p => (p.getId, p.isSo)

namespace Represents
variable {r : Registry} {c : Core} (h : r.Represents c)
include h

theorem addPlugin {e : Entry} {p : Registered} (hid : e.id = p.getId)
    (hso : e.library.isSome = p.isSo) : (r.addPlugin e).Represents (c.addPlugin p) := by
  change (r.plugins ++ [e]).map _ = (c.plugins ++ [p]).map _
  rw [List.map_append, List.map_append, h, List.map_singleton, List.map_singleton, hid, hso]

theorem removePlugin (id : Bytes) : (r.removePlugin id).Represents (c.removePlugin id) := by
  unfold Represents at h ⊢
  have hleft := List.eraseP_map (f := fun e : Entry => (e.id, e.library.isSome))
    (p := fun k => k.1 = id) (l := r.plugins)
  have hright := List.eraseP_map (f := fun p : Registered => (p.getId, p.isSo))
    (p := fun k => k.1 = id) (l := c.plugins)
  rw [h] at hleft
  exact hleft.symm.trans hright

theorem findPlugin_isNone (id : Bytes) : (r.findPlugin id).isNone = (c.findPlugin id).isNone := by
  unfold Represents at h
  have hleft := List.find?_map (f := fun e : Entry => (e.id, e.library.isSome))
    (p := fun k => k.1 = id) (l := r.plugins)
  have hright := List.find?_map (f := fun p : Registered => (p.getId, p.isSo))
    (p := fun k => k.1 = id) (l := c.plugins)
  rw [h, hright] at hleft
  have hnone := congrArg Option.isNone hleft
  rw [Option.isNone_map, Option.isNone_map] at hnone
  exact hnone.symm

theorem loadPlugin (id : Bytes) (lib : Library) :
    (r.loadPlugin id lib).Represents (c.addPlugin (.so { id := id, thread := some .starting })) :=
  addPlugin (r := (r.loadSoPlugin id lib).1) h rfl rfl

/-- The registry follows the bot through a reload that comes back. -/
theorem reloadPlugin (hc : ∀ p ∈ c.plugins, p.Healthy) (id : Bytes) (lib : Library)
    (hfree : ∀ p, c.findPlugin id = some p → p.blocks = false) :
    (r.reloadPlugin id lib).Represents (c.reloadPlugin true id).1 := by
  have hnone := h.findPlugin_isNone id
  cases hp : c.findPlugin id with
  | none =>
    rw [hp, Option.isNone_iff_eq_none.mpr rfl, Option.isNone_iff_eq_none] at hnone
    rw [Registry.reloadPlugin, if_pos hnone, Core.reloadPlugin, if_pos hp]
    exact h
  | some p =>
    have hsome : ¬ r.findPlugin id = none := by
      intro hr
      rw [hp, hr] at hnone
      cases hnone
    have hunload : (r.unload id).Represents (c.removePlugin id) := by
      have hplugins : (r.unload id).plugins = (r.removePlugin id).plugins := by
        unfold unload lookup
        cases hd : r.dlPlugins id with
        | none => rfl
        | some k => cases k <;> rfl
      unfold Represents
      rw [hplugins]
      exact h.removePlugin id
    rw [Registry.reloadPlugin, if_neg hsome, Core.reloadPlugin_eq hc hp (hfree p hp)]
    exact hunload.loadPlugin id lib

end Represents

end Registry
end IrcBot

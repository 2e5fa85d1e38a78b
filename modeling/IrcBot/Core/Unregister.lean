import IrcBot.Core.Stop
import IrcBot.Machine.Iterators

/-! The list of plugins under operations that hold iterators into it while a plugin takes
itself out. A TCP plugin does so at the end of its shutdown sequence. -/
namespace IrcBot
open Machine

/-- With its promise fulfilled a stop comes back, and the whole sequence takes the plugin out
of the list. -/
theorem TcpPlugin.settle_stop_of_ready {p : TcpPlugin} (hr : p.ready = true)
    (ht : p.thread ≠ some .starting) :
    (settle p.stop).2 = .returns ∧ (settle p.stop).1.id = p.id ∧
      (settle p.stop).1.registered = (p.registered && !(p.running && p.socketOpen)) := by
  have hready : p.halted.ready = true := hr
  cases hrun : p.running with
  | false =>
    rw [settle_stop_stopped hrun]
    simp
  | true =>
    rw [settle_stop hrun ht]
    cases ho : p.socketOpen with
    | false =>
      rw [onShutdown_closed (p := p.halted) ho]
      simp [halted, cancelTimer]
    | true =>
      rw [onShutdown_ready (p := p.halted) ho hready]
      simp [halted, cancelTimer]

namespace Registered

/-- The plugin with what its `stop` waits for: the worker is in its loop, and the promise is
fulfilled. -/
def fulfilled : Registered → Registered
  | .so p => .so { p with thread := p.thread.map fun _ => .looping }
  | .tcp p => .tcp { p with thread := p.thread.map fun _ => .looping, ready := true }

/-- A stop comes back, and takes the plugin out of the list exactly after the sequence. -/
theorem stop_fulfilled (r : Registered) :
    r.fulfilled.stop.2 = .returns ∧ r.fulfilled.stop.1.getId = r.getId ∧
      r.fulfilled.stop.1.isRemoved = (r.unregisters || r.isRemoved) := by
  have hlooping : ∀ t : Option Worker, t.map (fun _ => Worker.looping) ≠ some .starting := by
    intro t
    cases t with
    | none => nofun
    | some w => nofun
  cases r with
  | so p =>
    change (Plugin.stop _).2 = _ ∧ (Plugin.stop _).1.id = p.id ∧ _
    unfold Plugin.stop
    rw [if_neg (hlooping p.thread)]
    split_ifs <;> exact ⟨rfl, rfl, rfl⟩
  | tcp p =>
    obtain ⟨hret, hid, hreg⟩ := TcpPlugin.settle_stop_of_ready
      (p := { p with thread := p.thread.map fun _ => .looping, ready := true }) rfl (hlooping p.thread)
    refine ⟨hret, hid, ?_⟩
    have hremoved : (Registered.tcp p).fulfilled.stop.1.isRemoved =
        decide (¬ (TcpPlugin.settle { p with
          thread := p.thread.map fun _ => .looping, ready := true }.stop).1.registered = true) := rfl
    rw [hremoved, hreg]
    change _ = (p.running && p.socketOpen || decide (¬ p.registered = true))
    cases p.registered <;> simp

end Registered

namespace Core

/-- `(*it)->stop()` for the iterator at position `i`. The plugin that is erased is the first
one with its id. -/
def stopAt (v : Vec Registered) (i : Nat) : Vec Registered :=
  match v.deref i with
  | none => v
  | some r =>
    let v := v.set i r.fulfilled.stop.1
    if r.unregisters then v.erase (v.elems.findIdx fun q => q.getId = r.getId) else v

/-- Operations that hold iterators while they stop plugins. -/
inductive Call
  | stopPlugins
  | restartPlugin (id : Bytes)
  | reloadPlugin (id : Bytes) (loaded : Bool)
  deriving DecidableEq, Repr

/-- Position of `findPlugin`, or the end of the list. -/
def findIndex (plugins : List Registered) (id : Bytes) : Nat :=
  plugins.findIdx fun r => r.getId = id

/-- Everything that a call dereferences, in order. Reloading dereferences its iterator for
`stop`, in `removePlugin`, and at last the result of loading, which is the end of the list
if loading fails. -/
def derefs (plugins : List Registered) : Call → List (Option Registered)
  | .stopPlugins => Vec.rangeFor stopAt plugins
  | .restartPlugin id =>
    let i := findIndex plugins id
    let v := Vec.ofList plugins
    if i = plugins.length then [] else [v.deref i, (stopAt v i).deref i]
  | .reloadPlugin id loaded =>
    let i := findIndex plugins id
    let v := Vec.ofList plugins
    if i = plugins.length then []
    else [v.deref i, (stopAt v i).deref i, if loaded then some (.so { id := id }) else none]

/-- The call stops every plugin once, or touches only the plugin with the id. -/
def Safe (plugins : List Registered) : Call → Prop
  | .stopPlugins => derefs plugins .stopPlugins = plugins.map some
  | .restartPlugin id => ∀ d ∈ derefs plugins (.restartPlugin id), ∃ r, d = some r ∧ r.getId = id
  | .reloadPlugin id loaded =>
    ∀ d ∈ derefs plugins (.reloadPlugin id loaded), ∃ r, d = some r ∧ r.getId = id

/-- The plugins that would have to stay in the list do so. -/
def Stays (plugins : List Registered) : Call → Prop
  | .stopPlugins => ∀ r ∈ plugins.dropLast, r.unregisters = false
  | .restartPlugin id => ∀ r, plugins.find? (fun r => r.getId = id) = some r → r.unregisters = false
  | .reloadPlugin id loaded => ∀ r, plugins.find? (fun r => r.getId = id) = some r →
      r.unregisters = false ∧ loaded = true

theorem stopAt_of_unregisters_false {v : Vec Registered} {i : Nat} {r : Registered}
    (h : v.deref i = some r) (hr : r.unregisters = false) :
    stopAt v i = v.set i r.fulfilled.stop.1 := by
  unfold stopAt
  rw [h]
  simp [hr]

/-- A plugin that unregisters itself leaves no valid iterator at its position or after it. -/
theorem valid_stopAt_le {v : Vec Registered} {i : Nat} {r : Registered}
    (h : v.deref i = some r) (hr : r.unregisters = true) : (stopAt v i).valid ≤ i := by
  have hself := Vec.deref_set_self h r.fulfilled.stop.1
  have hid := r.stop_fulfilled.2.1
  have hfind : ((v.set i r.fulfilled.stop.1).elems.findIdx fun q => q.getId = r.getId) ≤ i := by
    by_contra hlt
    have hget : (v.set i r.fulfilled.stop.1).elems[i]? = some r.fulfilled.stop.1 := by
      unfold Vec.deref at hself
      split at hself
      · exact hself
      · cases hself
    obtain ⟨hi, hget⟩ := List.getElem?_eq_some_iff.mp hget
    have hnot := List.not_of_lt_findIdx (Nat.lt_of_not_le hlt)
    rw [hget] at hnot
    simp [hid] at hnot
  unfold stopAt
  rw [h]
  simp only [hr, if_true]
  exact Nat.le_trans (Vec.valid_erase_le _ _) hfind

theorem stopPlugins_safe_iff (plugins : List Registered) :
    Safe plugins .stopPlugins ↔ Stays plugins .stopPlugins := by
  refine Vec.rangeFor_eq_iff (fun v i r h hr j hj => ?_) (fun v i r h hr => valid_stopAt_le h hr)
    plugins
  rw [stopAt_of_unregisters_false h hr, Vec.deref_set_of_ne v (by omega)]

/-- Both iterators of `findPlugin`: the plugin that is found, or the end. -/
theorem findIndex_cases (plugins : List Registered) (id : Bytes) :
    (plugins.find? (fun r => r.getId = id) = none ∧ findIndex plugins id = plugins.length) ∨
      ∃ r, plugins.find? (fun r => r.getId = id) = some r ∧ r.getId = id ∧
        findIndex plugins id ≠ plugins.length ∧
        (Vec.ofList plugins).deref (findIndex plugins id) = some r := by
  unfold findIndex
  cases h : plugins.find? (fun r => r.getId = id) with
  | none =>
    left
    refine ⟨rfl, List.findIdx_eq_length.mpr fun r hr => ?_⟩
    simpa using List.find?_eq_none.mp h r hr
  | some r =>
    right
    have hid : r.getId = id := by simpa using List.find?_some h
    have hget : plugins[plugins.findIdx fun r => r.getId = id]? = some r := by
      rw [← List.find?_eq_getElem?_findIdx, h]
    obtain ⟨hlt, -⟩ := List.getElem?_eq_some_iff.mp hget
    exact ⟨r, rfl, hid, Nat.ne_of_lt hlt, (Vec.deref_ofList _ _).trans hget⟩

/-- What the second use of the iterator finds. -/
theorem deref_stopAt {plugins : List Registered} {i : Nat} {r : Registered}
    (h : (Vec.ofList plugins).deref i = some r) :
    (stopAt (Vec.ofList plugins) i).deref i =
      if r.unregisters then none else some r.fulfilled.stop.1 := by
  cases hr : r.unregisters with
  | true => exact Vec.deref_of_valid_le (valid_stopAt_le h hr)
  | false =>
    rw [stopAt_of_unregisters_false h hr]
    exact Vec.deref_set_self h _

theorem restartPlugin_safe_iff (plugins : List Registered) (id : Bytes) :
    Safe plugins (.restartPlugin id) ↔ Stays plugins (.restartPlugin id) := by
  unfold Safe Stays derefs
  rcases findIndex_cases plugins id with ⟨hnone, hi⟩ | ⟨r, hr, hid, hi, hderef⟩
  · simp [hnone, hi]
  · have hstop : r.fulfilled.stop.1.getId = id := r.stop_fulfilled.2.1.trans hid
    simp only [hi, if_false, hderef, deref_stopAt hderef, hr, Option.some.injEq, forall_eq',
      List.forall_mem_cons]
    cases hu : r.unregisters <;> simp [hid, hstop]

theorem reloadPlugin_safe_iff (plugins : List Registered) (id : Bytes) (loaded : Bool) :
    Safe plugins (.reloadPlugin id loaded) ↔ Stays plugins (.reloadPlugin id loaded) := by
  unfold Safe Stays derefs
  rcases findIndex_cases plugins id with ⟨hnone, hi⟩ | ⟨r, hr, hid, hi, hderef⟩
  · simp [hnone, hi]
  · have hstop : r.fulfilled.stop.1.getId = id := r.stop_fulfilled.2.1.trans hid
    have hnew : (Registered.so { id := id }).getId = id := rfl
    simp only [hi, if_false, hderef, deref_stopAt hderef, hr, Option.some.injEq, forall_eq',
      List.forall_mem_cons]
    cases hu : r.unregisters <;> cases loaded <;> simp [hid, hstop, hnew]

/-- A call is safe exactly if no plugin unregisters itself that has another one to be stopped
after it, or that the call goes on with. -/
theorem safe_iff (plugins : List Registered) (call : Call) :
    Safe plugins call ↔ Stays plugins call := by
  cases call with
  | stopPlugins => exact stopPlugins_safe_iff plugins
  | restartPlugin id => exact restartPlugin_safe_iff plugins id
  | reloadPlugin id loaded => exact reloadPlugin_safe_iff plugins id loaded

/-- A TCP plugin that is connected, and any plugin after it: the second one is skipped, and
the loop goes past the end. -/
theorem not_safe_stopPlugins : ¬ ∀ (plugins : List Registered) (call : Call), Safe plugins call := by
  intro h
  have hsafe := (stopPlugins_safe_iff _).mp (h [.tcp { id := text ['t'], name := [] }, .so { id := text ['p'] }]
    .stopPlugins)
  exact absurd (hsafe (.tcp { id := text ['t'], name := [] }) (by decide)) (by decide)

end Core
end IrcBot

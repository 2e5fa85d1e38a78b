import IrcBot.Core.System
import IrcBot.Plugin.Authentication
import Mathlib.Data.List.Nodup

/-! The ids of the plugins. Everything that looks for a plugin in the list, and every plugin that
takes itself out of it, goes by the id and means the first plugin that has it. -/
namespace IrcBot
open Machine Irc

namespace TcpPlugin

theorem id_onShutdown (p : TcpPlugin) : p.onShutdown.1.id = p.id := by
  unfold onShutdown
  dsimp only
  split_ifs <;> rfl

theorem id_stop (p : TcpPlugin) : p.stop.1.id = p.id := by
  rcases p.stop_cases with ⟨-, hstop⟩ | ⟨-, -, hstop⟩ | ⟨-, -, hstop⟩ <;> rw [hstop]
  exact id_onShutdown _

theorem id_spawn (p : TcpPlugin) : p.spawn.1.id = p.id := by
  unfold spawn Plugin.spawn
  dsimp only
  split_ifs <;> rfl

theorem id_received (realToken : Option Bytes) (p : TcpPlugin) (data : Bytes) :
    (p.received realToken data).1.id = p.id := by
  unfold received processInitRequest
  split
  · split
    · rfl
    · exact id_spawn _
    · exact id_stop p
  · rfl
  · rfl

end TcpPlugin

namespace Registered

theorem getId_settle {p : TcpPlugin} {r : TcpPlugin × List Action × Control} (h : r.1.id = p.id) :
    (TcpPlugin.settle r).1.id = p.id := by
  obtain ⟨q, actions, c⟩ := r
  have hid : q.id = p.id := h
  cases c with
  | joins =>
    unfold TcpPlugin.settle
    dsimp only
    split_ifs
    · exact hid
    · exact (TcpPlugin.id_onShutdown { q with running := true, thread := none }).trans hid
    · exact (TcpPlugin.id_onShutdown { q with thread := none }).trans hid
  | returns | waits | terminates => exact hid

theorem getId_stop (r : Registered) : r.stop.1.getId = r.getId := by
  cases r with
  | so p =>
    change p.stop.1.id = p.id
    unfold Plugin.stop
    split_ifs <;> rfl
  | tcp p => exact getId_settle p.id_stop

theorem getId_release (released : List Bytes) (r : Registered) :
    (r.release released).getId = r.getId := by
  cases r <;> rfl

theorem getId_stopInList (r : Registered) : r.stopInList.1.getId = r.getId := by
  have h := r.getId_stop
  unfold stopInList
  obtain ⟨⟨q, c⟩, hq⟩ : ∃ x, r.stop = x := ⟨_, rfl⟩
  rw [hq] at h ⊢
  cases c with
  | returns =>
    dsimp only
    split <;> exact h
  | joins | waits | terminates => exact h

theorem getId_spawn (r : Registered) : r.spawn.1.getId = r.getId := by
  cases r with
  | so p =>
    change p.spawn.1.id = p.id
    unfold Plugin.spawn
    dsimp only
    split <;> rfl
  | tcp p => exact p.id_spawn

theorem getId_restart (r : Registered) : r.restart.1.getId = r.getId := by
  have h := r.getId_stopInList
  unfold restart
  obtain ⟨⟨q, c⟩, hq⟩ : ∃ x, r.stopInList = x := ⟨_, rfl⟩
  rw [hq] at h ⊢
  cases c with
  | returns => exact q.getId_spawn.trans h
  | joins | waits | terminates => exact h

theorem getId_workerStep (r : Registered) : r.workerStep.getId = r.getId := by
  cases r with
  | so p => exact p.workerStep_spec.id
  | tcp p =>
    obtain ⟨⟨_, h⟩, -⟩ := p.workerStep_spec
    exact h.id

theorem getId_workerThrows (r : Registered) : r.workerThrows.getId = r.getId := by
  cases r <;> rfl

theorem getId_receive (m : IRCMessage) (r : Registered) : (r.receive m).getId = r.getId := by
  cases r <;> rfl

theorem getId_timerExpires (r : Registered) : r.timerExpires.getId = r.getId := by
  cases r with
  | so p => rfl
  | tcp p =>
    change p.timerExpires.id = p.id
    unfold TcpPlugin.timerExpires
    split <;> rfl

end Registered

namespace Core

def ids (c : Core) : List Bytes := c.plugins.map Registered.getId

variable {c : Core} {f : Registered → Registered × Control}

theorem ids_forEach (hf : ∀ r, (f r).1.getId = r.getId) (rs : List Registered) :
    (forEach f rs).1.map Registered.getId = rs.map Registered.getId := by
  induction rs with
  | nil => rfl
  | cons r rs ih =>
    have hr := hf r
    unfold forEach
    obtain ⟨⟨q, k⟩, hq⟩ : ∃ x, f r = x := ⟨_, rfl⟩
    rw [hq] at hr ⊢
    cases k with
    | returns => simp [hr, ih]
    | joins | waits | terminates => simp [hr]

theorem ids_onFirst (hf : ∀ r, (f r).1.getId = r.getId) (id : Bytes) (rs : List Registered) :
    (onFirst id f rs).1.map Registered.getId = rs.map Registered.getId := by
  induction rs with
  | nil => rfl
  | cons r rs ih =>
    unfold onFirst
    split <;> simp [hf r, ih]

theorem ids_modify {g : Registered → Registered} (hg : ∀ r, (g r).getId = r.getId) (i : ℕ)
    (rs : List Registered) : (rs.modify i g).map Registered.getId = rs.map Registered.getId := by
  apply List.ext_getElem?
  intro j
  rw [List.getElem?_map, List.getElem?_map, List.getElem?_modify]
  cases rs[j]? with
  | none => rfl
  | some r =>
    by_cases hij : i = j <;> simp [hij, hg]

theorem ids_removePlugin (c : Core) (id : Bytes) : (c.removePlugin id).ids = c.ids.erase id := by
  rw [List.erase_eq_eraseP, ids, ids, List.eraseP_map]
  have hpred : (fun r : Registered => decide (r.getId = id)) = (fun x => id == x) ∘ Registered.getId := by
    funext r
    by_cases h : r.getId = id
    · simp [h]
    · have h' : ¬ id = r.getId := fun h' => h h'.symm
      simp [h, h']
  rw [removePlugin, hpred]

/-- Under different ids every plugin is found by its own. -/
theorem findPlugin_of_nodup (h : c.ids.Nodup) {r : Registered} (hr : r ∈ c.plugins) :
    c.findPlugin r.getId = some r := by
  cases hfind : c.findPlugin r.getId with
  | none => simpa using List.find?_eq_none.mp hfind r hr
  | some q =>
    have hq : q.getId = r.getId := by simpa using List.find?_some hfind
    rw [List.inj_on_of_nodup_map h (List.mem_of_find?_eq_some hfind) hr hq]

theorem ids_andThen (r : Core × Control) (f : Core → Core × Control) :
    (andThen r f).1.ids = r.1.ids ∨ (andThen r f).1.ids = (f r.1).1.ids := by
  obtain ⟨d, k⟩ := r
  cases k with
  | returns => exact .inr rfl
  | joins | waits | terminates => exact .inl rfl

theorem ids_run (configured : List Bytes) (c : Core) :
    (run configured c).1.ids = c.ids ++ configured := by
  have hstart : (({ c with running := true, stopPromise := none }.initializePlugins
      configured).startPlugins).1.ids = c.ids ++ configured := by
    have h := ids_forEach Registered.getId_spawn
      ({ c with running := true, stopPromise := none }.initializePlugins configured).plugins
    refine Eq.trans h ?_
    rw [initializePlugins, List.map_append, List.map_map]
    exact congrArg _ (List.map_id configured)
  have hrest : ∀ d : Core, d.startTcpPluginServer.startAdminPort.ids = d.ids := by
    intro d
    unfold startAdminPort startTcpPluginServer
    split_ifs <;> rfl
  rcases ids_andThen (({ c with running := true, stopPromise := none }.initializePlugins
      configured).startPlugins) (fun c => (c.startTcpPluginServer.startAdminPort, .returns)) with h | h
  · exact h.trans hstart
  · exact h.trans ((hrest _).trans hstart)

/-- A plugin can take itself out of the list that is stopped. -/
theorem ids_stopEach (released : List Bytes) (done rs : List Registered) :
    ((stopEach released done rs).1.map Registered.getId).Sublist
      ((done ++ rs).map Registered.getId) := by
  induction rs generalizing done with
  | nil => simp [stopEach]
  | cons r rs ih =>
    have hid := ((r.release released).getId_stop).trans (r.getId_release released)
    obtain ⟨⟨q, k⟩, hq⟩ : ∃ x, (r.release released).stop = x := ⟨_, rfl⟩
    rw [hq] at hid
    have hid : q.getId = r.getId := hid
    have hsame : (done ++ q :: rs).map Registered.getId = (done ++ r :: rs).map Registered.getId := by
      simp [hid]
    rw [← hsame, stopEach, hq]
    cases k with
    | returns =>
      dsimp only
      by_cases hclosed : (r.isOpen && !q.isOpen) = true
      · rw [if_pos hclosed]
        exact (List.eraseP_sublist).map _
      · rw [if_neg hclosed]
        have hrest := ih (done ++ [q])
        rwa [List.append_assoc, List.singleton_append] at hrest
    | joins | waits | terminates => exact List.Sublist.refl _

theorem ids_stopPlugins (c : Core) : c.stopPlugins.1.ids.Sublist c.ids :=
  ids_stopEach [] [] c.plugins

theorem ids_stopTcpPluginServer (c : Core) : c.stopTcpPluginServer.1.ids = c.ids := by
  unfold stopTcpPluginServer
  split <;> rfl

theorem ids_stopAdminPort (c : Core) : c.stopAdminPort.1.ids = c.ids := by
  unfold stopAdminPort
  split
  · rfl
  · split <;> rfl

theorem ids_setStopPromise (c : Core) : c.setStopPromise.1.ids = c.ids := by
  unfold setStopPromise
  split_ifs <;> rfl

theorem ids_deinitializePlugins (c : Core) : c.deinitializePlugins.1.ids.Sublist c.ids := by
  unfold deinitializePlugins
  split_ifs
  · exact List.Sublist.refl _
  · exact List.nil_sublist _

theorem ids_andThen_sublist {ids : List Bytes} {r : Core × Control} {f : Core → Core × Control}
    (hr : r.1.ids.Sublist ids) (hf : r.1.ids.Sublist ids → (f r.1).1.ids.Sublist ids) :
    (andThen r f).1.ids.Sublist ids := by
  rcases ids_andThen r f with h | h <;> rw [h]
  · exact hr
  · exact hf hr

/-- A stop brings no id into the list. -/
theorem ids_stop (c : Core) : c.stop.1.ids.Sublist c.ids := by
  refine ids_andThen_sublist (ids_stopPlugins { c with running := false }) fun h => ?_
  refine ids_andThen_sublist (by rwa [ids_stopTcpPluginServer]) fun h => ?_
  refine ids_andThen_sublist ((ids_deinitializePlugins _).trans h) fun h => ?_
  refine ids_andThen_sublist (by rwa [ids_stopAdminPort]) fun h => ?_
  rwa [ids_setStopPromise]

theorem ids_addPlugin (c : Core) (r : Registered) : (c.addPlugin r).ids = c.ids ++ [r.getId] := by
  simp [addPlugin, ids]

theorem ids_restartPlugin (c : Core) (id : Bytes) : (c.restartPlugin id).1.ids = c.ids :=
  ids_onFirst Registered.getId_restart id c.plugins

/-- A reload takes the id out of the list before the plugin comes back under it. -/
theorem nodup_reloadPlugin (h : c.ids.Nodup) (loaded : Bool) (id : Bytes) :
    (c.reloadPlugin loaded id).1.ids.Nodup := by
  have hstopped : (({ c with plugins := (onFirst id Registered.stopInList c.plugins).1 } : Core)).ids =
      c.ids := ids_onFirst Registered.getId_stopInList id c.plugins
  have herase := h.erase id
  have hgone : id ∉ c.ids.erase id := fun hmem => h.not_mem_erase hmem
  have hstays : ∀ f : Core → Core × Control,
      (f { c with plugins := (onFirst id Registered.stopInList c.plugins).1 }).1.ids.Nodup →
        (andThen ({ c with plugins := (onFirst id Registered.stopInList c.plugins).1 },
          (onFirst id Registered.stopInList c.plugins).2) f).1.ids.Nodup := by
    intro f hf
    rcases ids_andThen ({ c with plugins := (onFirst id Registered.stopInList c.plugins).1 },
      (onFirst id Registered.stopInList c.plugins).2) f with hids | hids
    · rw [hids, hstopped]
      exact h
    · rwa [hids]
  unfold reloadPlugin
  split_ifs with hfind hloaded
  · exact h
  · apply hstays
    dsimp only
    rw [ids_addPlugin, ids_removePlugin, hstopped, Registered.getId_spawn, List.nodup_append_comm]
    exact List.nodup_cons.mpr ⟨hgone, herase⟩
  · apply hstays
    dsimp only
    rw [ids_removePlugin, hstopped]
    exact herase

end Core

namespace System
open IrcBot.Core

variable {s : System}

theorem nodup_unregister {c : Core} (h : c.ids.Nodup) (id : Bytes) : (unregister id c).1.ids.Nodup := by
  unfold unregister
  split
  · exact h
  · dsimp only
    rw [ids_removePlugin]
    exact h.erase id

theorem nodup_handler (h : s.core.ids.Nodup) (i : ℕ) (enabled : TcpPlugin → Bool)
    {f : TcpPlugin → TcpPlugin × List Action × Control} (hf : ∀ p : TcpPlugin, (f p).1.id = p.id) :
    (s.handler i enabled f).core.ids.Nodup := by
  unfold handler
  split
  · next p hp =>
    split_ifs
    · have hset : (s.core.plugins.set i (.tcp (TcpPlugin.settle (f p)).1)).map Registered.getId =
          s.core.plugins.map Registered.getId := by
        obtain ⟨hi, hget⟩ := List.getElem?_eq_some_iff.mp hp
        have hid : (Registered.tcp (TcpPlugin.settle (f p)).1).getId = s.core.plugins[i].getId := by
          rw [hget]
          exact Registered.getId_settle (hf p)
        rw [List.map_set, hid, ← List.getElem_map Registered.getId (h := by simpa using hi),
          List.set_getElem_self]
      have hnext : ({ s.core with plugins := s.core.plugins.set i (.tcp (TcpPlugin.settle (f p)).1) } :
          Core).ids.Nodup := by
        rw [ids, hset]
        exact h
      dsimp only
      split_ifs
      · exact nodup_unregister hnext _
      · exact hnext
    · exact h
  · exact h

theorem nodup_modify (h : s.core.ids.Nodup) (i : ℕ) {g : Registered → Registered}
    (hg : ∀ r, (g r).getId = r.getId) : (s.modify i g).core.ids.Nodup := by
  have hids := ids_modify hg i s.core.plugins
  change ((s.core.plugins.modify i g).map Registered.getId).Nodup
  rw [hids]
  exact h

/-- The ids that come into the list are new: those of the configuration when a run starts, and
that of a connection. -/
def Fresh (s : System) (e : Event) : Prop :=
  s.io = .returns →
    match e with
    | .run configured => canRun s.core = true → (s.core.ids ++ configured).Nodup
    | .accept id _ => canAccept s.core = true → id ∉ s.core.ids
    | _ => True

/-- Only the start of a run and a new connection can bring an id into the list twice. -/
theorem nodup_step_iff (realToken : Option Bytes) (h : s.core.ids.Nodup) (e : Event) :
    (s.step realToken e).core.ids.Nodup ↔ s.Fresh e := by
  unfold step
  by_cases hio : s.io = .returns
  swap
  · rw [if_pos hio]
    exact iff_of_true h fun h' => absurd h' hio
  rw [if_neg (not_not.mpr hio)]
  have hstop : ∀ c : Core, c.ids.Nodup → c.stop.1.ids.Nodup := fun c hc => hc.sublist (ids_stop c)
  cases e with
  | run configured =>
    simp only [Fresh, hio, forall_const]
    split_ifs with hrun
    · rw [call, ids_run]
      exact ⟨fun h' _ => h', fun h' => h' hrun⟩
    · exact iff_of_true h fun h' => absurd h' hrun
  | accept id name =>
    simp only [Fresh, hio, forall_const]
    split_ifs with haccept
    · dsimp only
      rw [ids_addPlugin, List.nodup_append_comm]
      exact ⟨fun h' _ => (List.nodup_cons.mp h').1,
        fun h' => List.nodup_cons.mpr ⟨h' haccept, h⟩⟩
    · exact iff_of_true h fun h' => absurd h' haccept
  | received i data =>
    exact iff_of_true (nodup_handler h i _ fun p => p.id_received realToken data)
      fun _ => trivial
  | receiveFailed i =>
    exact iff_of_true (nodup_handler h i _ fun p => TcpPlugin.id_stop { p with ready := true })
      fun _ => trivial
  | timerHandler i =>
    exact iff_of_true (nodup_handler h i _ fun p => TcpPlugin.id_stop { p with timer := .done })
      fun _ => trivial
  | timerExpires i =>
    exact iff_of_true (nodup_modify h i Registered.getId_timerExpires) fun _ => trivial
  | dispatch i m =>
    exact iff_of_true (nodup_modify h i (Registered.getId_receive m)) fun _ => trivial
  | worker i =>
    exact iff_of_true (nodup_modify h i Registered.getId_workerStep) fun _ => trivial
  | workerThrows i =>
    exact iff_of_true (nodup_modify h i Registered.getId_workerThrows) fun _ => trivial
  | restartPlugin id =>
    refine iff_of_true ?_ fun _ => trivial
    dsimp only
    split_ifs
    · rw [call, ids_restartPlugin]
      exact h
    · exact h
  | reloadPlugin id loaded =>
    refine iff_of_true ?_ fun _ => trivial
    dsimp only
    split_ifs
    · exact nodup_reloadPlugin h loaded id
    · exact h
  | shutdown =>
    refine iff_of_true ?_ fun _ => trivial
    dsimp only
    split_ifs
    · exact hstop s.core h
    · exact h
  | connectionError =>
    refine iff_of_true ?_ fun _ => trivial
    dsimp only
    split_ifs
    · exact hstop { s.core with result := .connectionError } h
    · exact h

/-- Every plugin in the list can be found by its id, which no other has. -/
def Identified (s : System) : Prop :=
  s.core.ids.Nodup ∧ ∀ r ∈ s.core.plugins, s.core.findPlugin r.getId = some r

theorem identified_iff : s.Identified ↔ s.core.ids.Nodup :=
  ⟨And.left, fun h => ⟨h, fun _ hr => findPlugin_of_nodup h hr⟩⟩

/-- Whatever the plugins, their peers, the commands of the admin port and errors of the connection
do, the ids stay apart as long as the configuration names no plugin that is in the list already
and no endpoint connects that has a plugin. -/
theorem identified_run_iff (realToken : Option Bytes) (w : List Event) :
    (∀ v, v <+: w → ((machine realToken).run {} v).Identified) ↔
      (machine realToken).Along Fresh {} w := by
  simp only [identified_iff]
  exact (machine realToken).always_iff (I := fun s => s.core.ids.Nodup)
    (fun s e hs => nodup_step_iff realToken hs e) (s := {}) List.nodup_nil w

end System
end IrcBot

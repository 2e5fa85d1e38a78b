import IrcBot.Core.Round
import IrcBot.Core.Identifiers

/-! The handlers of the io thread and the steps of the workers in the middle of a run: each of them
is a statement of the round that says what it makes of the list of plugins. -/
namespace IrcBot
open Machine IrcBot.Core

namespace Core

theorem any_isSo_onFirst {f : Registered → Registered × Control} (hf : ∀ r, (f r).1.isSo = r.isSo)
    (id : Bytes) (rs : List Registered) :
    (onFirst id f rs).1.any Registered.isSo = rs.any Registered.isSo := by
  induction rs with
  | nil => rfl
  | cons r rs ih =>
    unfold onFirst
    split_ifs <;> simp [hf r, ih]

theorem isSo_stopInList (r : Registered) : r.stopInList.1.isSo = r.isSo := by
  have hstop : r.stop.1.isSo = r.isSo := by cases r <;> rfl
  obtain ⟨⟨q, k⟩, hq⟩ : ∃ x, r.stop = x := ⟨_, rfl⟩
  rw [hq] at hstop
  unfold Registered.stopInList
  rw [hq]
  cases k with
  | returns =>
    dsimp only
    split_ifs <;> exact hstop
  | joins | waits | terminates => exact hstop

theorem isSo_restart (r : Registered) : r.restart.1.isSo = r.isSo := by
  have hstop := isSo_stopInList r
  obtain ⟨⟨q, k⟩, hq⟩ : ∃ x, r.stopInList = x := ⟨_, rfl⟩
  rw [hq] at hstop
  unfold Registered.restart
  rw [hq]
  cases k with
  | returns =>
    have hspawn : q.spawn.1.isSo = q.isSo := by cases q <;> rfl
    exact hspawn.trans hstop
  | joins | waits | terminates => exact hstop

/-- A list as before, or one with a plugin from a file in it. -/
theorem admits_of_any {c : Core} {present : List Registered} (hnil : c.plugins = [] → present = [])
    (hany : c.plugins.any Registered.isSo = true → present.any Registered.isSo = true) :
    c.Admits present := ⟨fun h _ => hnil h, hany⟩

theorem handlers_eq {c d : Core} (hd : d = { c with plugins := d.plugins }) (h : c.Admits d.plugins) :
    (Statement.handlers d.plugins).call c = (d, .returns) := by
  rw [Statement.call, if_pos h, ← hd]

end Core

namespace System

/-- The events of the main loop and of the triggers; all others are handlers and steps of
workers. -/
def Event.isHandler : Event → Bool
  | .run _ | .shutdown | .connectionError => false
  | _ => true

theorem admits_refl (c : Core) : c.Admits c.plugins := admits_of_any id id

theorem admits_set {c : Core} {i : Nat} {p q : TcpPlugin} (hp : c.plugins[i]? = some (.tcp p)) :
    c.Admits (c.plugins.set i (.tcp q)) := by
  obtain ⟨hi, hget⟩ := List.getElem?_eq_some_iff.mp hp
  refine admits_of_any (fun hnil => by simp [hnil] at hi) fun hany => ?_
  obtain ⟨r, hr, hso⟩ := List.any_eq_true.mp hany
  obtain ⟨j, hj, rfl⟩ := List.getElem_of_mem hr
  have hne : i ≠ j := by
    rintro rfl
    rw [hget] at hso
    cases hso
  refine List.any_eq_true.mpr ⟨c.plugins[j], ?_, hso⟩
  exact List.mem_of_getElem? (i := j) (by rw [List.getElem?_set_ne hne, List.getElem?_eq_getElem hj])

theorem admits_modify {c : Core} (i : Nat) {f : Registered → Registered}
    (hf : ∀ r, (f r).isSo = r.isSo) : c.Admits (c.plugins.modify i f) := by
  refine admits_of_any (fun hnil => by simp [hnil]) fun hany => ?_
  obtain ⟨r, hr, hso⟩ := List.any_eq_true.mp hany
  obtain ⟨j, hj, rfl⟩ := List.getElem_of_mem hr
  have hlen : j < (c.plugins.modify i f).length := by simpa using hj
  refine List.any_eq_true.mpr ⟨(c.plugins.modify i f)[j], List.getElem_mem hlen, ?_⟩
  rw [List.getElem_modify]
  split_ifs
  · rw [hf, hso]
  · exact hso

/-- Under different ids a plugin takes only itself out of the list. -/
theorem admits_unregister {c : Core} (h : c.ids.Nodup) {i : Nat} {p q : TcpPlugin}
    (hp : c.plugins[i]? = some (.tcp p)) (hid : q.id = p.id) :
    c.Admits (({ c with plugins := c.plugins.set i (.tcp q) } : Core).removePlugin q.id).plugins := by
  obtain ⟨hi, hget⟩ := List.getElem?_eq_some_iff.mp hp
  refine admits_of_any (fun hnil => by simp [hnil] at hi) fun hany => ?_
  obtain ⟨r, hr, hso⟩ := List.any_eq_true.mp hany
  obtain ⟨j, hj, rfl⟩ := List.getElem_of_mem hr
  have hne : i ≠ j := by
    rintro rfl
    rw [hget] at hso
    cases hso
  have hmem : c.plugins[j] ∈ c.plugins.set i (.tcp q) :=
    List.mem_of_getElem? (i := j) (by rw [List.getElem?_set_ne hne, List.getElem?_eq_getElem hj])
  refine List.any_eq_true.mpr ⟨c.plugins[j], ?_, hso⟩
  refine (List.mem_eraseP_of_neg ?_).mpr hmem
  intro hsame
  have hsame : c.plugins[j].getId = c.plugins[i].getId := by
    rw [hget]
    exact (of_decide_eq_true hsame).trans hid
  have hi' : i < c.ids.length := by simpa [ids] using hi
  have hj' : j < c.ids.length := by simpa [ids] using hj
  have hij : c.ids[i] = c.ids[j] := by simp [ids, hsame]
  exact hne ((h.getElem_inj_iff).mp hij)

/-- Every handler that comes back, and every step of a worker, is a statement of this kind. -/
theorem step_handlers (realToken : Option Bytes) {s : System} (h : s.core.ids.Nodup) {e : Event}
    (he : e.isHandler = true) (hio : (s.step realToken e).io = .returns) :
    ∃ present, (Statement.handlers present).call s.core = ((s.step realToken e).core, .returns) := by
  have hsame : ∃ present, (Statement.handlers present).call s.core = (s.core, .returns) :=
    ⟨s.core.plugins, handlers_eq rfl (admits_refl s.core)⟩
  have hmodify : ∀ (i : Nat) {f : Registered → Registered}, (∀ r, (f r).isSo = r.isSo) →
      ∃ present, (Statement.handlers present).call s.core = ((s.modify i f).core, .returns) :=
    fun i f hf => ⟨_, handlers_eq (d := (s.modify i f).core) rfl (admits_modify i hf)⟩
  have hhandler : ∀ (i : Nat) (enabled : TcpPlugin → Bool)
      {f : TcpPlugin → TcpPlugin × List Action × Control}, (∀ p : TcpPlugin, (f p).1.id = p.id) →
      ∃ present, (Statement.handlers present).call s.core = ((s.handler i enabled f).core, .returns) := by
    intro i enabled f hf
    unfold handler
    split
    · next p hp =>
      split_ifs with henabled
      swap
      · exact hsame
      dsimp only
      split_ifs with hgone
      · have hid : (TcpPlugin.settle (f p)).1.id = p.id := Registered.getId_settle (hf p)
        unfold unregister
        split
        · exact ⟨_, handlers_eq (d := { s.core with plugins := _ }) rfl (admits_set hp)⟩
        · exact ⟨_, handlers_eq (d := ({ s.core with plugins := _ } : Core).removePlugin _) rfl
            (admits_unregister h hp hid)⟩
      · exact ⟨_, handlers_eq (d := { s.core with plugins := _ }) rfl (admits_set hp)⟩
    · exact hsame
  unfold step at hio ⊢
  by_cases hblocked : s.io = .returns
  swap
  · rw [if_pos hblocked]
    exact hsame
  rw [if_neg (not_not.mpr hblocked)] at hio ⊢
  cases e with
  | run | shutdown | connectionError => cases he
  | accept id name =>
    dsimp only
    split_ifs with ha
    · refine ⟨_, handlers_eq (d := s.core.addPlugin _) rfl ⟨fun _ hclosed => ?_, fun hany => ?_⟩⟩
      · exact absurd (of_decide_eq_true ha) hclosed
      · simp [addPlugin, hany]
    · exact hsame
  | received i data => exact hhandler i _ fun p => p.id_received realToken data
  | receiveFailed i => exact hhandler i _ fun p => TcpPlugin.id_stop { p with ready := true }
  | timerHandler i => exact hhandler i _ fun p => TcpPlugin.id_stop { p with timer := .done }
  | timerExpires i => exact hmodify i fun r => by cases r <;> rfl
  | dispatch i m => exact hmodify i fun r => by cases r <;> rfl
  | worker i => exact hmodify i fun r => by cases r <;> rfl
  | workerThrows i => exact hmodify i fun r => by cases r <;> rfl
  | restartPlugin id =>
    dsimp only
    split_ifs
    · refine ⟨_, handlers_eq (d := (s.core.restartPlugin id).1) rfl (admits_of_any (fun hnil => ?_)
        fun hany => ?_)⟩
      · simp [restartPlugin, hnil, onFirst]
      · exact (any_isSo_onFirst isSo_restart id s.core.plugins).trans hany
    · exact hsame
  | reloadPlugin id loaded =>
    dsimp only at hio ⊢
    split_ifs at hio ⊢ with hport
    · have hio : (s.core.reloadPlugin loaded id).2 = .returns := hio
      change ∃ present, (Statement.handlers present).call s.core =
        ((s.core.reloadPlugin loaded id).1, .returns)
      unfold reloadPlugin at hio ⊢
      by_cases hfind : s.core.findPlugin id = none
      · rw [if_pos hfind]
        exact hsame
      · rw [if_neg hfind] at hio ⊢
        obtain ⟨⟨rs, k⟩, hrs⟩ : ∃ x, onFirst id Registered.stopInList s.core.plugins = x := ⟨_, rfl⟩
        rw [hrs] at hio ⊢
        cases k with
        | joins | waits | terminates => cases hio
        | returns =>
          cases loaded with
          | false => cases hio
          | true =>
            refine ⟨_, handlers_eq (d := ({ s.core with plugins := rs } : Core).removePlugin id
              |>.addPlugin (.so { id := id, thread := some .starting })) rfl
              (admits_of_any (fun hnil => ?_) fun _ => by simp [addPlugin, Registered.isSo])⟩
            simp [findPlugin, hnil] at hfind
    · exact hsame

/-- The statements of `run`, and of the handlers that stop the bot. -/
def Event.statements : Event → List Statement
  | .run configured => runStatements true configured
  | .connectionError => Trigger.receiveError.statements
  | .shutdown => stopStatements []
  | _ => []

/-- The state in which these begin. -/
def Event.entry (c : Core) : Event → Core
  | .run _ => c.begun
  | _ => c

/-- If nothing comes between, `run` and the handlers that stop the bot are their statements, one after
the other. -/
theorem step_statements (realToken : Option Bytes) {s : System} {e : Event} (he : e.isHandler = false)
    (hio : (s.step realToken e).io = .returns) : (s.step realToken e).core = s.core ∨
      e.statements.foldlM exec (e.entry s.core) = some (s.step realToken e).core := by
  have hcall (f : Core → Core × Control) (hret : (s.call f).io = .returns) :
      returned (f s.core) = some (s.call f).core := returned_eq_some.mpr (Prod.ext rfl hret)
  unfold step at hio ⊢
  by_cases hblocked : s.io = .returns
  swap
  · rw [if_pos hblocked]
    exact .inl rfl
  rw [if_neg (not_not.mpr hblocked)] at hio ⊢
  cases e with
  | run configured =>
    dsimp only at hio ⊢
    split_ifs at hio ⊢ with hrun
    · exact .inr ((foldlM_runStatements configured s.core).trans (hcall _ hio))
    · exact .inl rfl
  | shutdown =>
    dsimp only at hio ⊢
    split_ifs at hio ⊢ with hport
    · exact .inr ((foldlM_stopStatements [] s.core).trans (hcall _ hio))
    · exact .inl rfl
  | connectionError =>
    dsimp only at hio ⊢
    split_ifs at hio ⊢ with hrun
    · exact .inr ((Trigger.foldlM_statements .receiveError s.core).trans (hcall _ hio))
    · exact .inl rfl
  | accept | received | receiveFailed | timerExpires | timerHandler | dispatch | worker | workerThrows
  | restartPlugin | reloadPlugin => cases he

end System
end IrcBot

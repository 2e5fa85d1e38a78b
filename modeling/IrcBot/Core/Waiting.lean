import IrcBot.Core.Stop
import IrcBot.Core.System

/-! What each handler does to the plugins: a call that stops a plugin with an open connection
waits, unless it handles the end of this connection or does not get past the worker; every other
call that comes back keeps the plugins healthy. -/
namespace IrcBot

namespace Registered

theorem healthy_of_closed {r : Registered} (ht : r.base.thread = none) (hc : r.isOpen = false) :
    r.Healthy := by
  cases r with
  | so p =>
    have ht : p.thread = none := ht
    simp [Healthy, ht]
  | tcp p =>
    have ht : p.thread = none := ht
    have hc : p.socketOpen = false := hc
    simp [Healthy, ht, hc]

theorem Healthy.stop_healthy {r : Registered} (h : r.Healthy) (hb : r.blocks = false) :
    r.stop.1.Healthy := by
  obtain ⟨-, hthread, hopen, -⟩ := h.stop_free hb
  exact healthy_of_closed hthread hopen

/-- Starting a plugin does not wait. -/
theorem Healthy.spawn {r : Registered} (h : r.Healthy) : r.spawn.1.Healthy ∧ r.spawn.2 ≠ .waits := by
  cases r with
  | so p => by_cases ht : p.thread.isSome = true <;> simp [Registered.spawn, Plugin.spawn, ht, Healthy]
  | tcp p =>
    have hopen := fun ho => (h.2 ho).2
    by_cases ht : p.thread.isSome = true <;>
      simpa [Registered.spawn, TcpPlugin.spawn, Plugin.spawn, ht, Healthy] using hopen

theorem Healthy.restart_blocked {r : Registered} (h : r.Healthy) (hb : r.blocks = true) :
    r.restart.2 = if r.isStarting then .joins else .waits := by
  have hstop := h.stopInList_blocked hb
  obtain ⟨⟨q, k⟩, hq⟩ : ∃ x, r.stopInList = x := ⟨_, rfl⟩
  rw [hq] at hstop
  have hk : k = if r.isStarting then .joins else .waits := hstop
  rw [restart, hq, ← hk]
  cases k with
  | returns => split_ifs at hk
  | joins | waits | terminates => rfl

theorem Healthy.restart_free {r : Registered} (h : r.Healthy) (hb : r.blocks = false) :
    r.restart.1.Healthy ∧ r.restart.2 ≠ .waits := by
  have hrestart : r.restart = r.stop.1.spawn := by simp [restart, h.stopInList_free hb]
  rw [hrestart]
  exact (h.stop_healthy hb).spawn

theorem Healthy.workerStep {r : Registered} (h : r.Healthy) : r.workerStep.Healthy := by
  cases r with
  | so p =>
    have hp : p.thread.isSome = true → p.running = true := h
    have hstep := p.workerStep_spec
    change p.workerStep.1.thread.isSome = true → p.workerStep.1.running = true
    intro ht
    rw [hstep.thread] at ht
    exact hstep.running (hp ht)
  | tcp p =>
    obtain ⟨hrun, hopen⟩ := h
    obtain ⟨⟨taken, hstep⟩, -, hready, hsocket, hregistered⟩ := p.workerStep_spec
    constructor
    · intro ht
      rw [hstep.thread] at ht
      exact hstep.running (hrun ht)
    · intro ho
      rw [hsocket] at ho
      obtain ⟨hr, hprom, hreg⟩ := hopen ho
      exact ⟨hstep.running hr, hready.trans hprom, hregistered.trans hreg⟩

theorem Healthy.workerThrows {r : Registered} (h : r.Healthy) : r.workerThrows.Healthy := by
  cases r with
  | so p => simpa [Registered.workerThrows, Plugin.workerThrows, Healthy] using h
  | tcp p => simpa [Registered.workerThrows, Plugin.workerThrows, Healthy] using h

theorem Healthy.receive {r : Registered} (h : r.Healthy) (m : Irc.IRCMessage) :
    (r.receive m).Healthy := by
  cases r with
  | so p => exact h
  | tcp p => exact h

theorem Healthy.timerExpires {r : Registered} (h : r.Healthy) : r.timerExpires.Healthy := by
  cases r with
  | so p => exact h
  | tcp p =>
    change Healthy (.tcp p.timerExpires)
    unfold TcpPlugin.timerExpires
    by_cases ht : p.timer = .pending
    · rw [if_pos ht]
      exact h
    · rw [if_neg ht]
      exact h

end Registered

namespace TcpPlugin

/-- A handler of a plugin that does not wait, and leaves the plugin healthy if it returns. -/
def Kept (r : TcpPlugin × List Action × Control) : Prop :=
  (settle r).2 ≠ .waits ∧ ((settle r).2 = .returns → Registered.Healthy (.tcp (settle r).1))

theorem settle_actions (p : TcpPlugin) (actions actions' : List Action) (c : Control) :
    settle (p, actions, c) = settle (p, actions', c) := by
  cases c <;> rfl

variable {p : TcpPlugin} (h : Registered.Healthy (.tcp p))
include h

theorem stop_waits (ha : (Registered.tcp p).awaits = true) : (settle p.stop).2 = .waits := by
  have hb : (Registered.tcp p).blocks = true := ((Bool.and_eq_true _ _).mp ha).1
  have hstop : (settle p.stop).2 = _ := h.stop_blocked hb
  rcases Registered.stop_blocked_cases hb with ⟨-, hwaits⟩ | ⟨hnot, -⟩
  · rw [hstop, hwaits]
  · rw [hnot] at ha
    cases ha

theorem stop_kept (ha : (Registered.tcp p).awaits = false) : Kept p.stop := by
  cases hb : (Registered.tcp p).blocks with
  | false =>
    obtain ⟨hret, -⟩ := h.stop_free hb
    have hret : (settle p.stop).2 = .returns := hret
    exact ⟨by rw [hret]; decide, fun _ => h.stop_healthy hb⟩
  | true =>
    have hstop : (settle p.stop).2 = _ := h.stop_blocked hb
    rcases Registered.stop_blocked_cases hb with ⟨hwaits, -⟩ | ⟨-, hjoins⟩
    · rw [ha] at hwaits
      cases hwaits
    · unfold Kept
      rw [hstop, hjoins]
      exact ⟨nofun, nofun⟩

theorem spawn_kept : Kept p.spawn := by
  obtain ⟨hspawn, -⟩ := Registered.Healthy.spawn h
  by_cases ht : p.thread.isSome = true
  · simp [Kept, TcpPlugin.spawn, Plugin.spawn, ht, settle]
  · simpa [Kept, TcpPlugin.spawn, Registered.spawn, Plugin.spawn, ht, settle, Registered.Healthy]
      using hspawn

/-- The end of the connection stops the plugin without waiting. -/
theorem receiveFailed_kept (ho : p.socketOpen = true) : Kept p.receiveFailed := by
  obtain ⟨hrun, -⟩ := h.2 ho
  unfold Kept
  by_cases ht : p.thread = some .starting
  · have hsettle : settle p.receiveFailed = _ := settle_stop_starting (p := { p with ready := true }) hrun ht ho
    rw [hsettle]
    exact ⟨nofun, nofun⟩
  · have hsettle : settle p.receiveFailed = _ := settle_stop (p := { p with ready := true }) hrun ht
    have hshutdown := onShutdown_ready (p := { p with ready := true }.halted) ho rfl
    rw [hsettle, hshutdown]
    exact ⟨nofun, fun _ => ⟨nofun, nofun⟩⟩

theorem timerHandler_kept (ha : (Registered.tcp p).awaits = false) : Kept p.timerHandler :=
  stop_kept (p := { p with timer := .done }) h ha

theorem timerHandler_waits (ha : (Registered.tcp p).awaits = true) :
    (settle p.timerHandler).2 = .waits :=
  stop_waits (p := { p with timer := .done }) h ha

/-- An INIT_REQUEST with a token that is refused. -/
def Refused (realToken : Option Bytes) (data : Bytes) : Prop :=
  ∃ name token, parseMessage data = some (.initRequest name token) ∧
    Core.authenticatePlugin realToken token = some false

theorem received_waits {realToken : Option Bytes} {data : Bytes}
    (ha : (Registered.tcp p).awaits = true) (hr : Refused realToken data) :
    (settle (p.received realToken data)).2 = .waits := by
  obtain ⟨name, token, hparse, hauth⟩ := hr
  have hwait := stop_waits h ha
  simp only [received, hparse, processInitRequest, hauth]
  rw [← hwait]
  exact congrArg Prod.snd (settle_actions _ _ _ _)

theorem received_kept {realToken : Option Bytes} {data : Bytes}
    (hr : (Registered.tcp p).awaits = true → ¬ Refused realToken data) :
    Kept (p.received realToken data) := by
  unfold received
  cases hparse : parseMessage data with
  | none => exact ⟨nofun, fun _ => h⟩
  | some r =>
    cases r with
    | ircMessage m => exact ⟨nofun, fun _ => h⟩
    | initRequest name token =>
      simp only [processInitRequest]
      cases hauth : Core.authenticatePlugin realToken token with
      | none => exact ⟨nofun, fun _ => h⟩
      | some ok =>
        cases ok with
        | false =>
          have ha : (Registered.tcp p).awaits = false := by
            by_contra ha
            exact hr (Bool.eq_true_of_not_eq_false ha) ⟨name, token, hparse, hauth⟩
          have hstop : Kept p.stop := stop_kept h ha
          unfold Kept
          rw [settle_actions]
          exact hstop
        | true =>
          have hspawn : Kept ({ p with name := name }.cancelTimer).spawn := spawn_kept h
          unfold Kept
          rw [settle_actions]
          exact hspawn

end TcpPlugin

namespace Core

/-- A call of the bot that does not wait, and leaves healthy plugins if it returns. -/
def Kept (r : Core × Control) : Prop :=
  r.2 ≠ .waits ∧ (r.2 = .returns → ∀ q ∈ r.1.plugins, q.Healthy)

theorem andThen_kept {r : Core × Control} {f : Core → Core × Control} (hr : r.2 ≠ .waits)
    (hf : r.2 = .returns → Kept (f r.1)) : Kept (andThen r f) := by
  obtain ⟨c, k⟩ := r
  cases k with
  | returns => exact hf rfl
  | joins => exact ⟨by simp [andThen], by simp [andThen]⟩
  | waits => exact absurd rfl hr
  | terminates => exact ⟨by simp [andThen], by simp [andThen]⟩

theorem forEach_spawn_kept {rs : List Registered} (h : ∀ r ∈ rs, r.Healthy) :
    (forEach Registered.spawn rs).2 ≠ .waits ∧ ∀ q ∈ (forEach Registered.spawn rs).1, q.Healthy := by
  induction rs with
  | nil => simp [forEach]
  | cons r rs ih =>
    obtain ⟨hr, hwait⟩ := (h r (by simp)).spawn
    obtain ⟨hrest, hall⟩ := ih fun q hq => h q (by simp [hq])
    obtain ⟨⟨q, k⟩, hq⟩ : ∃ x, r.spawn = x := ⟨_, rfl⟩
    rw [hq] at hr hwait
    cases k with
    | returns => simpa [forEach, hq] using ⟨hrest, hr, hall⟩
    | joins => simpa [forEach, hq] using ⟨hr, fun q hq => h q (by simp [hq])⟩
    | waits => exact absurd rfl hwait
    | terminates => simpa [forEach, hq] using ⟨hr, fun q hq => h q (by simp [hq])⟩

theorem onFirst_none {id : Bytes} {f : Registered → Registered × Control} {rs : List Registered}
    (h : rs.find? (fun r => r.getId = id) = none) : onFirst id f rs = (rs, .returns) := by
  induction rs with
  | nil => rfl
  | cons r rs ih =>
    have hne : ¬ r.getId = id := by simpa using List.find?_eq_none.mp h r List.mem_cons_self
    have hrest : rs.find? (fun r => r.getId = id) = none := by simpa [hne] using h
    rw [onFirst, if_neg hne, ih hrest]

theorem onFirst_some {id : Bytes} {f : Registered → Registered × Control} {rs : List Registered}
    {r : Registered} (h : rs.find? (fun r => r.getId = id) = some r) :
    (onFirst id f rs).2 = (f r).2 ∧ ∀ q ∈ (onFirst id f rs).1, q ∈ rs ∨ q = (f r).1 := by
  induction rs with
  | nil => simp at h
  | cons r' rs ih =>
    by_cases hid : r'.getId = id
    · obtain rfl : r' = r := by simpa [List.find?_cons, hid] using h
      rw [onFirst, if_pos hid]
      refine ⟨rfl, fun q hq => ?_⟩
      rcases List.mem_cons.mp hq with rfl | hq
      · exact Or.inr rfl
      · exact Or.inl (List.mem_cons_of_mem _ hq)
    · obtain ⟨hk, hmem⟩ := ih (by simpa [List.find?_cons, hid] using h)
      rw [onFirst, if_neg hid]
      refine ⟨hk, fun q hq => ?_⟩
      rcases List.mem_cons.mp hq with rfl | hq
      · exact Or.inl List.mem_cons_self
      · exact (hmem q hq).imp_left (List.mem_cons_of_mem _)

/-- The acceptors never wait. -/
theorem stopTcpPluginServer_ne_waits (c : Core) : c.stopTcpPluginServer.2 ≠ .waits := by
  unfold stopTcpPluginServer Acceptor.stop
  cases c.tcpPluginServer with
  | none => nofun
  | some a => cases h : a.isOpen <;> simp [h]

theorem stopAdminPort_kept {c : Core} (h : c.plugins = []) :
    c.stopAdminPort.2 ≠ .waits ∧ c.stopAdminPort.1.plugins = [] := by
  unfold stopAdminPort Acceptor.stop
  cases c.adminPort with
  | none => exact ⟨nofun, h⟩
  | some a => cases ho : a.isOpen <;> simp [ho, h]

theorem setStopPromise_kept {c : Core} (h : c.plugins = []) : Kept c.setStopPromise := by
  unfold setStopPromise
  by_cases hs : c.stopPromise = none <;> simp [hs, Kept, h]

theorem startAcceptors_plugins (c : Core) : c.startTcpPluginServer.startAdminPort.plugins = c.plugins := by
  unfold startAdminPort startTcpPluginServer
  split <;> split <;> rfl

variable {c : Core} (h : ∀ r ∈ c.plugins, r.Healthy)
include h

theorem stop_waits {r : Registered} (hr : c.plugins.find? Registered.blocks = some r)
    (ha : r.awaits = true) : c.stop.2 = .waits := by
  rw [stop_blocked h hr]
  rcases Registered.stop_blocked_cases (List.find?_some hr) with ⟨-, hwaits⟩ | ⟨hnot, -⟩
  · exact hwaits
  · rw [hnot] at ha
    cases ha

theorem stop_kept (hc : ∀ r, c.plugins.find? Registered.blocks = some r → r.awaits = false) :
    Kept c.stop := by
  rcases blocks_cases c.plugins with hfree | ⟨r, hr⟩
  · rw [stop_free h hfree]
    refine andThen_kept (stopTcpPluginServer_ne_waits _) fun _ => ?_
    exact andThen_kept (stopAdminPort_kept rfl).1 fun _ => setStopPromise_kept (stopAdminPort_kept rfl).2
  · have hstop := stop_blocked h hr
    rcases Registered.stop_blocked_cases (List.find?_some hr) with ⟨hwaits, -⟩ | ⟨-, hjoins⟩
    · rw [hc r hr] at hwaits
      cases hwaits
    · rw [hjoins] at hstop
      unfold Kept
      rw [hstop]
      exact ⟨nofun, nofun⟩

theorem run_kept (configured : List Bytes) : Kept (c.run configured) := by
  have hall : ∀ r ∈ (initializePlugins configured { c with running := true, stopPromise := none }).plugins,
      r.Healthy := by
    intro r hr
    rcases List.mem_append.mp hr with hr | hr
    · exact h r hr
    · obtain ⟨id, -, rfl⟩ := List.mem_map.mp hr
      simp [Registered.Healthy]
  obtain ⟨hwait, hspawn⟩ := forEach_spawn_kept hall
  refine andThen_kept hwait fun _ => ⟨nofun, fun _ q hq => hspawn q ?_⟩
  rw [startAcceptors_plugins] at hq
  exact hq

theorem restartPlugin_waits {id : Bytes} {r : Registered} (hr : c.findPlugin id = some r)
    (ha : r.awaits = true) : (c.restartPlugin id).2 = .waits := by
  have hb : r.blocks = true := ((Bool.and_eq_true _ _).mp ha).1
  have hrestart := (h r (List.mem_of_find?_eq_some hr)).restart_blocked hb
  refine (onFirst_some hr).1.trans (hrestart.trans ?_)
  rcases Registered.stop_blocked_cases hb with ⟨-, hwaits⟩ | ⟨hnot, -⟩
  · exact hwaits
  · rw [hnot] at ha
    cases ha

theorem restartPlugin_kept {id : Bytes} (hc : ∀ r, c.findPlugin id = some r → r.awaits = false) :
    Kept (c.restartPlugin id) := by
  cases hr : c.findPlugin id with
  | none =>
    rw [restartPlugin, onFirst_none hr]
    exact ⟨nofun, fun _ => h⟩
  | some r =>
    obtain ⟨hk, hmem⟩ := onFirst_some (f := Registered.restart) hr
    have hr' := h r (List.mem_of_find?_eq_some hr)
    cases hb : r.blocks with
    | false =>
      obtain ⟨hhealthy, hwait⟩ := hr'.restart_free hb
      refine ⟨fun hw => hwait (hk.symm.trans hw), fun _ q hq => ?_⟩
      rcases hmem q hq with hq | rfl
      · exact h q hq
      · exact hhealthy
    | true =>
      have hrestart := hk.trans (hr'.restart_blocked hb)
      rcases Registered.stop_blocked_cases hb with ⟨hwaits, -⟩ | ⟨-, hjoins⟩
      · rw [hc r hr] at hwaits
        cases hwaits
      · have hjoined : (c.restartPlugin id).2 = .joins := hrestart.trans hjoins
        unfold Kept
        rw [hjoined]
        exact ⟨nofun, nofun⟩

/-- A reload does not get past a plugin that keeps its `stop`. -/
theorem reloadPlugin_blocked (loaded : Bool) {id : Bytes} {r : Registered}
    (hr : c.findPlugin id = some r) (hb : r.blocks = true) :
    (c.reloadPlugin loaded id).2 = if r.isStarting then .joins else .waits := by
  have hstop := (onFirst_some hr).1.trans ((h r (List.mem_of_find?_eq_some hr)).stopInList_blocked hb)
  obtain ⟨⟨rs, k⟩, hrs⟩ : ∃ x, onFirst id Registered.stopInList c.plugins = x := ⟨_, rfl⟩
  rw [hrs] at hstop
  have hk : k = if r.isStarting then .joins else .waits := hstop
  rw [reloadPlugin, if_neg (by simp [hr]), hrs, ← hk]
  cases k with
  | returns => split_ifs at hk
  | joins | waits | terminates => rfl

theorem reloadPlugin_waits {loaded : Bool} {id : Bytes} {r : Registered}
    (hr : c.findPlugin id = some r) (ha : r.awaits = true) :
    (c.reloadPlugin loaded id).2 = .waits := by
  have hb : r.blocks = true := ((Bool.and_eq_true _ _).mp ha).1
  rw [reloadPlugin_blocked h _ hr hb]
  rcases Registered.stop_blocked_cases hb with ⟨-, hwaits⟩ | ⟨hnot, -⟩
  · exact hwaits
  · rw [hnot] at ha
    cases ha

theorem reloadPlugin_kept {loaded : Bool} {id : Bytes}
    (hc : ∀ r, c.findPlugin id = some r → r.awaits = false) : Kept (c.reloadPlugin loaded id) := by
  cases hr : c.findPlugin id with
  | none =>
    rw [reloadPlugin, if_pos hr]
    exact ⟨nofun, fun _ => h⟩
  | some r =>
    cases hb : r.blocks with
    | true =>
      have hreload := reloadPlugin_blocked h loaded hr hb
      rcases Registered.stop_blocked_cases hb with ⟨hwaits, -⟩ | ⟨-, hjoins⟩
      · rw [hc r hr] at hwaits
        cases hwaits
      · rw [hjoins] at hreload
        unfold Kept
        rw [hreload]
        exact ⟨nofun, nofun⟩
    | false =>
      have hr' := h r (List.mem_of_find?_eq_some hr)
      obtain ⟨hk, hmem⟩ := onFirst_some (f := Registered.stopInList) hr
      rw [hr'.stopInList_free hb] at hk hmem
      rw [reloadPlugin, if_neg (by simp [hr])]
      refine andThen_kept (by rw [hk]; nofun) fun _ => ?_
      cases loaded with
      | false => exact ⟨nofun, nofun⟩
      | true =>
        obtain ⟨hnew, hwait⟩ := Registered.Healthy.spawn (r := .so { id := id }) (by simp [Registered.Healthy])
        refine ⟨hwait, fun _ q hq => ?_⟩
        rcases List.mem_append.mp hq with hq | hq
        · rcases hmem q (List.mem_of_mem_eraseP hq) with hq | rfl
          · exact h q hq
          · exact hr'.stop_healthy hb
        · rw [List.mem_singleton.mp hq]
          exact hnew

end Core

end IrcBot

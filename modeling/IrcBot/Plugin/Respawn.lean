import IrcBot.Plugin.Authentication

/-! The calls of `spawn` on a plugin. A restart stops the plugin first, an accepted INIT_REQUEST and
`startPlugins` do not: a peer that sends a second request has the thread object of the first
assigned while it is joinable. -/
namespace IrcBot
open Irc

namespace Connection

/-- The plugin on which the step calls `spawn`, as it is then. -/
def spawnsOn (realToken : Option Bytes) (c : Connection) (e : Event) : Option TcpPlugin :=
  if c.alive && c.enabled e then
    match e with
    | .received data =>
      match TcpPlugin.parseMessage data with
      | some (.initRequest name token) =>
        if Core.authenticatePlugin realToken token = some true then
          some ({ c.plugin with name := name } : TcpPlugin).cancelTimer
        else none
      | _ => none
    | .restart =>
      match c.plugin.stop with
      | (p, _, .returns) => some p
      | _ => none
    | .startPlugins => some c.plugin
    | _ => none
  else none

/-- The step does not call `spawn` on a plugin whose thread is joinable. -/
def SpawnsOnce (realToken : Option Bytes) (c : Connection) (e : Event) : Prop :=
  ∀ p, c.spawnsOn realToken e = some p → p.thread = none

/-- An accepted request and `startPlugins` come to a plugin whose last worker has been joined, and
no restart comes while the main thread joins a worker that will end. -/
def Guarded (realToken : Option Bytes) (c : Connection) (e : Event) : Prop :=
  c.Possible e →
    match e with
    | .received _ => e.accepts realToken = true → c.plugin.thread = none
    | .startPlugins => c.plugin.thread = none
    | .restart => c.main = .joins → c.plugin.running = true
    | _ => True

/-- A worker that has been told to end is being joined; there is one to join, and one that joins. -/
structure Joins (c : Connection) : Prop where
  stopped : c.plugin.running = false → c.plugin.thread = none ∨ c.io = .joins ∨ c.main = .joins
  io : c.io = .joins → c.plugin.thread.isSome = true
  main : c.main = .joins → c.plugin.thread.isSome = true
  once : ¬ (c.io = .joins ∧ c.main = .joins)

variable (realToken : Option Bytes) {c : Connection} {e : Event}

/-- The step ends in the call of `spawn`. -/
theorem step_of_spawnsOn {p : TcpPlugin} (h : c.spawnsOn realToken e = some p) :
    (c.step realToken e).1.plugin = p.spawn.1 := by
  unfold spawnsOn at h
  split_ifs at h with hp
  rw [step_of_possible realToken hp]
  cases e with
  | received data =>
    dsimp only at h
    cases hparse : TcpPlugin.parseMessage data with
    | none =>
      rw [hparse] at h
      cases h
    | some r =>
      cases r with
      | ircMessage m =>
        rw [hparse] at h
        cases h
      | initRequest name token =>
        rw [hparse] at h
        dsimp only at h
        split_ifs at h with hauth
        cases h
        rw [happen, onIo, TcpPlugin.received, hparse]
        dsimp only
        rw [TcpPlugin.processInitRequest, hauth]
  | restart =>
    obtain ⟨⟨q, actions, k⟩, hstop⟩ : ∃ r, c.plugin.stop = r := ⟨_, rfl⟩
    dsimp only at h
    rw [happen, onIo, TcpPlugin.restart, hstop]
    rw [hstop] at h
    cases k with
    | returns =>
      cases h
      rfl
    | joins | waits | terminates => cases h
  | startPlugins =>
    cases h
    rfl
  | receiveFailed | timerExpires | timerHandler | dispatch | worker | workerThrows | stop | signal
  | resume => cases h

/-- A restart that calls `spawn` has found the plugin stopped. -/
theorem restart_spawns_iff (h : c.Joins) (hp : c.Possible .restart) :
    c.SpawnsOnce realToken .restart ↔ (c.main = .joins → c.plugin.running = true) := by
  have hio : c.io = .returns := by
    have hpossible := (Bool.and_eq_true _ _).mp hp
    have henabled : c.io = .returns ∧ c.plugin.registered = true := by
      simpa [enabled] using hpossible.2
    exact henabled.1
  have hon : c.spawnsOn realToken .restart =
      match c.plugin.stop with
      | (p, _, .returns) => some p
      | _ => none := if_pos hp
  unfold SpawnsOnce
  rw [hon]
  rcases c.plugin.stop_cases with ⟨hrun, hstop⟩ | ⟨hrun, -, hstop⟩ | ⟨hrun, hthread, hstop⟩
  · rw [hstop, hrun]
    have hcases := h.stopped hrun
    rw [hio] at hcases
    constructor
    · intro hall hmain
      have hsome := h.main hmain
      rw [hall c.plugin rfl] at hsome
      cases hsome
    · intro hmain p hpeq
      obtain rfl : c.plugin = p := Option.some.inj hpeq
      rcases hcases with hnone | hjoins | hjoins
      · exact hnone
      · cases hjoins
      · cases hmain hjoins
  · rw [hstop, hrun]
    exact iff_of_true (fun p hpeq => by cases hpeq) fun _ => rfl
  · rw [hrun]
    refine iff_of_true (fun p hpeq => ?_) fun _ => rfl
    have hkeep := c.plugin.stop_thread
    rw [hthread] at hkeep
    obtain ⟨⟨q, actions, k⟩, hq⟩ : ∃ r, c.plugin.stop = r := ⟨_, rfl⟩
    rw [hq] at hpeq hkeep
    cases k with
    | returns =>
      obtain rfl : q = p := Option.some.inj hpeq
      exact hkeep
    | joins | waits | terminates => cases hpeq

/-- Whether a step calls `spawn` on a joinable thread. -/
theorem spawnsOnce_iff (h : c.Joins) (e : Event) :
    c.SpawnsOnce realToken e ↔ c.Guarded realToken e := by
  by_cases hp : c.Possible e
  swap
  · refine iff_of_true (fun p hpeq => ?_) fun hp' => absurd hp' hp
    have hnone : c.spawnsOn realToken e = none := if_neg hp
    rw [hnone] at hpeq
    cases hpeq
  unfold Guarded
  rw [forall_prop_of_true hp]
  cases e with
  | restart => exact restart_spawns_iff realToken h hp
  | startPlugins =>
    have hon : c.spawnsOn realToken .startPlugins = some c.plugin := if_pos hp
    simp [SpawnsOnce, hon]
  | received data =>
    have hon : c.spawnsOn realToken (.received data) =
        match TcpPlugin.parseMessage data with
        | some (.initRequest name token) =>
          if Core.authenticatePlugin realToken token = some true then
            some ({ c.plugin with name := name } : TcpPlugin).cancelTimer
          else none
        | _ => none := if_pos hp
    unfold SpawnsOnce
    rw [hon]
    dsimp only
    cases hparse : TcpPlugin.parseMessage data with
    | none => simp [Event.accepts, Event.request, hparse]
    | some r =>
      cases r with
      | ircMessage m => simp [Event.accepts, Event.request, hparse]
      | initRequest name token =>
        by_cases hauth : Core.authenticatePlugin realToken token = some true <;>
          simp [Event.accepts, Event.request, hparse, hauth, TcpPlugin.cancelTimer]
  | receiveFailed | timerExpires | timerHandler | dispatch | worker | workerThrows | stop | signal
  | resume =>
    have hon : c.spawnsOn realToken _ = none := if_pos hp
    simp [SpawnsOnce, hon]

theorem joins_new (id name : Bytes) : (new id name).Joins := ⟨nofun, nofun, nofun, nofun⟩

theorem meeting_joins {other : Control} {p : TcpPlugin} {r : TcpPlugin × List Action × Control}
    (h : meeting other p r = .joins) : r.2.2 = .joins ∧ other ≠ .joins := by
  obtain ⟨q, actions, k⟩ := r
  unfold meeting at h
  cases k with
  | joins =>
    refine ⟨rfl, fun hother => ?_⟩
    dsimp only at h
    rw [if_pos hother] at h
    cases h
  | waits | returns =>
    dsimp only at h
    split_ifs at h
  | terminates => cases h

theorem onIo_joins {r : TcpPlugin × List Action × Control} (h : (c.onIo r).1.io = .joins) :
    r.2.2 = .joins ∧ c.main ≠ .joins := meeting_joins h

theorem onMain_joins {r : TcpPlugin × List Action × Control} (h : (c.onMain r).1.main = .joins) :
    r.2.2 = .joins ∧ c.io ≠ .joins := meeting_joins h

/-- A call without a `join` in it. -/
theorem Joins.of_not_joins (h : c.Joins) {d : Connection} (hio : d.io = .joins → c.io = .joins)
    (hmain : d.main = .joins → c.main = .joins)
    (hthread : d.plugin.thread = c.plugin.thread ∧
        (d.plugin.running = false → c.plugin.running = false) ∧
        (c.io = .joins → d.io = .joins) ∧ (c.main = .joins → d.main = .joins) ∨
      (d.plugin.thread = none ∧ d.io ≠ .joins ∧ d.main ≠ .joins)) : d.Joins := by
  rcases hthread with ⟨hthread, hrun, hio', hmain'⟩ | ⟨hthread, hnio, hnmain⟩
  · refine ⟨fun hstopped => ?_, fun hj => hthread ▸ h.io (hio hj), fun hj => hthread ▸ h.main (hmain hj),
      fun hj => h.once ⟨hio hj.1, hmain hj.2⟩⟩
    rw [hthread]
    exact (h.stopped (hrun hstopped)).imp_right (.imp hio' hmain')
  · exact ⟨fun _ => .inl hthread, fun hj => absurd hj hnio, fun hj => absurd hj hnmain,
      fun hj => hnio hj.1⟩

/-- A `stop` of the io thread, in a handler that changes other fields of the plugin first. -/
theorem Joins.stopOnIo (h : c.Joins) (hio : c.io = .returns) {p : TcpPlugin}
    (hthread : p.thread = c.plugin.thread) (hrun : p.running = c.plugin.running) (actions : List Action) :
    (c.onIo (p.stop.1, actions, p.stop.2.2)).1.Joins := by
  have hnot : c.io ≠ .joins := by rw [hio]; nofun
  rcases p.stop_cases with ⟨hstopped, hstop⟩ | ⟨-, hsome, hstop⟩ | ⟨-, hnone, hstop⟩ <;> rw [hstop]
  · refine h.of_not_joins (fun hj => ?_) id (.inl ⟨hthread, fun _ => hrun ▸ hstopped, fun hj => ?_, id⟩)
    · cases (onIo_joins hj).1
    · exact absurd hj hnot
  · rw [hthread] at hsome
    by_cases hmain : c.main = .joins
    · refine ⟨fun _ => .inr (.inr hmain), fun _ => ?_, fun _ => ?_, fun hj => (onIo_joins hj.1).2 hmain⟩ <;>
        exact hthread ▸ hsome
    · have hjoins : (c.onIo ({ p with running := false }, actions, .joins)).1.io = .joins := if_neg hmain
      exact ⟨fun _ => .inr (.inl hjoins), fun _ => hthread ▸ hsome, fun hj => absurd hj hmain,
        fun hj => hmain hj.2⟩
  · have hkeep := ({ p with running := false } : TcpPlugin).onShutdown_thread
    have hcontrol := ({ p with running := false } : TcpPlugin).onShutdown_control
    refine h.of_not_joins (fun hj => ?_) id (.inr ⟨hkeep.trans hnone, fun hj => ?_, fun hj => ?_⟩)
    · rcases hcontrol with hk | hk <;> cases hk.symm.trans (onIo_joins hj).1
    · rcases hcontrol with hk | hk <;> cases hk.symm.trans (onIo_joins hj).1
    · have hsome := h.main hj
      rw [← hthread, hnone] at hsome
      cases hsome

/-- A `stop` of the main thread. -/
theorem Joins.stopOnMain (h : c.Joins) (hmain : c.main = .returns) : (c.onMain c.plugin.stop).1.Joins := by
  have hnot : c.main ≠ .joins := by rw [hmain]; nofun
  rcases c.plugin.stop_cases with ⟨hstopped, hstop⟩ | ⟨-, hsome, hstop⟩ | ⟨-, hnone, hstop⟩ <;> rw [hstop]
  · refine h.of_not_joins id (fun hj => ?_) (.inl ⟨rfl, fun _ => hstopped, id, fun hj => ?_⟩)
    · cases (onMain_joins hj).1
    · exact absurd hj hnot
  · by_cases hio : c.io = .joins
    · exact ⟨fun _ => .inr (.inl hio), fun _ => hsome, fun _ => hsome, fun hj => (onMain_joins hj.2).2 hio⟩
    · have hjoins : (c.onMain ({ c.plugin with running := false }, [], .joins)).1.main = .joins := if_neg hio
      exact ⟨fun _ => .inr (.inr hjoins), fun _ => hsome, fun _ => hsome, fun hj => hio hj.1⟩
  · have hkeep := ({ c.plugin with running := false } : TcpPlugin).onShutdown_thread
    have hcontrol := ({ c.plugin with running := false } : TcpPlugin).onShutdown_control
    refine h.of_not_joins id (fun hj => ?_) (.inr ⟨hkeep.trans hnone, fun hj => ?_, fun hj => ?_⟩)
    · rcases hcontrol with hk | hk <;> cases hk.symm.trans (onMain_joins hj).1
    · have hsome := h.io hj
      rw [hnone] at hsome
      cases hsome
    · rcases hcontrol with hk | hk <;> cases hk.symm.trans (onMain_joins hj).1

/-- A `spawn` that has not ended the process. -/
theorem Joins.spawned (h : c.Joins) {d : Connection} (hnone : c.plugin.thread = none)
    (hrun : d.plugin.running = true) (hio : d.io = .joins → c.io = .joins)
    (hmain : d.main = .joins → c.main = .joins) : d.Joins := by
  have hnio : c.io ≠ .joins := by
    intro hj
    have hsome := h.io hj
    rw [hnone] at hsome
    cases hsome
  have hnmain : c.main ≠ .joins := by
    intro hj
    have hsome := h.main hj
    rw [hnone] at hsome
    cases hsome
  refine ⟨fun hstopped => ?_, fun hj => absurd (hio hj) hnio, fun hj => absurd (hmain hj) hnmain,
    fun hj => hnio (hio hj.1)⟩
  rw [hrun] at hstopped
  cases hstopped

theorem alive_iff (c : Connection) : c.alive = true ↔ c.io ≠ .terminates ∧ c.main ≠ .terminates := by
  simp [alive]

/-- `spawn` on the io thread. -/
theorem Joins.spawnOnIo (h : c.Joins) (p : TcpPlugin) (hthread : p.thread = c.plugin.thread)
    (actions : List Action) (halive : (c.onIo (p.spawn.1, actions, p.spawn.2.2)).1.alive = true) :
    (c.onIo (p.spawn.1, actions, p.spawn.2.2)).1.Joins := by
  by_cases hnone : c.plugin.thread = none
  · have hpnone : ¬ p.thread.isSome = true := by simp [hthread, hnone]
    refine h.spawned hnone ?_ (fun hj => ?_) id
    · simp [onIo, TcpPlugin.spawn, Plugin.spawn, hpnone]
    · have hk := (onIo_joins hj).1
      simp [TcpPlugin.spawn, Plugin.spawn, hpnone] at hk
  · have hsome : p.thread.isSome = true := by simp [hthread, Option.isSome_iff_ne_none, hnone]
    have hterminates : p.spawn.2.2 = .terminates := by simp [TcpPlugin.spawn, Plugin.spawn, hsome]
    rw [hterminates] at halive
    exact absurd rfl ((alive_iff _).mp halive).1

/-- A step of the worker; its last one ends the `join`. -/
theorem Joins.worker (h : c.Joins) {r : TcpPlugin × List Action}
    (hthread : r.1.thread.isSome = c.plugin.thread.isSome)
    (hrun : r.1.running = false → c.plugin.running = false) : (c.workerStep r).1.Joins := by
  obtain ⟨d, hd⟩ : ∃ d : Connection, d = { c with plugin := r.1 } := ⟨_, rfl⟩
  have hdjoins : d.Joins := by
    rw [hd]
    refine ⟨fun hstopped => ?_, fun hj => hthread.trans (h.io hj), fun hj => hthread.trans (h.main hj), h.once⟩
    refine (h.stopped (hrun hstopped)).imp_left fun hnone => ?_
    rw [hnone] at hthread
    exact Option.isNone_iff_eq_none.mp (by rw [← Option.not_isSome, hthread]; rfl)
  have hjoined : d.plugin.joined.1.thread = none := TcpPlugin.onShutdown_thread _
  have hcontrol : d.plugin.joined.2.2 ≠ .joins := by
    have hk := ({ d.plugin with thread := none } : TcpPlugin).onShutdown_control
    intro hj
    have hj : ({ d.plugin with thread := none } : TcpPlugin).onShutdown.2.2 = .joins := hj
    rcases hk with hk | hk <;> cases hk.symm.trans hj
  unfold workerStep
  rw [← hd]
  dsimp only
  split_ifs with hfinished hio hmain
  · refine hdjoins.of_not_joins (fun _ => hio) id (.inr ⟨hjoined, fun hj => hcontrol (onIo_joins hj).1,
      fun hj => hdjoins.once ⟨hio, hj⟩⟩)
  · refine hdjoins.of_not_joins id (fun _ => hmain) (.inr ⟨hjoined, hio, fun hj => ?_⟩)
    exact hcontrol (onMain_joins hj).1
  · exact hdjoins
  · exact hdjoins

/-- Every step keeps this, unless it ends the process. -/
theorem Joins.step (h : c.Joins) (e : Event) (halive : (c.step realToken e).1.alive = true) :
    (c.step realToken e).1.Joins := by
  by_cases hp : c.Possible e
  swap
  · have hsame : c.step realToken e = (c, []) := if_neg hp
    rw [hsame]
    exact h
  have henabled := ((Bool.and_eq_true _ _).mp hp).2
  rw [step_of_possible realToken hp] at halive ⊢
  have hreturns : Control.returns ≠ .joins ∧ Control.terminates ≠ .joins := by decide
  have hsame : ∀ r : TcpPlugin × List Action × Control, r.1.thread = c.plugin.thread →
      r.1.running = c.plugin.running → r.2.2 ≠ .joins → c.io = .returns → (c.onIo r).1.Joins := by
    intro r hthread hrun hk hio
    refine h.of_not_joins (fun hj => absurd (onIo_joins hj).1 hk) id
      (.inl ⟨hthread, fun hstopped => hrun.symm.trans hstopped, fun hj => ?_, id⟩)
    rw [hio] at hj
    cases hj
  cases e with
  | received data =>
    have hio : c.io = .returns := by
      have henabled : (c.io = .returns ∧ c.plugin.registered = true) ∧ c.plugin.ready = false := by
        simpa [enabled] using henabled
      exact henabled.1.1
    change (c.onIo (c.plugin.received realToken data)).1.alive = true at halive
    change (c.onIo (c.plugin.received realToken data)).1.Joins
    rcases (Event.received data).request_cases with ⟨data', name, token, hdata, hparse⟩ |
      ⟨data', m, hdata, hparse⟩ | hparse
    · obtain rfl : data = data' := Event.received.inj hdata
      have hreceived : c.plugin.received realToken data =
          c.plugin.processInitRequest realToken name token := by rw [TcpPlugin.received, hparse]
      rw [hreceived, TcpPlugin.processInitRequest] at halive ⊢
      cases hverdict : Core.authenticatePlugin realToken token with
      | none => exact hsame _ rfl rfl hreturns.2 hio
      | some ok =>
        rw [hverdict] at halive
        cases ok with
        | true =>
          exact h.spawnOnIo ({ c.plugin with name := name } : TcpPlugin).cancelTimer rfl _ halive
        | false => exact h.stopOnIo hio rfl rfl _
    · obtain rfl : data = data' := Event.received.inj hdata
      have hreceived : c.plugin.received realToken data = (c.plugin, [.coreSend m], .returns) := by
        rw [TcpPlugin.received, hparse]
        rfl
      rw [hreceived]
      exact hsame _ rfl rfl hreturns.1 hio
    · have hreceived : c.plugin.received realToken data = (c.plugin, [], .returns) := by
        rw [TcpPlugin.received, show TcpPlugin.parseMessage data = none from hparse]
      rw [hreceived]
      exact hsame _ rfl rfl hreturns.1 hio
  | receiveFailed =>
    have henabled : (c.io = .returns ∧ c.plugin.registered = true) ∧ c.plugin.ready = false := by
      simpa [enabled] using henabled
    exact h.stopOnIo henabled.1.1 (p := { c.plugin with ready := true }) rfl rfl _
  | timerHandler =>
    have henabled : (c.io = .returns ∧ c.plugin.registered = true) ∧ c.plugin.timer = .queued := by
      simpa [enabled] using henabled
    exact h.stopOnIo henabled.1.1 (p := { c.plugin with timer := .done }) rfl rfl _
  | stop =>
    have henabled : c.io = .returns ∧ c.plugin.registered = true := by simpa [enabled] using henabled
    exact h.stopOnIo henabled.1 rfl rfl _
  | restart =>
    have henabled : c.io = .returns ∧ c.plugin.registered = true := by simpa [enabled] using henabled
    have hkeep := c.plugin.stop_thread
    obtain ⟨⟨q, actions, k⟩, hstop⟩ : ∃ r, c.plugin.stop = r := ⟨_, rfl⟩
    rw [hstop] at hkeep
    have hstopped := h.stopOnIo henabled.1 (p := c.plugin) rfl rfl actions
    rw [hstop] at hstopped
    change (c.onIo c.plugin.restart).1.alive = true at halive
    change (c.onIo c.plugin.restart).1.Joins
    rw [TcpPlugin.restart, hstop] at halive ⊢
    cases k with
    | returns => exact h.spawnOnIo q hkeep _ halive
    | joins | waits | terminates => exact hstopped
  | signal =>
    have henabled : c.main = .returns ∧ c.plugin.registered = true := by simpa [enabled] using henabled
    exact h.stopOnMain henabled.1
  | startPlugins =>
    change (c.onMain c.plugin.spawn).1.Joins
    by_cases hnone : c.plugin.thread = none
    · have hpnone : ¬ c.plugin.thread.isSome = true := by simp [hnone]
      refine h.spawned hnone ?_ id fun hj => ?_
      · simp [onMain, TcpPlugin.spawn, Plugin.spawn, hpnone]
      · have hk := (onMain_joins hj).1
        simp [TcpPlugin.spawn, Plugin.spawn, hpnone] at hk
    · have hsome : c.plugin.thread.isSome = true := Option.isSome_iff_ne_none.mpr hnone
      have hterminates : c.plugin.spawn.2.2 = .terminates := by
        simp [TcpPlugin.spawn, Plugin.spawn, hsome]
      change (c.onMain c.plugin.spawn).1.alive = true at halive
      have hmain : (c.onMain c.plugin.spawn).1.main = .terminates := by
        change meeting c.io c.plugin c.plugin.spawn = .terminates
        obtain ⟨⟨q, actions, k⟩, hspawn⟩ : ∃ r, c.plugin.spawn = r := ⟨_, rfl⟩
        rw [hspawn] at hterminates ⊢
        obtain rfl : k = .terminates := hterminates
        rfl
      exact absurd hmain ((alive_iff _).mp halive).2
  | resume =>
    have henabled : c.main = .waits ∧ c.plugin.ready = true := by simpa [enabled] using henabled
    refine h.of_not_joins id (fun hj => ?_) (.inl ⟨rfl, id, id, fun hj => ?_⟩)
    · have hj : (if c.plugin.thread.isSome then Control.terminates else .returns) = .joins := hj
      split_ifs at hj
    · rw [henabled.1] at hj
      cases hj
  | timerExpires =>
    change Joins { c with plugin := c.plugin.timerExpires }
    unfold TcpPlugin.timerExpires
    split_ifs
    · exact ⟨h.stopped, h.io, h.main, h.once⟩
    · exact h
  | dispatch m => exact ⟨h.stopped, h.io, h.main, h.once⟩
  | worker =>
    obtain ⟨⟨taken, hw⟩, -⟩ := c.plugin.workerStep_spec
    refine h.worker hw.thread fun hstopped => ?_
    by_contra hrun
    rw [hw.running (Bool.eq_true_of_not_eq_false hrun)] at hstopped
    cases hstopped
  | workerThrows =>
    refine h.worker ?_ id
    simp [Plugin.workerThrows]

/-- No call of `spawn` finds a joinable thread exactly if all steps are guarded. -/
theorem Joins.along_iff (h : c.alive = true → c.Joins) (es : List Event) :
    (machine realToken).Along (SpawnsOnce realToken) c es ↔
      (machine realToken).Along (Guarded realToken) c es := by
  induction es generalizing c with
  | nil => exact Iff.rfl
  | cons e es ih =>
    by_cases halive : c.alive = true
    · have hnext := ih fun hnext => (h halive).step realToken e hnext
      rw [Machine.Mealy.Along, Machine.Mealy.Along, machine_step, hnext, spawnsOnce_iff realToken (h halive)]
    · have hblocked : ¬ c.Possible e := fun hp => halive ((Bool.and_eq_true _ _).mp hp).1
      have hsame : c.step realToken e = (c, []) := if_neg hblocked
      have honce : c.SpawnsOnce realToken e := by
        intro p hp
        have hnone : c.spawnsOn realToken e = none := if_neg hblocked
        rw [hnone] at hp
        cases hp
      rw [Machine.Mealy.Along, Machine.Mealy.Along, machine_step, hsame, ih h]
      exact and_congr_left fun _ => iff_of_true honce fun hp => absurd hp hblocked

end Connection
end IrcBot

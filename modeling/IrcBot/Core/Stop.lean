import IrcBot.Core.Core

/-! What stopping a plugin does, and with it `stop` of the `Core`: it does not get past the first
plugin that keeps it, and without one it goes on to the acceptors. -/
namespace IrcBot

/-- What holds of every plugin in the list between two handlers. -/
def Registered.Healthy : Registered → Prop
  | .so p => p.thread.isSome = true → p.running = true
  | .tcp p => (p.thread.isSome = true → p.running = true) ∧
      (p.socketOpen = true → p.running = true ∧ p.ready = false ∧ p.registered = true)

namespace TcpPlugin

/-- The plugin when `stop` comes to `onShutdown`. -/
def halted (p : TcpPlugin) : TcpPlugin := { p with running := false, thread := none }

/-- A running plugin goes into `onShutdown` without a thread, after a `join` or at once. -/
theorem settle_stop {p : TcpPlugin} (hrun : p.running = true) (ht : p.thread ≠ some .starting) :
    settle p.stop = (p.halted.onShutdown.1, p.halted.onShutdown.2.2) := by
  have hshutdown : ∀ q : TcpPlugin, settle q.onShutdown = (q.onShutdown.1, q.onShutdown.2.2) := by
    intro q
    cases ho : q.socketOpen with
    | false => rw [onShutdown_closed ho]; rfl
    | true =>
      cases hr : q.ready with
      | false => rw [onShutdown_waits ho hr]; rfl
      | true => rw [onShutdown_ready ho hr]; rfl
  by_cases hsome : p.thread.isSome = true
  · rw [stop_of_spawned hrun hsome, settle]
    exact if_neg ht
  · have hnone : p.thread = none := by simpa using hsome
    have hhalted : ({ p with running := false } : TcpPlugin) = p.halted := by
      unfold halted
      rw [← hnone]
    rw [stop_of_not_spawned hrun hnone, hhalted]
    exact hshutdown p.halted

/-- The worker of an open connection that has only been created keeps the `join`. -/
theorem settle_stop_starting {p : TcpPlugin} (hrun : p.running = true)
    (ht : p.thread = some .starting) (ho : p.socketOpen = true) :
    settle p.stop = ({ p with running := false }, .joins) := by
  have hsome : p.thread.isSome = true := by rw [ht]; rfl
  rw [stop_of_spawned hrun hsome, settle]
  dsimp only
  rw [if_pos ht, if_pos ho]

/-- On a closed connection such a worker ends in `onInit`, with the flag set. -/
theorem settle_stop_begun {p : TcpPlugin} (hrun : p.running = true)
    (ht : p.thread = some .starting) (hc : p.socketOpen = false) :
    settle p.stop = ({ p with thread := none }.cancelTimer, .returns) := by
  have hsome : p.thread.isSome = true := by rw [ht]; rfl
  have hclosed : ({ p with running := true, thread := none } : TcpPlugin).socketOpen = false := hc
  have hsame : ({ p with running := true, thread := none } : TcpPlugin) = { p with thread := none } := by
    rw [← hrun]
  have hjoined := onShutdown_closed hclosed
  rw [stop_of_spawned hrun hsome, settle]
  dsimp only
  rw [if_pos ht, if_neg (by rw [hc]; nofun), joined, hjoined, hsame]

/-- A plugin that is not running has been stopped already. -/
theorem settle_stop_stopped {p : TcpPlugin} (hrun : p.running = false) :
    settle p.stop = (p, .returns) := by
  unfold stop
  rw [if_pos (by simp [hrun])]
  rfl

end TcpPlugin

namespace Registered

private theorem thread_eq_none {p : Plugin} (h : p.thread.isSome = true → p.running = true)
    (hrun : p.running = false) : p.thread = none := by
  cases ht : p.thread with
  | none => rfl
  | some w =>
    rw [h (by simp [ht])] at hrun
    cases hrun

/-- Stopping a plugin that keeps the io thread waits for the promise of its connection, or does
not come so far. -/
theorem Healthy.stop_blocked {r : Registered} (h : r.Healthy) (hb : r.blocks = true) :
    r.stop.2 = if r.isStarting then .joins else .waits := by
  cases r with
  | so p =>
    have ht : p.thread = some .starting := of_decide_eq_true hb
    have hrun : p.running = true := h (by rw [ht]; rfl)
    have hstarting : (Registered.so p).isStarting = true := decide_eq_true ht
    rw [hstarting]
    change p.stop.2 = .joins
    unfold Plugin.stop
    rw [if_neg (not_not.mpr hrun), if_pos ht]
  | tcp p =>
    have ho : p.socketOpen = true := hb
    obtain ⟨hrun, hready, -⟩ := h.2 ho
    change (TcpPlugin.settle p.stop).2 = _
    by_cases ht : p.thread = some .starting
    · have hstarting : (Registered.tcp p).isStarting = true := decide_eq_true ht
      rw [TcpPlugin.settle_stop_starting hrun ht ho, hstarting]
      rfl
    · have hstarting : (Registered.tcp p).isStarting = false := decide_eq_false ht
      rw [TcpPlugin.settle_stop hrun ht, TcpPlugin.onShutdown_waits (p := p.halted) ho hready, hstarting]
      rfl

theorem stop_blocked_cases {r : Registered} (hb : r.blocks = true) :
    (r.awaits = true ∧ (if r.isStarting then Control.joins else .waits) = .waits) ∨
      (r.awaits = false ∧ (if r.isStarting then Control.joins else .waits) = .joins) := by
  unfold awaits
  rw [hb]
  cases r.isStarting with
  | true => exact .inr ⟨rfl, rfl⟩
  | false => exact .inl ⟨rfl, rfl⟩

theorem Healthy.stop_ne_returns {r : Registered} (h : r.Healthy) (hb : r.blocks = true) :
    r.stop.2 ≠ .returns := by
  rw [h.stop_blocked hb]
  split_ifs <;> nofun

/-- Stopping any other plugin returns and leaves no thread. -/
theorem Healthy.stop_free {r : Registered} (h : r.Healthy) (hb : r.blocks = false) :
    r.stop.2 = .returns ∧ r.stop.1.base.thread = none ∧ r.stop.1.isOpen = false ∧
      r.stop.1.isRemoved = r.isRemoved ∧ r.stop.1.getId = r.getId ∧ r.stop.1.isSo = r.isSo := by
  cases r with
  | so p =>
    have h : p.thread.isSome = true → p.running = true := h
    have ht : p.thread ≠ some .starting := of_decide_eq_false hb
    change p.stop.2 = _ ∧ p.stop.1.thread = none ∧ _ ∧ _ ∧ p.stop.1.id = p.id ∧ _
    unfold Plugin.stop
    rw [if_neg ht]
    cases hrun : p.running with
    | true => exact ⟨rfl, rfl, rfl, rfl, rfl, rfl⟩
    | false => exact ⟨rfl, thread_eq_none h hrun, rfl, rfl, rfl, rfl⟩
  | tcp p =>
    have hc : p.socketOpen = false := hb
    have hstop : (Registered.tcp p).stop =
        (.tcp (TcpPlugin.settle p.stop).1, (TcpPlugin.settle p.stop).2) := rfl
    rw [hstop]
    cases hrun : p.running with
    | true =>
      by_cases ht : p.thread = some .starting
      · rw [TcpPlugin.settle_stop_begun hrun ht hc]
        exact ⟨rfl, rfl, hc, rfl, rfl, rfl⟩
      · rw [TcpPlugin.settle_stop hrun ht, TcpPlugin.onShutdown_closed (p := p.halted) hc]
        exact ⟨rfl, rfl, hc, rfl, rfl, rfl⟩
    | false =>
      rw [TcpPlugin.settle_stop_stopped hrun]
      exact ⟨rfl, thread_eq_none h.1 hrun, hc, rfl, rfl, rfl⟩

/-- Such a stop does not close the connection. -/
theorem Healthy.stop_stays {r : Registered} (h : r.Healthy) (hb : r.blocks = false) :
    (r.isOpen && !r.stop.1.isOpen) = false := by
  cases r with
  | so p => rfl
  | tcp p =>
    have hc : p.socketOpen = false := hb
    simp [isOpen, hc]

/-- On the io thread nothing is released. -/
@[simp] theorem release_nil (r : Registered) : r.release [] = r := by
  cases r <;> simp [release]

/-- What becomes of a TCP plugin that is stopped while these connections end. -/
theorem settle_stop_released (p : TcpPlugin) (ready : Bool) :
    ((TcpPlugin.settle { p with ready := ready }.stop).2 = .returns ↔
      (p.running && p.socketOpen && (p.thread = some .starting || !ready)) = false) ∧
    ((TcpPlugin.settle { p with ready := ready }.stop).2 = .returns →
      (p.socketOpen && !(TcpPlugin.settle { p with ready := ready }.stop).1.socketOpen) =
        (p.running && p.socketOpen)) := by
  obtain ⟨q, hq⟩ : ∃ q : TcpPlugin, q = { p with ready := ready } := ⟨_, rfl⟩
  have hrun : q.running = p.running := by rw [hq]
  have hopen : q.socketOpen = p.socketOpen := by rw [hq]
  have hthread : q.thread = p.thread := by rw [hq]
  have hready : q.ready = ready := by rw [hq]
  rw [← hq, ← hrun, ← hopen, ← hthread, ← hready]
  by_cases hrun : q.running = true
  swap
  · rw [TcpPlugin.settle_stop_stopped (Bool.eq_false_of_not_eq_true hrun)]
    simp [hrun]
  by_cases ht : q.thread = some .starting
  · by_cases ho : q.socketOpen = true
    · rw [TcpPlugin.settle_stop_starting hrun ht ho]
      simp [hrun, ht, ho]
    · have hc := Bool.eq_false_of_not_eq_true ho
      rw [TcpPlugin.settle_stop_begun hrun ht hc]
      simp [hc]
  · rw [TcpPlugin.settle_stop hrun ht]
    by_cases ho : q.socketOpen = true
    · by_cases hr : q.ready = true
      · rw [TcpPlugin.onShutdown_ready (p := q.halted) ho hr]
        simp [hrun, ht, ho, hr]
      · have hr := Bool.eq_false_of_not_eq_true hr
        rw [TcpPlugin.onShutdown_waits (p := q.halted) ho hr]
        simp [hrun, ho, hr]
    · have hc := Bool.eq_false_of_not_eq_true ho
      rw [TcpPlugin.onShutdown_closed (p := q.halted) hc]
      simp [hc]

/-- A stop comes back exactly if nothing keeps it. -/
theorem stop_released_iff (r : Registered) (released : List Bytes) :
    (r.release released).stop.2 = .returns ↔ r.keeps released = false := by
  cases r with
  | so p =>
    change p.stop.2 = .returns ↔ (p.running && p.thread = some .starting) = false
    unfold Plugin.stop
    by_cases ht : p.thread = some .starting <;> cases hrun : p.running <;> simp [ht]
  | tcp p =>
    refine (settle_stop_released p (p.ready || (p.socketOpen && released.contains p.id))).1.trans ?_
    cases ho : p.socketOpen <;> simp [keeps, ho]

/-- It closes the connection exactly if the plugin unregisters itself. -/
theorem stop_released_open (r : Registered) (released : List Bytes)
    (h : (r.release released).stop.2 = .returns) :
    (r.isOpen && !(r.release released).stop.1.isOpen) = r.unregisters := by
  cases r with
  | so p => rfl
  | tcp p => exact (settle_stop_released p (p.ready || (p.socketOpen && released.contains p.id))).2 h

/-- It leaves no thread. -/
theorem Healthy.stop_released_thread {r : Registered} (h : r.Healthy) (released : List Bytes)
    (hret : (r.release released).stop.2 = .returns) :
    (r.release released).stop.1.base.thread = none := by
  cases r with
  | so p =>
    have hkeeps := (stop_released_iff (.so p) released).mp hret
    have h : p.thread.isSome = true → p.running = true := h
    change p.stop.1.thread = none
    unfold Plugin.stop
    cases hrun : p.running with
    | false => exact thread_eq_none h hrun
    | true =>
      have ht : p.thread ≠ some .starting := by simpa [keeps, hrun] using hkeeps
      rw [if_neg ht]
      rfl
  | tcp p =>
    obtain ⟨q, hq⟩ : ∃ q : TcpPlugin,
      q = { p with ready := p.ready || (p.socketOpen && released.contains p.id) } := ⟨_, rfl⟩
    have hthread : q.thread.isSome = true → q.running = true := by
      rw [hq]
      exact h.1
    have hret : (TcpPlugin.settle q.stop).2 = .returns := by
      rw [hq]
      exact hret
    have hgoal : (TcpPlugin.settle q.stop).1.thread = none := by
      by_cases hrun : q.running = true
      · by_cases ht : q.thread = some .starting
        · cases ho : q.socketOpen with
          | true =>
            rw [TcpPlugin.settle_stop_starting hrun ht ho] at hret
            cases hret
          | false =>
            rw [TcpPlugin.settle_stop_begun hrun ht ho]
            rfl
        · rw [TcpPlugin.settle_stop hrun ht]
          cases ho : q.socketOpen with
          | false =>
            rw [TcpPlugin.onShutdown_closed (p := q.halted) ho]
            rfl
          | true =>
            cases hr : q.ready with
            | false =>
              rw [TcpPlugin.onShutdown_waits (p := q.halted) ho hr]
              rfl
            | true =>
              rw [TcpPlugin.onShutdown_ready (p := q.halted) ho hr]
              rfl
      · have hrun := Bool.eq_false_of_not_eq_true hrun
        rw [TcpPlugin.settle_stop_stopped hrun]
        exact thread_eq_none hthread hrun
    rw [hq] at hgoal
    exact hgoal

theorem Healthy.stopInList_blocked {r : Registered} (h : r.Healthy) (hb : r.blocks = true) :
    r.stopInList.2 = if r.isStarting then .joins else .waits := by
  have hstop := h.stop_blocked hb
  have hne := h.stop_ne_returns hb
  unfold stopInList
  split
  · next q hq => rw [hq] at hne; exact absurd rfl hne
  · next q k hk hq => rw [hq] at hstop; exact hstop

theorem Healthy.stopInList_free {r : Registered} (h : r.Healthy) (hb : r.blocks = false) :
    r.stopInList = (r.stop.1, .returns) := by
  obtain ⟨hret, -, -, hrem, -⟩ := h.stop_free hb
  obtain ⟨⟨q, k⟩, hq⟩ : ∃ x, r.stop = x := ⟨_, rfl⟩
  rw [hq] at hret hrem
  obtain rfl : k = .returns := hret
  have hrem : q.isRemoved = r.isRemoved := hrem
  simp [stopInList, hq, hrem]

end Registered

namespace Core

/-- All plugins of a list stop if none of them keeps its `stop`. -/
theorem stopEach_free {rs : List Registered} (h : ∀ r ∈ rs, r.Healthy)
    (hb : ∀ r ∈ rs, r.blocks = false) (done : List Registered) :
    stopEach [] done rs = (done ++ rs.map fun r : Registered => r.stop.1, .returns) := by
  induction rs generalizing done with
  | nil => simp [stopEach]
  | cons r rs ih =>
    obtain ⟨hret, -, hopen, -⟩ := (h r (by simp)).stop_free (hb r (by simp))
    have hstays := (h r (by simp)).stop_stays (hb r (by simp))
    have hrest := ih (fun q hq => h q (by simp [hq])) fun q hq => hb q (by simp [hq])
    obtain ⟨⟨q, k⟩, hq⟩ : ∃ x, r.stop = x := ⟨_, rfl⟩
    rw [hq] at hret hstays
    obtain rfl : k = .returns := hret
    have hstays : (r.isOpen && !q.isOpen) = false := hstays
    simp [stopEach, hq, hstays, hrest]

theorem stopEach_blocked {rs : List Registered} (h : ∀ r ∈ rs, r.Healthy) {r : Registered}
    (hr : rs.find? Registered.blocks = some r) (done : List Registered) :
    (stopEach [] done rs).2 = if r.isStarting then .joins else .waits := by
  induction rs generalizing done with
  | nil => cases hr
  | cons q rs ih =>
    cases hb : q.blocks with
    | true =>
      obtain rfl : q = r := by simpa [List.find?_cons, hb] using hr
      have hstop := (h q (by simp)).stop_blocked hb
      have hne := (h q (by simp)).stop_ne_returns hb
      obtain ⟨⟨q', k⟩, hq⟩ : ∃ x, q.stop = x := ⟨_, rfl⟩
      rw [hq] at hstop hne
      rw [← hstop]
      cases k with
      | returns => exact absurd rfl hne
      | joins | waits | terminates => simp [stopEach, hq]
    | false =>
      obtain ⟨hret, -⟩ := (h q (by simp)).stop_free hb
      have hstays := (h q (by simp)).stop_stays hb
      have hrest := ih (fun p hp => h p (by simp [hp])) (by simpa [List.find?_cons, hb] using hr)
      obtain ⟨⟨q', k⟩, hq⟩ : ∃ x, q.stop = x := ⟨_, rfl⟩
      rw [hq] at hret hstays
      obtain rfl : k = .returns := hret
      have hstays : (q.isOpen && !q'.isOpen) = false := hstays
      simp [stopEach, hq, hstays, hrest]

/-- A list is stopped exactly if no plugin of it keeps `stop`, and none takes itself out in front
of another one. -/
theorem stopEach_returns_iff (released : List Bytes) (done rs : List Registered) :
    (stopEach released done rs).2 = .returns ↔
      (∀ r ∈ rs, r.keeps released = false) ∧ ∀ r ∈ rs.dropLast, r.unregisters = false := by
  induction rs generalizing done with
  | nil => simp [stopEach]
  | cons r rs ih =>
    have hret := r.stop_released_iff released
    have hgone := r.stop_released_open released
    obtain ⟨⟨q, k⟩, hq⟩ : ∃ x, (r.release released).stop = x := ⟨_, rfl⟩
    rw [hq] at hret hgone
    rw [stopEach, hq, List.forall_mem_cons, ← hret]
    cases k with
    | returns =>
      have hgone : (r.isOpen && !q.isOpen) = r.unregisters := hgone rfl
      dsimp only
      rw [hgone]
      cases hu : r.unregisters with
      | false => cases rs <;> simp [ih, hu]
      | true => cases rs <;> simp [hu]
    | joins | waits | terminates => simp

/-- Every plugin of the list can be stopped, or there is a first one that cannot. -/
theorem blocks_cases (rs : List Registered) :
    (∀ r ∈ rs, r.blocks = false) ∨ ∃ r, rs.find? Registered.blocks = some r := by
  cases hr : rs.find? Registered.blocks with
  | none => exact .inl fun r hmem => by simpa using List.find?_eq_none.mp hr r hmem
  | some r => exact .inr ⟨r, rfl⟩

theorem stop_blocked {c : Core} (h : ∀ r ∈ c.plugins, r.Healthy) {r : Registered}
    (hr : c.plugins.find? Registered.blocks = some r) :
    c.stop.2 = if r.isStarting then .joins else .waits := by
  have hwait : ({ c with running := false } : Core).stopPlugins.2 = _ :=
    stopEach_blocked h hr []
  obtain ⟨⟨d, k⟩, hd⟩ : ∃ x, ({ c with running := false } : Core).stopPlugins = x := ⟨_, rfl⟩
  rw [hd] at hwait
  have hk : k = if r.isStarting then .joins else .waits := hwait
  rw [stop, hd, ← hk]
  cases k with
  | returns => split_ifs at hk
  | joins | waits | terminates => rfl

/-- Without a plugin that keeps it `stop` goes on to the two acceptors. -/
theorem stop_free {c : Core} (h : ∀ r ∈ c.plugins, r.Healthy)
    (hb : ∀ r ∈ c.plugins, r.blocks = false) :
    c.stop =
      andThen
        { c with
          running := false
          plugins := c.plugins.map fun r : Registered => r.stop.1 }.stopTcpPluginServer
        fun c => andThen { c with plugins := [] }.stopAdminPort setStopPromise := by
  have hstop : ({ c with running := false } : Core).stopPlugins =
      ({ c with running := false, plugins := c.plugins.map fun r : Registered => r.stop.1 }, .returns) := by
    simp [stopPlugins, stopEach_free h hb]
  have hthread : ∀ d : Core, d.plugins = c.plugins.map (fun r : Registered => r.stop.1) →
      d.deinitializePlugins = ({ d with plugins := [] }, .returns) := by
    intro d hd
    have hnone : (d.plugins.any fun r => r.base.thread.isSome) = false := by
      rw [hd, List.any_eq_false]
      intro q hq
      obtain ⟨r, hr, rfl⟩ := List.mem_map.mp hq
      simp [((h r hr).stop_free (hb r hr)).2.1]
    simp [deinitializePlugins, hnone]
  rw [stop, hstop]
  unfold stopTcpPluginServer
  cases hs : c.tcpPluginServer with
  | none => simp [andThen, hthread]
  | some a =>
    cases a with
    | mk isOpen => cases isOpen <;> simp [andThen, hthread, Acceptor.stop]

/-- A `stop` that gets past the plugins leaves none of their threads. -/
theorem stopEach_threads {released : List Bytes} {done rs : List Registered}
    (h : ∀ r ∈ rs, r.Healthy) (hdone : ∀ r ∈ done, r.base.thread = none)
    (hret : (stopEach released done rs).2 = .returns) :
    ∀ r ∈ (stopEach released done rs).1, r.base.thread = none := by
  induction rs generalizing done with
  | nil => exact hdone
  | cons r rs ih =>
    have hthread := (h r (by simp)).stop_released_thread released
    obtain ⟨⟨q, k⟩, hq⟩ : ∃ x, (r.release released).stop = x := ⟨_, rfl⟩
    rw [hq] at hthread
    rw [stopEach, hq] at hret ⊢
    cases k with
    | returns =>
      have hthread : q.base.thread = none := hthread rfl
      dsimp only at hret ⊢
      by_cases hclosed : (r.isOpen && !q.isOpen) = true
      · rw [if_pos hclosed] at hret ⊢
        have hend : rs = [] := by simpa using hret
        subst hend
        intro p hp
        rcases List.mem_append.mp (List.mem_of_mem_eraseP hp) with hp | hp
        · exact hdone p hp
        · rw [List.mem_singleton.mp hp]
          exact hthread
      · rw [if_neg hclosed] at hret ⊢
        refine ih (fun p hp => h p (by simp [hp])) (fun p hp => ?_) hret
        rcases List.mem_append.mp hp with hp | hp
        · exact hdone p hp
        · rw [List.mem_singleton.mp hp]
          exact hthread
    | joins | waits | terminates => cases hret

/-- A single `stop` can end the run: nothing keeps it at a plugin, and none but the last one takes
itself out of the list; it finds no acceptor that has been stopped before, and the promise has no
value. -/
def Stoppable (c : Core) (released : List Bytes := []) : Prop :=
  (∀ r ∈ c.plugins, r.keeps released = false) ∧ (∀ r ∈ c.plugins.dropLast, r.unregisters = false) ∧
    c.tcpPluginServer ≠ some ⟨false⟩ ∧ c.adminPort ≠ some ⟨false⟩ ∧ c.stopPromise = none

theorem stop_returns_iff {c : Core} (h : ∀ r ∈ c.plugins, r.Healthy) (released : List Bytes := []) :
    (c.stop released).2 = .returns ↔ c.Stoppable released := by
  have hiff := stopEach_returns_iff released [] c.plugins
  have hthreads := @stopEach_threads released [] _ h (by simp)
  obtain ⟨⟨rs, k⟩, hrs⟩ : ∃ x, stopEach released [] c.plugins = x := ⟨_, rfl⟩
  rw [hrs] at hiff hthreads
  have hstop : ({ c with running := false } : Core).stopPlugins released =
      ({ c with running := false, plugins := rs }, k) := by
    simp [stopPlugins, hrs]
  rw [stop, hstop, Stoppable, ← and_assoc, ← hiff]
  cases k with
  | joins | waits | terminates => simp [andThen]
  | returns =>
    have hnone : (rs.any fun r => r.base.thread.isSome) = false := by
      rw [List.any_eq_false]
      intro r hr
      simp [hthreads rfl r hr]
    obtain hs | ⟨⟨_ | _⟩, hs⟩ := Option.eq_none_or_eq_some c.tcpPluginServer <;>
      obtain ha | ⟨⟨_ | _⟩, ha⟩ := Option.eq_none_or_eq_some c.adminPort <;>
        by_cases hp : c.stopPromise = none <;>
          simp [stopTcpPluginServer, hs, stopAdminPort, ha, Acceptor.stop, andThen, setStopPromise, hp,
            deinitializePlugins, hnone]

end Core
end IrcBot

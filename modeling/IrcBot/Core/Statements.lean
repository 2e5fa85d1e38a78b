import IrcBot.Core.Stop

/-! The statements of `run`, of `stop` and of the handlers that call it, one by one: the main
thread executes the one while the io thread executes the other. -/
namespace IrcBot

/-- A statement of `run` or of a handler that stops the bot. `handlers` is what all other handlers
and the workers make of the list meanwhile. -/
inductive Statement
  | connect (reached : Bool)
  | initializePlugins (configured : List Bytes)
  | startPlugins
  | startTcpPluginServer
  | startAdminPort
  | setConnectionError
  | disconnect
  | stopPlugins (released : List Bytes)
  | stopTcpPluginServer
  | deinitializePlugins
  | stopAdminPort
  | setStopPromise
  | startReceiving
  | handlers (present : List Registered)
  deriving DecidableEq, Repr

namespace Core

/-- What handlers and workers can make of the list: only the plugin server brings a plugin into an
empty one, and plugins from files do not get lost. -/
def Admits (c : Core) (present : List Registered) : Prop :=
  (c.plugins = [] → c.tcpPluginServer ≠ some ⟨true⟩ → present = []) ∧
    (c.plugins.any Registered.isSo = true → present.any Registered.isSo = true)

instance (c : Core) (present : List Registered) : Decidable (c.Admits present) :=
  inferInstanceAs (Decidable (_ ∧ _))

end Core

namespace Statement

def call (c : Core) : Statement → Core × Control
  -- the loop in it goes on until the server can be reached
  | connect reached => (c, if reached then .returns else .waits)
  | initializePlugins configured => (c.initializePlugins configured, .returns)
  | startPlugins => c.startPlugins
  | startTcpPluginServer => (c.startTcpPluginServer, .returns)
  | startAdminPort => (c.startAdminPort, .returns)
  | setConnectionError => ({ c with result := .connectionError }, .returns)
  | disconnect => ({ c with running := false }, .returns)
  | stopPlugins released => c.stopPlugins released
  | stopTcpPluginServer => c.stopTcpPluginServer
  | deinitializePlugins => c.deinitializePlugins
  | stopAdminPort => c.stopAdminPort
  | setStopPromise => c.setStopPromise
  -- of a session that `stop` has destroyed with the admin port
  | startReceiving => (c, .terminates)
  | handlers present => (if c.Admits present then { c with plugins := present } else c, .returns)

/-- What a statement needs of the state that it finds. -/
def Guard (c : Core) : Statement → Prop
  | connect reached => reached = true
  | startPlugins | deinitializePlugins => ∀ r ∈ c.plugins, r.base.thread = none
  | stopPlugins released =>
    (∀ r ∈ c.plugins, r.keeps released = false) ∧ ∀ r ∈ c.plugins.dropLast, r.unregisters = false
  | stopTcpPluginServer => c.tcpPluginServer ≠ some ⟨false⟩
  | stopAdminPort => c.adminPort ≠ some ⟨false⟩
  | setStopPromise => c.stopPromise = none
  | startReceiving => False
  | initializePlugins _ | startTcpPluginServer | startAdminPort | setConnectionError | disconnect
  | handlers _ => True

end Statement

namespace Core

/-- Neither the result nor the promise has changed. -/
def Keeps (c d : Core) : Prop := d.result = c.result ∧ d.stopPromise = c.stopPromise

theorem startTcpPluginServer_keeps (c : Core) : c.Keeps c.startTcpPluginServer := by
  unfold startTcpPluginServer
  split <;> exact ⟨rfl, rfl⟩

theorem startAdminPort_keeps (c : Core) : c.Keeps c.startAdminPort := by
  unfold startAdminPort
  split <;> exact ⟨rfl, rfl⟩

theorem stopTcpPluginServer_keeps (c : Core) : c.Keeps c.stopTcpPluginServer.1 := by
  unfold stopTcpPluginServer
  split <;> exact ⟨rfl, rfl⟩

theorem deinitializePlugins_keeps (c : Core) : c.Keeps c.deinitializePlugins.1 := by
  unfold deinitializePlugins
  split <;> exact ⟨rfl, rfl⟩

theorem stopAdminPort_keeps (c : Core) : c.Keeps c.stopAdminPort.1 := by
  unfold stopAdminPort
  split
  · exact ⟨rfl, rfl⟩
  · split <;> exact ⟨rfl, rfl⟩

/-- Threads can be created exactly for plugins that have none. -/
theorem forEach_spawn_returns_iff (rs : List Registered) :
    (forEach Registered.spawn rs).2 = .returns ↔ ∀ r ∈ rs, r.base.thread = none := by
  have hspawn : ∀ r : Registered, r.spawn.2 = .returns ↔ r.base.thread = none := by
    intro r
    cases r with
    | so p =>
      change p.spawn.2 = .returns ↔ p.thread = none
      unfold Plugin.spawn
      cases p.thread <;> simp
    | tcp p =>
      change p.toPlugin.spawn.2 = .returns ↔ p.thread = none
      unfold Plugin.spawn
      cases p.thread <;> simp
  induction rs with
  | nil => simp [forEach]
  | cons r rs ih =>
    obtain ⟨⟨q, k⟩, hq⟩ : ∃ x, r.spawn = x := ⟨_, rfl⟩
    have hr := hspawn r
    rw [hq] at hr
    rw [List.forall_mem_cons, ← hr, forEach, hq]
    cases k with
    | returns => simpa using ih
    | joins | waits | terminates => simp

end Core

namespace Statement

/-- Only two statements touch the result and the promise. -/
theorem call_keeps (c : Core) {s : Statement} (hresult : s ≠ .setConnectionError)
    (hpromise : s ≠ .setStopPromise) : c.Keeps (s.call c).1 := by
  cases s with
  | setConnectionError => exact absurd rfl hresult
  | setStopPromise => exact absurd rfl hpromise
  | connect | initializePlugins | startPlugins | disconnect | stopPlugins | startReceiving =>
    exact ⟨rfl, rfl⟩
  | handlers present =>
    change c.Keeps (if _ then _ else _)
    split_ifs <;> exact ⟨rfl, rfl⟩
  | startTcpPluginServer => exact c.startTcpPluginServer_keeps
  | startAdminPort => exact c.startAdminPort_keeps
  | stopTcpPluginServer => exact c.stopTcpPluginServer_keeps
  | deinitializePlugins => exact c.deinitializePlugins_keeps
  | stopAdminPort => exact c.stopAdminPort_keeps

/-- A statement comes back exactly if it finds what it needs. -/
theorem call_returns_iff (c : Core) (s : Statement) : (s.call c).2 = .returns ↔ s.Guard c := by
  cases s with
  | connect reached => cases reached <;> simp [call, Guard]
  | startPlugins => exact Core.forEach_spawn_returns_iff c.plugins
  | stopPlugins released => exact Core.stopEach_returns_iff released [] c.plugins
  | deinitializePlugins =>
    change c.deinitializePlugins.2 = .returns ↔ ∀ r ∈ c.plugins, r.base.thread = none
    unfold Core.deinitializePlugins
    by_cases hany : (c.plugins.any fun r => r.base.thread.isSome) = true
    · rw [if_pos hany]
      obtain ⟨r, hr, ht⟩ := List.any_eq_true.mp hany
      refine iff_of_false nofun fun hnone => ?_
      rw [hnone r hr] at ht
      cases ht
    · rw [if_neg hany]
      refine iff_of_true rfl fun r hr => ?_
      by_contra ht
      exact hany (List.any_eq_true.mpr ⟨r, hr, Option.isSome_iff_ne_none.mpr ht⟩)
  | stopTcpPluginServer =>
    change c.stopTcpPluginServer.2 = .returns ↔ c.tcpPluginServer ≠ some ⟨false⟩
    unfold Core.stopTcpPluginServer Acceptor.stop
    obtain hs | ⟨⟨_ | _⟩, hs⟩ := Option.eq_none_or_eq_some c.tcpPluginServer <;> simp [hs]
  | stopAdminPort =>
    change c.stopAdminPort.2 = .returns ↔ c.adminPort ≠ some ⟨false⟩
    unfold Core.stopAdminPort Acceptor.stop
    obtain hs | ⟨⟨_ | _⟩, hs⟩ := Option.eq_none_or_eq_some c.adminPort <;> simp [hs]
  | setStopPromise =>
    change c.setStopPromise.2 = .returns ↔ c.stopPromise = none
    unfold Core.setStopPromise
    by_cases hp : c.stopPromise = none <;> simp [hp]
  | startReceiving => exact iff_of_false nofun id
  | initializePlugins | startTcpPluginServer | startAdminPort | setConnectionError | disconnect
  | handlers => exact iff_of_true rfl trivial

end Statement

namespace Core

/-- The state after a call, if it returns. -/
def returned (r : Core × Control) : Option Core := if r.2 = .returns then some r.1 else none

def exec (c : Core) (s : Statement) : Option Core := returned (s.call c)

/-- Every statement finds what it needs in the state that the ones before it leave. -/
def Meets : Core → List Statement → Prop
  | _, [] => True
  | c, s :: statements => s.Guard c ∧ Meets (s.call c).1 statements

def runStatements (reached : Bool) (configured : List Bytes) : List Statement :=
  [.connect reached, .initializePlugins configured, .startPlugins, .startTcpPluginServer, .startAdminPort]

def stopStatements (released : List Bytes) : List Statement :=
  [.disconnect, .stopPlugins released, .stopTcpPluginServer, .deinitializePlugins, .stopAdminPort,
    .setStopPromise]

theorem returned_eq_some {r : Core × Control} {c : Core} : returned r = some c ↔ r = (c, .returns) := by
  obtain ⟨d, k⟩ := r
  unfold returned
  by_cases hk : k = .returns <;> simp [hk]

theorem returned_andThen (r : Core × Control) (f : Core → Core × Control) :
    returned (andThen r f) = (returned r).bind fun c => returned (f c) := by
  obtain ⟨c, k⟩ := r
  cases k <;> rfl

theorem exec_eq_some {c d : Core} {s : Statement} :
    exec c s = some d ↔ s.call c = (d, .returns) := returned_eq_some

/-- Statements come to their end exactly if each of them finds what it needs. -/
theorem foldlM_exec_iff (c : Core) (statements : List Statement) :
    (∃ d, statements.foldlM exec c = some d) ↔ c.Meets statements := by
  induction statements generalizing c with
  | nil => exact iff_of_true ⟨c, rfl⟩ trivial
  | cons s statements ih =>
    rw [Meets, ← s.call_returns_iff c, ← ih, List.foldlM_cons, exec, returned]
    by_cases hret : (s.call c).2 = .returns
    · simp [hret]
    · simp [hret]

/-- The beginning of `run`. -/
def begun (c : Core) : Core := { c with running := true, stopPromise := none }

/-- Without another thread `run` is its statements one after the other. -/
theorem foldlM_runStatements (configured : List Bytes) (c : Core) :
    (runStatements true configured).foldlM exec c.begun = returned (c.run configured) := by
  rw [run, returned_andThen]
  rfl

theorem foldlM_stopStatements (released : List Bytes) (c : Core) :
    (stopStatements released).foldlM exec c = returned (c.stop released) := by
  simp only [stop, returned_andThen, stopStatements, List.foldlM_cons, List.foldlM_nil, bind_pure]
  rfl

theorem exec_stopPromise {c d : Core} {s : Statement} (hs : s ≠ .setStopPromise)
    (h : exec c s = some d) : d.stopPromise = c.stopPromise := by
  rw [exec_eq_some] at h
  by_cases hresult : s = .setConnectionError
  · subst hresult
    obtain rfl : _ = d := congrArg Prod.fst h
    rfl
  · have hkeep := (Statement.call_keeps c hresult hs).2
    rw [h] at hkeep
    exact hkeep

/-- Statements that do not set the promise keep it. -/
theorem foldlM_stopPromise {statements : List Statement} (hs : .setStopPromise ∉ statements)
    {c d : Core} (h : statements.foldlM exec c = some d) : d.stopPromise = c.stopPromise := by
  induction statements generalizing c with
  | nil =>
    obtain rfl : c = d := by simpa using h
    rfl
  | cons s statements ih =>
    rw [List.mem_cons, not_or] at hs
    rw [List.foldlM_cons] at h
    obtain ⟨c', hc', hrest⟩ := Option.bind_eq_some_iff.mp h
    rw [ih hs.2 hrest, exec_stopPromise (Ne.symm hs.1) hc']

/-- One that does sets it to the result. -/
theorem exec_setStopPromise {c d : Core} (h : exec c .setStopPromise = some d) :
    c.stopPromise = none ∧ d = { c with stopPromise := some c.result } := by
  have hset : c.setStopPromise = (d, .returns) := exec_eq_some.mp h
  unfold setStopPromise at hset
  by_cases hp : c.stopPromise = none
  · rw [if_pos hp] at hset
    exact ⟨hp, (congrArg Prod.fst hset).symm⟩
  · rw [if_neg hp] at hset
    cases congrArg Prod.snd hset

end Core
end IrcBot

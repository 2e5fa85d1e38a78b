import IrcBot.Core.Waiting

/-! The io thread in a run of the bot. It waits for itself as soon as a handler stops a plugin
with an open connection: the timer of the plugin, a refused token, a command of the admin
port or the end of the IRC connection. The one exception is a worker that has only been created:
the io thread stays in the `join` in front of the wait. -/
namespace IrcBot
namespace System

/-- The io thread does not wait, and the plugins are healthy between two handlers. -/
def Invariant (s : System) : Prop := Core.Kept (s.core, s.io)

theorem modify_invariant {s : System} (h : s.Invariant) (i : Nat) {f : Registered → Registered}
    (hf : ∀ r, r.Healthy → (f r).Healthy) : (s.modify i f).Invariant := by
  refine ⟨h.1, fun hio q hq => ?_⟩
  obtain ⟨j, hj⟩ := List.mem_iff_getElem?.mp hq
  have hj : (s.core.plugins.modify i f)[j]? = some q := hj
  rw [List.getElem?_modify] at hj
  obtain ⟨r, hr, rfl⟩ := Option.map_eq_some_iff.mp hj
  have hr := h.2 hio r (List.mem_of_getElem? hr)
  by_cases hij : i = j
  · rw [if_pos hij]
    exact hf r hr
  · rw [if_neg hij]
    exact hr

theorem unregister_kept (id : Bytes) {c : Core} (h : ∀ r ∈ c.plugins, r.Healthy) :
    Core.Kept (unregister id c) := by
  unfold unregister
  cases c.findPlugin id with
  | none => exact ⟨nofun, fun _ => h⟩
  | some r =>
    refine ⟨?_, fun _ q hq => h q (List.mem_of_mem_eraseP hq)⟩
    by_cases ht : r.base.thread.isSome = true <;> simp [ht]

theorem handler_waits {s : System} {i : Nat} {enabled : TcpPlugin → Bool}
    {f : TcpPlugin → TcpPlugin × List Action × Control} {p : TcpPlugin}
    (hp : s.core.plugins[i]? = some (.tcp p)) (he : enabled p = true)
    (hw : (TcpPlugin.settle (f p)).2 = .waits) : (s.handler i enabled f).io = .waits := by
  simp [handler, hp, he, hw]

theorem handler_invariant {s : System} (h : ∀ r ∈ s.core.plugins, r.Healthy) (hio : s.io = .returns)
    {i : Nat} {enabled : TcpPlugin → Bool} {f : TcpPlugin → TcpPlugin × List Action × Control}
    (hf : ∀ p, s.core.plugins[i]? = some (.tcp p) → enabled p = true → TcpPlugin.Kept (f p)) :
    (s.handler i enabled f).Invariant := by
  have hs : s.Invariant := ⟨by rw [hio]; nofun, fun _ => h⟩
  unfold handler
  split
  · next p hp =>
    by_cases he : enabled p = true
    · obtain ⟨hwait, hhealthy⟩ := hf p hp he
      obtain ⟨⟨q, k⟩, hq⟩ : ∃ x, TcpPlugin.settle (f p) = x := ⟨_, rfl⟩
      rw [hq] at hwait hhealthy
      have hset : k = .returns → ∀ r ∈ s.core.plugins.set i (.tcp q), r.Healthy := by
        intro hk r hr
        rcases List.mem_or_eq_of_mem_set hr with hr | rfl
        · exact h r hr
        · exact hhealthy hk
      by_cases hgone : k = .returns ∧ p.registered ∧ ¬ q.registered
      · simp only [he, hq, if_true, if_pos hgone]
        exact unregister_kept q.id (c := { s.core with plugins := _ }) (hset hgone.1)
      · simp only [he, hq, if_true, if_neg hgone]
        exact ⟨hwait, hset⟩
    · rw [if_neg he]
      exact hs
  · exact hs

/-- No handler stops a plugin on whose connection it would wait, except the one of its end. The
whole list is stopped up to the first plugin that keeps the io thread. -/
def Safe (realToken : Option Bytes) (s : System) (e : Event) : Prop :=
  s.io = .returns →
    match e with
    | .received i data =>
      ∀ p, s.core.plugins[i]? = some (.tcp p) → (Registered.tcp p).awaits = true →
        ¬ TcpPlugin.Refused realToken data
    | .timerHandler i =>
      ∀ p, s.core.plugins[i]? = some (.tcp p) → p.timer = .queued → (Registered.tcp p).awaits = false
    | .restartPlugin id | .reloadPlugin id _ =>
      s.core.adminPort.isSome = true → ∀ r, s.core.findPlugin id = some r → r.awaits = false
    | .shutdown =>
      s.core.adminPort.isSome = true →
        ∀ r, s.core.plugins.find? Registered.blocks = some r → r.awaits = false
    | .connectionError =>
      s.core.running = true → ∀ r, s.core.plugins.find? Registered.blocks = some r → r.awaits = false
    | .run _ | .accept .. | .receiveFailed _ | .timerExpires _ | .dispatch .. | .worker _
    | .workerThrows _ => True

variable (realToken : Option Bytes)

theorem step_blocked {s : System} (h : s.io ≠ .returns) (e : Event) : s.step realToken e = s := by
  unfold step
  rw [if_pos h]

theorem call_invariant {s : System} {f : Core → Core × Control} (h : Core.Kept (f s.core)) :
    (s.call f).Invariant := h

/-- A safe step keeps the invariant. -/
theorem step_invariant {s : System} (h : s.Invariant) {e : Event} (hsafe : Safe realToken s e) :
    (s.step realToken e).Invariant := by
  by_cases hio : s.io = .returns
  swap
  · rw [step_blocked realToken hio]
    exact h
  have hall := h.2 hio
  have hsafe := hsafe hio
  unfold step
  rw [if_neg (not_not.mpr hio)]
  cases e with
  | run configured =>
    change System.Invariant (if _ then _ else _)
    split
    · exact call_invariant (Core.run_kept hall configured)
    · exact h
  | accept id name =>
    change System.Invariant (if _ then _ else _)
    split
    · refine ⟨h.1, fun _ q hq => ?_⟩
      rcases List.mem_append.mp hq with hq | hq
      · exact hall q hq
      · rw [List.mem_singleton.mp hq]
        simp [Registered.Healthy]
    · exact h
  | received i data =>
    exact handler_invariant hall hio fun p hp _ =>
      TcpPlugin.received_kept (hall _ (List.mem_of_getElem? hp)) (hsafe p hp)
  | receiveFailed i =>
    exact handler_invariant hall hio fun p hp ho =>
      TcpPlugin.receiveFailed_kept (hall _ (List.mem_of_getElem? hp)) ho
  | timerHandler i =>
    refine handler_invariant hall hio fun p hp hq => ?_
    have hq : p.timer = .queued := by simpa using hq
    exact TcpPlugin.timerHandler_kept (hall _ (List.mem_of_getElem? hp)) (hsafe p hp hq)
  | timerExpires i => exact modify_invariant h i fun _ hr => hr.timerExpires
  | dispatch i m => exact modify_invariant h i fun _ hr => hr.receive m
  | worker i => exact modify_invariant h i fun _ hr => hr.workerStep
  | workerThrows i => exact modify_invariant h i fun _ hr => hr.workerThrows
  | restartPlugin id =>
    change System.Invariant (if _ then _ else _)
    split
    · next ha => exact call_invariant (Core.restartPlugin_kept hall (hsafe ha))
    · exact h
  | reloadPlugin id loaded =>
    change System.Invariant (if _ then _ else _)
    split
    · next ha => exact call_invariant (Core.reloadPlugin_kept hall (hsafe ha))
    · exact h
  | shutdown =>
    change System.Invariant (if _ then _ else _)
    split
    · next ha => exact call_invariant (Core.stop_kept hall (hsafe ha))
    · exact h
  | connectionError =>
    change System.Invariant (if _ then _ else _)
    split
    · next hr => exact Core.stop_kept (c := { s.core with result := .connectionError }) hall (hsafe hr)
    · exact h

/-- A step that is not safe makes the io thread wait. -/
theorem step_waits {s : System} (h : s.Invariant) {e : Event} (hsafe : ¬ Safe realToken s e) :
    (s.step realToken e).io = .waits := by
  unfold Safe at hsafe
  push Not at hsafe
  obtain ⟨hio, hsafe⟩ := hsafe
  have hall := h.2 hio
  unfold step
  rw [if_neg (not_not.mpr hio)]
  cases e with
  | received i data =>
    push Not at hsafe
    obtain ⟨p, hp, ha, hr⟩ := hsafe
    have ho : p.socketOpen = true := ((Bool.and_eq_true _ _).mp ha).1
    exact handler_waits hp ho (TcpPlugin.received_waits (hall _ (List.mem_of_getElem? hp)) ha hr)
  | timerHandler i =>
    push Not at hsafe
    obtain ⟨p, hp, hq, ha⟩ := hsafe
    have ha : (Registered.tcp p).awaits = true := by simpa using ha
    exact handler_waits hp (by simpa using hq)
      (TcpPlugin.timerHandler_waits (hall _ (List.mem_of_getElem? hp)) ha)
  | restartPlugin id =>
    push Not at hsafe
    obtain ⟨hport, r, hr, ha⟩ := hsafe
    have ha : r.awaits = true := by simpa using ha
    simp only [hport, if_true]
    exact Core.restartPlugin_waits hall hr ha
  | reloadPlugin id loaded =>
    push Not at hsafe
    obtain ⟨hport, r, hr, ha⟩ := hsafe
    have ha : r.awaits = true := by simpa using ha
    simp only [hport, if_true]
    exact Core.reloadPlugin_waits hall hr ha
  | shutdown =>
    push Not at hsafe
    obtain ⟨hport, r, hr, ha⟩ := hsafe
    have ha : r.awaits = true := by simpa using ha
    simp only [hport, if_true]
    exact Core.stop_waits hall hr ha
  | connectionError =>
    push Not at hsafe
    obtain ⟨hrun, r, hr, ha⟩ := hsafe
    have ha : r.awaits = true := by simpa using ha
    simp only [hrun, if_true]
    exact Core.stop_waits (c := { s.core with result := .connectionError }) hall hr ha
  | run | accept | receiveFailed | timerExpires | dispatch | worker | workerThrows =>
    exact absurd trivial hsafe

theorem invariant_init : Invariant {} := ⟨by decide, by simp⟩

theorem waits_step {s : System} (h : s.io = .waits) (e : Event) : (s.step realToken e).io = .waits := by
  have hio : s.io ≠ .returns := by rw [h]; decide
  rw [step_blocked realToken hio]
  exact h

/-- In every run the plugins are healthy between two handlers. -/
theorem healthy_run {es : List Event} (hio : ((machine realToken).run {} es).io = .returns) :
    ∀ r ∈ ((machine realToken).run {} es).core.plugins, r.Healthy := by
  have hrun := (machine realToken).run_invariant (I := fun s => s.io = .waits ∨ s.Invariant) ?_
    (Or.inr invariant_init) es
  · rcases hrun with hw | hinv
    · rw [hio] at hw
      cases hw
    · exact hinv.2 hio
  · rintro s e (hw | hinv)
    · exact Or.inl (waits_step realToken hw e)
    · by_cases hsafe : Safe realToken s e
      · exact Or.inr (step_invariant realToken hinv hsafe)
      · exact Or.inl (step_waits realToken hinv hsafe)

/-- A list of plugins that the bot has between two handlers in some run. -/
def Attainable (rs : List Registered) : Prop :=
  ∃ (realToken : Option Bytes) (es : List Event),
    ((machine realToken).run {} es).io = .returns ∧ ((machine realToken).run {} es).core.plugins = rs

theorem Attainable.healthy {rs : List Registered} (h : Attainable rs) : ∀ r ∈ rs, r.Healthy := by
  obtain ⟨realToken, es, hio, rfl⟩ := h
  exact healthy_run realToken hio

end System
end IrcBot

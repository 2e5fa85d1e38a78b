import IrcBot.Core.Round

/-! Runs and stops of one `Core`, one after the other. `stop` leaves the pointer to the plugin
server set, so that the next `run` starts no server. A stop that comes before there is one leaves
everything to a `run` that goes on. -/
namespace IrcBot
open Machine IrcBot.Core

/-- The statements that start and stop what outlives a plugin, and those that fill and clear the
list. -/
inductive Mark
  | initializePlugins
  | startTcpPluginServer
  | startAdminPort
  | stopPlugins
  | stopTcpPluginServer
  | deinitializePlugins
  | stopAdminPort
  | setStopPromise
  deriving DecidableEq

def Statement.mark : Statement → Option Mark
  | initializePlugins _ => some .initializePlugins
  | startTcpPluginServer => some .startTcpPluginServer
  | startAdminPort => some .startAdminPort
  | stopPlugins _ => some .stopPlugins
  | stopTcpPluginServer => some .stopTcpPluginServer
  | deinitializePlugins => some .deinitializePlugins
  | stopAdminPort => some .stopAdminPort
  | setStopPromise => some .setStopPromise
  | connect _ | startPlugins | setConnectionError | disconnect | startReceiving | handlers _ => none

/-- What is known of the list: nothing, that it is empty and nobody can connect, or that there is a
plugin from a file in it. -/
inductive Listing
  | unknown | empty | files
  deriving DecidableEq

/-- The acceptors, and what is known of the list. -/
structure Outline where
  server : Option Acceptor := none
  admin : Option Acceptor := none
  plugins : Listing := .unknown
  deriving DecidableEq

namespace Outline

/-- `files` says whether the configuration has plugins that load. -/
def step (files : Bool) (o : Outline) : Mark → Outline
  | .initializePlugins => if files then { o with plugins := .files } else o
  | .startTcpPluginServer =>
    if o.server = none then
      { o with server := some {}, plugins := if o.plugins = .empty then .unknown else o.plugins }
    else o
  | .startAdminPort => if o.admin = none then { o with admin := some {} } else o
  | .stopPlugins => if o.plugins = .files then { o with plugins := .unknown } else o
  | .stopTcpPluginServer => { o with server := o.server.map fun _ => ⟨false⟩ }
  | .deinitializePlugins =>
    { o with plugins := if o.server = some ⟨true⟩ then .unknown else .empty }
  | .stopAdminPort => { o with admin := none }
  | .setStopPromise => o

/-- The outline where this statement has been executed. -/
def after (files : Bool) (m : Mark) (o : Outline) (marks : List Mark) : Outline :=
  (upTo m marks).foldl (step files) o

/-- At the end of `run` both acceptors are open, and at the end of `stop` none is. -/
def Turns (files : Bool) (o : Outline) (marks : List Mark) : Prop :=
  (o.after files .startAdminPort marks).server = some ⟨true⟩ ∧
    (o.after files .startAdminPort marks).admin = some ⟨true⟩ ∧
    (o.after files .setStopPromise marks).server ≠ some ⟨true⟩ ∧
    (o.after files .setStopPromise marks).admin = none

instance (files : Bool) (o : Outline) (marks : List Mark) : Decidable (Turns files o marks) :=
  inferInstanceAs (Decidable (_ ∧ _ ∧ _ ∧ _))

/-- The outline of a bot. -/
structure Describes (c : Core) (o : Outline) : Prop where
  server : c.tcpPluginServer = o.server
  admin : c.adminPort = o.admin
  empty : o.plugins = .empty → c.plugins = [] ∧ c.tcpPluginServer ≠ some ⟨true⟩
  files : o.plugins = .files → c.plugins.any Registered.isSo = true

end Outline

/-- The marks of `run`, and those of `stop`. -/
def Round.runMarks : List Mark := [.initializePlugins, .startTcpPluginServer, .startAdminPort]

def Round.stopMarks : List Mark :=
  [.stopPlugins, .stopTcpPluginServer, .deinitializePlugins, .stopAdminPort, .setStopPromise]

namespace Core

theorem any_isSo_spawn (rs : List Registered) :
    (forEach Registered.spawn rs).1.any Registered.isSo = rs.any Registered.isSo ∧
      ((forEach Registered.spawn rs).1 = [] ↔ rs = []) := by
  induction rs with
  | nil => simp [forEach]
  | cons r rs ih =>
    have hr : r.spawn.1.isSo = r.isSo := by cases r <;> rfl
    obtain ⟨⟨q, k⟩, hq⟩ : ∃ x, r.spawn = x := ⟨_, rfl⟩
    rw [hq] at hr
    have hr : q.isSo = r.isSo := hr
    cases k <;> simp [forEach, hq, hr, ih.1]

end Core

namespace Outline

/-- A statement that comes back changes what its mark says. -/
theorem Describes.exec {files : Bool} {c d : Core} {o : Outline} {s : Statement}
    (hfiles : ∀ ids, s = .initializePlugins ids → (files = true ↔ ids ≠ [])) (h : Describes c o)
    (hexec : exec c s = some d) : Describes d (s.mark.elim o (o.step files)) := by
  have hcall := exec_eq_some.mp hexec
  cases s with
  | connect | setConnectionError | disconnect =>
    obtain rfl : _ = d := congrArg Prod.fst hcall
    exact ⟨h.server, h.admin, h.empty, h.files⟩
  | startReceiving => cases congrArg Prod.snd hcall
  | handlers present =>
    obtain rfl : _ = d := congrArg Prod.fst hcall
    change Describes (if _ then _ else _) o
    split_ifs with hadmits
    · refine ⟨h.server, h.admin, fun he => ⟨?_, (h.empty he).2⟩, fun hf => hadmits.2 (h.files hf)⟩
      exact hadmits.1 (h.empty he).1 (h.empty he).2
    · exact h
  | startPlugins =>
    obtain rfl : _ = d := congrArg Prod.fst hcall
    obtain ⟨hany, hnil⟩ := any_isSo_spawn c.plugins
    exact ⟨h.server, h.admin, fun he => ⟨hnil.mpr (h.empty he).1, (h.empty he).2⟩,
      fun hf => hany.trans (h.files hf)⟩
  | initializePlugins ids =>
    obtain rfl : _ = d := congrArg Prod.fst hcall
    have hids := hfiles ids rfl
    cases files with
    | true =>
      have hne := hids.mp rfl
      refine ⟨h.server, h.admin, nofun, fun _ => ?_⟩
      obtain ⟨id, rest, rfl⟩ := List.exists_cons_of_ne_nil hne
      change (c.initializePlugins (id :: rest)).plugins.any Registered.isSo = true
      simp [initializePlugins, Registered.isSo]
    | false =>
      obtain rfl : ids = [] := by simpa using hids
      have hsame : c.initializePlugins [] = c := by simp [initializePlugins]
      change Describes (c.initializePlugins []) o
      rw [hsame]
      exact h
  | startTcpPluginServer =>
    obtain rfl : _ = d := congrArg Prod.fst hcall
    change Describes c.startTcpPluginServer (if _ then _ else _)
    by_cases hs : c.tcpPluginServer = none
    · rw [startTcpPluginServer, if_neg (not_not.mpr hs), if_pos (h.server ▸ hs)]
      refine ⟨rfl, h.admin, fun he => ?_, fun hf => ?_⟩
      · dsimp only at he
        split_ifs at he
        contradiction
      · dsimp only at hf
        split_ifs at hf
        exact h.files hf
    · rw [startTcpPluginServer, if_pos hs, if_neg (h.server ▸ hs)]
      exact h
  | startAdminPort =>
    obtain rfl : _ = d := congrArg Prod.fst hcall
    change Describes c.startAdminPort (if _ then _ else _)
    by_cases ha : c.adminPort = none
    · rw [startAdminPort, if_neg (not_not.mpr ha), if_pos (h.admin ▸ ha)]
      exact ⟨h.server, rfl, h.empty, h.files⟩
    · rw [startAdminPort, if_pos ha, if_neg (h.admin ▸ ha)]
      exact h
  | stopPlugins released =>
    obtain rfl : _ = d := congrArg Prod.fst hcall
    change Describes (c.stopPlugins released).1 (if _ then _ else _)
    by_cases hf : o.plugins = .files
    · rw [if_pos hf]
      exact ⟨h.server, h.admin, nofun, nofun⟩
    · rw [if_neg hf]
      refine ⟨h.server, h.admin, fun he => ⟨?_, (h.empty he).2⟩, fun hf' => absurd hf' hf⟩
      change (stopEach released [] c.plugins).1 = []
      rw [(h.empty he).1]
      rfl
  | stopTcpPluginServer =>
    have hcall : c.stopTcpPluginServer = (d, .returns) := hcall
    unfold stopTcpPluginServer Acceptor.stop at hcall
    obtain hs | ⟨⟨_ | _⟩, hs⟩ := Option.eq_none_or_eq_some c.tcpPluginServer <;>
      rw [hs] at hcall <;> obtain ⟨rfl, hret⟩ := Prod.mk.inj hcall
    · refine ⟨?_, h.admin, h.empty, h.files⟩
      change c.tcpPluginServer = o.server.map _
      rw [← h.server, hs]
      rfl
    · cases hret
    · refine ⟨?_, h.admin, fun he => ⟨(h.empty he).1, nofun⟩, h.files⟩
      change some _ = o.server.map _
      rw [← h.server, hs]
      rfl
  | deinitializePlugins =>
    have hcall : c.deinitializePlugins = (d, .returns) := hcall
    have hnone := (Statement.call_returns_iff c .deinitializePlugins).mp (congrArg Prod.snd hcall)
    have hthread : ¬ (c.plugins.any fun r => r.base.thread.isSome) = true := by
      simpa [Statement.Guard] using hnone
    rw [deinitializePlugins, if_neg hthread] at hcall
    obtain rfl : _ = d := congrArg Prod.fst hcall
    refine ⟨h.server, h.admin, fun he => ⟨rfl, fun ho => ?_⟩, fun hf => ?_⟩
    · have ho : o.server = some ⟨true⟩ := h.server.symm.trans ho
      change (if _ then _ else _) = _ at he
      rw [if_pos ho] at he
      cases he
    · change (if _ then _ else _) = _ at hf
      split_ifs at hf
  | stopAdminPort =>
    have hcall : c.stopAdminPort = (d, .returns) := hcall
    unfold stopAdminPort Acceptor.stop at hcall
    obtain ha | ⟨⟨_ | _⟩, ha⟩ := Option.eq_none_or_eq_some c.adminPort <;>
      rw [ha] at hcall <;> obtain ⟨rfl, hret⟩ := Prod.mk.inj hcall
    · exact ⟨h.server, ha, h.empty, h.files⟩
    · cases hret
    · exact ⟨h.server, rfl, h.empty, h.files⟩
  | setStopPromise =>
    obtain ⟨-, rfl⟩ := exec_setStopPromise hexec
    exact ⟨h.server, h.admin, h.empty, h.files⟩

/-- `stop` comes to the acceptors when `run` has started both. -/
def StopsLate (marks : List Mark) : Prop :=
  [.startAdminPort, .stopTcpPluginServer].Sublist marks

/-- `stop` is over before `run` starts the plugin server, and has left no plugin of the run. -/
def StopsEarly (files : Bool) (marks : List Mark) : Prop :=
  [.setStopPromise, .startTcpPluginServer].Sublist marks ∧
    (files = true → [.initializePlugins, .deinitializePlugins].Sublist marks ∨
      [.setStopPromise, .initializePlugins].Sublist marks)

instance (marks : List Mark) : Decidable (StopsLate marks) :=
  inferInstanceAs (Decidable (List.Sublist _ _))

instance (files : Bool) (marks : List Mark) : Decidable (StopsEarly files marks) :=
  inferInstanceAs (Decidable (_ ∧ _))

/-- A bot in which nothing has been started. -/
def fresh : Outline := { plugins := .empty }

/-- A bot in which a `run` that went on after `stop` has started both acceptors. -/
def started : Outline := { server := some {}, admin := some {} }

theorem turns_fresh : ∀ files : Bool, ∀ marks ∈ interleavings Round.runMarks Round.stopMarks,
    (Turns files fresh marks → (fresh.after files .setStopPromise marks).plugins ≠ .unknown) ∧
      (Turns files fresh marks ∧ (fresh.after files .setStopPromise marks).plugins = .empty ↔
        StopsLate marks ∨ StopsEarly files marks) := by
  decide +kernel

theorem turns_started : ∀ files : Bool, ∀ marks ∈ interleavings Round.runMarks Round.stopMarks,
    (Turns files started marks → (started.after files .setStopPromise marks).plugins ≠ .unknown) ∧
      (Turns files started marks ∧ (started.after files .setStopPromise marks).plugins = .empty ↔
        StopsLate marks) := by
  decide +kernel

/-- Where both come to their end the acceptors are as for a first run that overlaps, or the plugin
server is closed for good. -/
theorem foldl_fresh : ∀ files : Bool, ∀ marks ∈ interleavings Round.runMarks Round.stopMarks,
    (StopsEarly files marks →
      (marks.foldl (step files) fresh).server = some {} ∧
        (marks.foldl (step files) fresh).admin = some {}) ∧
      (StopsLate marks → (marks.foldl (step files) fresh).server = some ⟨false⟩) := by
  decide +kernel

theorem foldl_started : ∀ files : Bool, ∀ marks ∈ interleavings Round.runMarks Round.stopMarks,
    StopsLate marks → (marks.foldl (step files) started).server = some ⟨false⟩ := by
  decide +kernel

theorem foldl_closed (files : Bool) {o : Outline} (h : o.server = some ⟨false⟩) (marks : List Mark) :
    (marks.foldl (step files) o).server = some ⟨false⟩ := by
  induction marks generalizing o with
  | nil => exact h
  | cons m marks ih =>
    apply ih
    cases m with
    | initializePlugins | startAdminPort | stopPlugins =>
      unfold step
      dsimp only
      split_ifs <;> exact h
    | startTcpPluginServer =>
      have hsome : o.server ≠ none := by rw [h]; nofun
      rw [step, if_neg hsome]
      exact h
    | stopTcpPluginServer =>
      rw [step, h]
      rfl
    | deinitializePlugins | stopAdminPort | setStopPromise => exact h

/-- A plugin server that has been stopped is not started again. -/
theorem not_turns_closed (files : Bool) {o : Outline} (h : o.server = some ⟨false⟩) (marks : List Mark) :
    ¬ Turns files o marks := by
  intro hturns
  have hclosed := foldl_closed files h (upTo .startAdminPort marks)
  have hopen := hturns.1
  rw [after, hclosed] at hopen
  cases hopen

end Outline

namespace Round
open Outline

def marks (r : Round) : List Mark := r.order.filterMap Statement.mark

def files (r : Round) : Bool := !r.configured.isEmpty

theorem marks_mem (r : Round) : r.marks ∈ interleavings runMarks stopMarks := by
  have hmarks := r.interleaves_marks Statement.mark fun _ => rfl
  apply mem_interleavings.mpr
  cases ht : r.trigger with
  | receiveError | signal | shutdown =>
    rw [ht] at hmarks
    exact hmarks

/-- All plugins of the configuration are loaded in one statement. -/
theorem files_of_mem {r : Round} {ids : List Bytes} (h : .initializePlugins ids ∈ r.order) :
    r.files = true ↔ ids ≠ [] := by
  let loads : Statement → Option (List Bytes)
    | .initializePlugins ids => some ids
    | _ => none
  have hloads := r.interleaves_marks loads fun _ => rfl
  have hstop : r.trigger.statements.filterMap loads = [] := by cases r.trigger <;> rfl
  rw [hstop] at hloads
  have hmem : ids ∈ r.order.filterMap loads := List.mem_filterMap.mpr ⟨_, h, rfl⟩
  rw [hloads.eq_of_nil_right] at hmem
  obtain rfl : ids = r.configured := by simpa [runStatements, loads] using hmem
  cases hc : r.configured <;> simp [files, hc]

/-- The state after the first statement `s` of the round. -/
def stateAfter (s : Statement) (c : Core) (r : Round) : Option Core := (upTo s r.order).foldlM exec c.begun

/-- The end of `run`, and the end of `stop`. -/
theorem mem_order (r : Round) : .startAdminPort ∈ r.order ∧ .setStopPromise ∈ r.order := by
  have hmark : ∀ m ∈ runMarks ++ stopMarks, m ∈ r.marks := by
    intro m hm
    have hall : ∀ marks ∈ interleavings runMarks stopMarks, ∀ m ∈ runMarks ++ stopMarks, m ∈ marks := by
      decide +kernel
    exact hall r.marks r.marks_mem m hm
  have hmem : ∀ {s : Statement} {m : Mark}, (∀ x, x.mark = some m ↔ x = s) → m ∈ r.marks → s ∈ r.order := by
    intro s m hs hm
    obtain ⟨x, hx, hxm⟩ := List.mem_filterMap.mp hm
    rwa [(hs x).mp hxm] at hx
  refine ⟨hmem (fun x => ?_) (hmark .startAdminPort (by decide)),
    hmem (fun x => ?_) (hmark .setStopPromise (by decide))⟩ <;>
      cases x <;> simp [Statement.mark]

variable {c d : Core} {o : Outline} {r : Round}

theorem describes_stateAfter {s : Statement} {m : Mark} (hs : ∀ x : Statement, x.mark = some m ↔ x = s)
    (hmem : s ∈ r.order) (h : Describes c.begun o) (hd : r.stateAfter s c = some d) :
    Describes d (o.after r.files m r.marks) := by
  rw [Outline.after, marks, ← filterMap_upTo hs]
  refine foldlM_outline (R := Describes) _ (fun x hx c d o h hexec => ?_) h hd
  refine h.exec (fun ids hids => files_of_mem ?_) hexec
  exact (upTo_isPrefix hmem).subset (hids ▸ hx)

theorem describes_execute (h : Describes c.begun o) (hd : execute c r = some d) :
    Describes d (r.marks.foldl (step r.files) o) := by
  refine foldlM_outline (R := Describes) _ (fun x hx c d o h hexec => ?_) h hd
  exact h.exec (fun ids hids => files_of_mem (hids ▸ hx)) hexec

/-- A round as it should be: `run` and the handler that stops it come to their end; at the end of
`run` both acceptors accept connections, at the end of `stop` none does, no plugin is left, and the
promise has its value. -/
structure Good (c : Core) (r : Round) : Prop where
  ends : ∃ d, execute c r = some d
  accepts : ∃ d, r.stateAfter .startAdminPort c = some d ∧
    d.adminPort = some ⟨true⟩ ∧ d.tcpPluginServer = some ⟨true⟩
  stops : ∃ d, r.stateAfter .setStopPromise c = some d ∧
    d.plugins = [] ∧ d.adminPort = none ∧ d.tcpPluginServer ≠ some ⟨true⟩ ∧ d.stopPromise ≠ none

theorem exists_stateAfter {s : Statement} (hs : s ∈ r.order) (h : ∃ d, execute c r = some d) :
    ∃ d, r.stateAfter s c = some d := by
  obtain ⟨rest, hrest⟩ := upTo_isPrefix hs
  obtain ⟨d, hd⟩ := h
  rw [execute, ← hrest, List.foldlM_append] at hd
  obtain ⟨e, he, -⟩ := Option.bind_eq_some_iff.mp hd
  exact ⟨e, he⟩

theorem stateAfter_setStopPromise (hd : r.stateAfter .setStopPromise c = some d) : d.stopPromise ≠ none := by
  rw [stateAfter, upTo, List.foldlM_append] at hd
  obtain ⟨e, -, hlast⟩ := Option.bind_eq_some_iff.mp hd
  obtain ⟨-, rfl⟩ := exec_setStopPromise (by simpa using hlast)
  exact Option.some_ne_none _

/-- A round is good exactly if its statements find what they need, and its outline is. -/
theorem good_iff (h : Describes c.begun o)
    (hknown : Turns r.files o r.marks → (o.after r.files .setStopPromise r.marks).plugins ≠ .unknown) :
    r.Good c ↔ c.begun.Meets r.order ∧ Turns r.files o r.marks ∧
      (o.after r.files .setStopPromise r.marks).plugins = .empty := by
  obtain ⟨hstart, hstop⟩ := r.mem_order
  have hstartMark : ∀ x : Statement, x.mark = some .startAdminPort ↔ x = .startAdminPort := by
    intro x
    cases x <;> simp [Statement.mark]
  have hstopMark : ∀ x : Statement, x.mark = some .setStopPromise ↔ x = .setStopPromise := by
    intro x
    cases x <;> simp [Statement.mark]
  constructor
  · rintro ⟨hends, ⟨d, hd, hadmin, hserver⟩, ⟨e, he, hplugins, hadmin', hserver', -⟩⟩
    have hdesc := describes_stateAfter hstartMark hstart h hd
    have hdesc' := describes_stateAfter hstopMark hstop h he
    have hturns : Turns r.files o r.marks :=
      ⟨hdesc.server.symm.trans hserver, hdesc.admin.symm.trans hadmin,
        fun hopen => hserver' (hdesc'.server.trans hopen), hdesc'.admin.symm.trans hadmin'⟩
    refine ⟨(execute_iff c r).mp hends, hturns, ?_⟩
    cases hlist : (o.after r.files .setStopPromise r.marks).plugins with
    | empty => rfl
    | unknown => exact absurd hlist (hknown hturns)
    | files =>
      have hany := hdesc'.files hlist
      rw [hplugins] at hany
      cases hany
  · rintro ⟨hmeets, hturns, hempty⟩
    have hends := (execute_iff c r).mpr hmeets
    obtain ⟨d, hd⟩ := exists_stateAfter hstart hends
    obtain ⟨e, he⟩ := exists_stateAfter hstop hends
    have hdesc := describes_stateAfter hstartMark hstart h hd
    have hdesc' := describes_stateAfter hstopMark hstop h he
    refine ⟨hends, ⟨d, hd, hdesc.admin.trans hturns.2.1, hdesc.server.trans hturns.1⟩, ⟨e, he,
      (hdesc'.empty hempty).1, hdesc'.admin.trans hturns.2.2.2, ?_, stateAfter_setStopPromise he⟩⟩
    rw [hdesc'.server]
    exact hturns.2.2.1

/-- All rounds are good, one after the other. -/
def Restartable : Core → List Round → Prop
  | _, [] => True
  | c, r :: rounds => r.Good c ∧ ∀ d, execute c r = some d → Restartable d rounds

/-- The statements of all rounds find what they need. -/
def Meets : Core → List Round → Prop
  | _, [] => True
  | c, r :: rounds => c.begun.Meets r.order ∧ ∀ d, execute c r = some d → Meets d rounds

/-- How the stops lie: that of a last round is late, and in front of it there is at most one round,
whose stop is early. -/
def Fits : List Round → Prop
  | [] => True
  | [r] => StopsLate r.marks ∨ StopsEarly r.files r.marks
  | [r, r'] => StopsEarly r.files r.marks ∧ StopsLate r'.marks
  | _ => False

theorem describes_fresh : Describes (Core.begun {}) fresh := ⟨rfl, rfl, fun _ => ⟨rfl, nofun⟩, nofun⟩

/-- After a late stop no round is good. -/
theorem not_restartable_closed {rounds : List Round} (hc : c.tcpPluginServer = some ⟨false⟩) :
    ¬ Restartable c (r :: rounds) := by
  intro h
  have hdesc : Describes c.begun { server := some ⟨false⟩, admin := c.adminPort } :=
    ⟨hc, rfl, nofun, nofun⟩
  have hclosed := not_turns_closed r.files
    (o := { server := some ⟨false⟩, admin := c.adminPort }) rfl r.marks
  exact hclosed ((good_iff hdesc fun h => absurd h hclosed).mp h.1).2.1

theorem good_fresh_iff : r.Good {} ↔
    Core.Meets (begun {}) r.order ∧ (StopsLate r.marks ∨ StopsEarly r.files r.marks) := by
  obtain ⟨hknown, hiff⟩ := turns_fresh r.files r.marks r.marks_mem
  rw [good_iff describes_fresh hknown, hiff]

theorem good_started_iff (hserver : c.tcpPluginServer = some {}) (hadmin : c.adminPort = some {}) :
    r.Good c ↔ c.begun.Meets r.order ∧ StopsLate r.marks := by
  obtain ⟨hknown, hiff⟩ := turns_started r.files r.marks r.marks_mem
  have hdesc : Describes c.begun started := ⟨hserver, hadmin, nofun, nofun⟩
  rw [good_iff hdesc hknown, hiff]

/-- A second round is good after an early stop only, and no third one is. -/
theorem restartable_started_iff {rounds : List Round} (hserver : c.tcpPluginServer = some {})
    (hadmin : c.adminPort = some {}) :
    Restartable c (r :: rounds) ↔ c.begun.Meets r.order ∧ StopsLate r.marks ∧ rounds = [] := by
  rw [Restartable, good_started_iff hserver hadmin, and_assoc]
  refine and_congr_right fun hmeets => and_congr_right fun hlate => ?_
  cases rounds with
  | nil => simp [Restartable]
  | cons r' rounds =>
    refine iff_of_false (fun h => ?_) (by simp)
    obtain ⟨d, hd⟩ := (execute_iff c r).mpr hmeets
    have hdesc := describes_execute (o := started) ⟨hserver, hadmin, nofun, nofun⟩ hd
    refine not_restartable_closed ?_ (h d hd)
    rw [hdesc.server]
    exact foldl_started r.files r.marks r.marks_mem hlate

/-- A run with one plugin, whose worker comes into its loop before the connection breaks. -/
def broken : Round where
  configured := [text ['p']]
  trigger := .receiveError
  before := [[.so { id := text ['p'], thread := some .looping }]]
  order := runStatements true [text ['p']] ++
    .handlers [.so { id := text ['p'], thread := some .looping }] ::
      .setConnectionError :: stopStatements []
  interleaves := by decide
  connected := by decide

end Round
end IrcBot

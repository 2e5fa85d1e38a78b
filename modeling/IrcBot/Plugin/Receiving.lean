import IrcBot.Plugin.Authentication
import IrcBot.Protocol.Framing

/-! The requests a connection passes on, read by read. Its receive handler comes back to the next
read after every IRC message, and after an INIT_REQUEST only if it is the first and has the right
token. -/
namespace IrcBot
open PluginProtocol

/-- The receive handler comes back from the request. -/
def TcpPlugin.Request.goesOn (realToken : Option Bytes) (spawned : Bool) : TcpPlugin.Request → Bool
  | .ircMessage _ => true
  | .initRequest _ token => !spawned && Core.authenticatePlugin realToken token = some true

def TcpPlugin.Request.isInit : TcpPlugin.Request → Bool
  | .ircMessage _ => false
  | .initRequest .. => true

/-- The receive handler comes back from every request that another one follows. -/
def TcpPlugin.Lasts (realToken : Option Bytes) : Bool → List TcpPlugin.Request → Bool
  | spawned, r :: r' :: rs =>
    r.goesOn realToken spawned && Lasts realToken (spawned || r.isInit) (r' :: rs)
  | _, _ => true

theorem TcpPlugin.lasts_cons (realToken : Option Bytes) (spawned : Bool) (r : Request)
    {rs : List Request} (hrs : rs ≠ []) : Lasts realToken spawned (r :: rs) =
      (r.goesOn realToken spawned && Lasts realToken (spawned || r.isInit) rs) := by
  cases rs with
  | nil => exact absurd rfl hrs
  | cons r' rs => rfl

namespace Connection

def Event.data : Event → Option Bytes
  | .received data => some data
  | _ => none

/-- The event neither stops the plugin nor spawns it. -/
def Event.quiet : Event → Bool
  | .received _ | .worker | .workerThrows | .dispatch _ | .timerExpires => true
  | _ => false

/-- The receive handler waits for a read. -/
def receiving (c : Connection) : Bool := c.alive && c.enabled (.received [])

/-- The requests that the receive handler passes on. -/
def receiver (realToken : Option Bytes) :
    Machine.Receiver Connection Event UInt8 TcpPlugin.Request where
  machine := ⟨fun c e => ((c.step realToken e).1, if c.receiving then e.request.toList else [])⟩
  read := Event.data
  decode := TcpPlugin.parseMessage
  waits c := c.receiving = true
  step_of_waits c e h := by
    dsimp only
    rw [if_pos h]
    cases e <;> rfl
  step_of_not_waits _ _ h := if_neg h

/-- The plugin serves its peer: nothing has stopped it. -/
structure Serving (spawned : Bool) (c : Connection) : Prop where
  io : c.io = .returns
  main : c.main = .returns
  registered : c.plugin.registered = true
  ready : c.plugin.ready = false
  socketOpen : c.plugin.socketOpen = true
  running : c.plugin.running = true
  thread : c.plugin.thread.isSome = spawned

/-- The io thread is in a call that never comes back, or the process has ended. -/
def Stuck (c : Connection) : Prop :=
  c.alive = false ∨
    (c.io = .joins ∨ c.io = .waits) ∧ c.main = .returns ∧ c.plugin.ready = false ∧
      c.plugin.socketOpen = true

variable {realToken : Option Bytes} {c : Connection} {e : Event} {spawned : Bool}

theorem step_of_not_possible (realToken : Option Bytes) (h : ¬ c.Possible e) :
    c.step realToken e = (c, []) := if_neg h

@[simp] theorem receiver_read (realToken : Option Bytes) : (receiver realToken).read = Event.data := rfl

theorem serving_new (id name : Bytes) : Serving false (new id name) :=
  ⟨rfl, rfl, rfl, rfl, rfl, rfl, rfl⟩

theorem Serving.receiving (h : c.Serving spawned) : c.receiving = true := by
  simp [Connection.receiving, alive, enabled, h.io, h.main, h.registered, h.ready]

theorem Stuck.not_receiving (h : c.Stuck) : c.receiving = false := by
  rcases h with h | ⟨hio | hio, -⟩
  · simp [Connection.receiving, h]
  · simp [Connection.receiving, enabled, hio]
  · simp [Connection.receiving, enabled, hio]

/-- A step of the worker ends in a join that goes on to wait for the promise, or is none of the
connection's. -/
theorem Stuck.workerStep (hio : c.io = .joins ∨ c.io = .waits) (hmain : c.main = .returns)
    {r : TcpPlugin × List Action} (hready : r.1.ready = false) (hopen : r.1.socketOpen = true) :
    (c.workerStep r).1.Stuck := by
  right
  unfold Connection.workerStep
  dsimp only
  split_ifs with hfinished hjoins hm
  · have hjoined := TcpPlugin.onShutdown_waits (p := { r.1 with thread := none }) hopen hready
    have hmeet : meeting c.main r.1 r.1.joined = .waits := by
      rw [TcpPlugin.joined, hjoined, hmain]
      rfl
    refine ⟨.inr hmeet, hmain, ?_⟩
    rw [onIo, TcpPlugin.joined, hjoined]
    exact ⟨hready, hopen⟩
  · rw [hmain] at hm
    cases hm
  · exact ⟨hio, hmain, hready, hopen⟩
  · exact ⟨hio, hmain, hready, hopen⟩

theorem Stuck.step (realToken : Option Bytes) (h : c.Stuck) (hq : e.quiet = true) : (c.step realToken e).1.Stuck := by
  by_cases hp : c.Possible e
  · have halive : c.alive = true ∧ c.enabled e = true := (Bool.and_eq_true _ _).mp hp
    rcases h with h | ⟨hio, hmain, hready, hopen⟩
    · rw [h] at halive
      cases halive.1
    have hbusy : c.io ≠ .returns := by rcases hio with hio | hio <;> rw [hio] <;> nofun
    obtain ⟨-, -, hwready, hwopen, -⟩ := c.plugin.workerStep_spec
    rw [step_of_possible realToken hp]
    cases e with
    | received | dispatch => simp [enabled, hbusy] at halive
    | timerExpires =>
      refine .inr ⟨hio, hmain, ?_⟩
      dsimp only [happen, TcpPlugin.timerExpires]
      split_ifs <;> exact ⟨hready, hopen⟩
    | worker => exact .workerStep hio hmain (hwready.trans hready) (hwopen.trans hopen)
    | workerThrows => exact .workerStep hio hmain hready hopen
    | receiveFailed | timerHandler | stop | restart | startPlugins | signal | resume => cases hq
  · rw [step_of_not_possible realToken hp]
    exact h

/-- A change that does not concern the life of the plugin. -/
theorem Serving.of_eq (h : c.Serving spawned) {d : Connection} (hio : d.io = .returns)
    (hmain : d.main = c.main) (hreg : d.plugin.registered = c.plugin.registered)
    (hready : d.plugin.ready = c.plugin.ready) (hopen : d.plugin.socketOpen = c.plugin.socketOpen)
    (hrun : c.plugin.running = true → d.plugin.running = true)
    (hthread : d.plugin.thread.isSome = c.plugin.thread.isSome) : d.Serving spawned :=
  ⟨hio, hmain.trans h.main, hreg.trans h.registered, hready.trans h.ready, hopen.trans h.socketOpen,
    hrun h.running, hthread.trans h.thread⟩

/-- The worker of a plugin that serves is joined by nobody. -/
theorem Serving.workerStep (h : c.Serving spawned) (r : TcpPlugin × List Action) :
    (c.workerStep r).1 = { c with plugin := r.1 } := by
  unfold Connection.workerStep
  dsimp only
  split_ifs with hfinished hio hmain
  · rw [h.io] at hio
    cases hio
  · rw [h.main] at hmain
    cases hmain
  · rfl
  · rfl

/-- Everything but a read leaves the plugin serving. -/
theorem Serving.step_quiet (h : c.Serving spawned) (hq : e.quiet = true) (hdata : e.data = none) :
    (c.step realToken e).1.Serving spawned := by
  by_cases hp : c.Possible e
  · obtain ⟨⟨_, hwork⟩, -, hwready, hwopen, hwreg⟩ := c.plugin.workerStep_spec
    rw [step_of_possible realToken hp]
    cases e with
    | received data => cases hdata
    | dispatch => exact h.of_eq h.io rfl rfl rfl rfl id rfl
    | timerExpires =>
      dsimp only [happen, TcpPlugin.timerExpires]
      split_ifs
      · exact h.of_eq h.io rfl rfl rfl rfl id rfl
      · exact h
    | worker =>
      rw [happen, h.workerStep]
      exact h.of_eq h.io rfl hwreg hwready hwopen hwork.running hwork.thread
    | workerThrows =>
      rw [happen, h.workerStep]
      exact h.of_eq h.io rfl rfl rfl rfl id (Option.isSome_map ..)
    | receiveFailed | timerHandler | stop | restart | startPlugins | signal | resume => cases hq
  · rw [step_of_not_possible realToken hp]
    exact h

/-- A plugin that is refused is stopped, and the io thread with it. -/
theorem Serving.refused (h : c.Serving spawned) (actions : List Action) :
    (c.onIo (c.plugin.stop.1, actions, c.plugin.stop.2.2)).1.Stuck := by
  rcases c.plugin.stop_cases with ⟨hrun, -⟩ | ⟨-, -, hstop⟩ | ⟨-, -, hstop⟩
  · rw [h.running] at hrun
    cases hrun
  · rw [hstop]
    exact .inr ⟨.inl (by rw [onIo, h.main]; rfl), h.main, h.ready, h.socketOpen⟩
  · rw [hstop, TcpPlugin.onShutdown_waits (p := { c.plugin with running := false }) h.socketOpen h.ready]
    exact .inr ⟨.inr (by rw [onIo, h.main]; rfl), h.main, h.ready, h.socketOpen⟩

/-- A request leaves the plugin serving exactly if the receive handler comes back from it. -/
theorem Serving.step_request (realToken : Option Bytes) (h : c.Serving spawned) {data : Bytes} {r : TcpPlugin.Request}
    (hparse : TcpPlugin.parseMessage data = some r) :
    if r.goesOn realToken spawned then
      (c.step realToken (.received data)).1.Serving (spawned || r.isInit)
    else (c.step realToken (.received data)).1.Stuck := by
  have hp : c.Possible (.received data) := h.receiving
  rw [step_of_possible realToken hp, happen, TcpPlugin.received, hparse]
  cases r with
  | ircMessage m =>
    rw [TcpPlugin.Request.goesOn, if_pos rfl, TcpPlugin.Request.isInit, Bool.or_false]
    have hmeet : meeting c.main c.plugin (c.plugin.processIrcMessage m) = .returns := by
      rw [h.main]
      rfl
    exact h.of_eq hmeet rfl rfl rfl rfl id rfl
  | initRequest name token =>
    rw [TcpPlugin.Request.goesOn, TcpPlugin.Request.isInit, Bool.or_true]
    dsimp only
    rw [TcpPlugin.processInitRequest]
    cases hauth : Core.authenticatePlugin realToken token with
    | none =>
      rw [if_neg (by simp)]
      left
      simp [alive, onIo, meeting]
    | some ok =>
      cases ok with
      | false =>
        rw [if_neg (by simp)]
        exact h.refused _
      | true =>
        cases spawned with
        | true =>
          rw [if_neg (by simp)]
          left
          simp [alive, onIo, meeting, TcpPlugin.spawn, Plugin.spawn, TcpPlugin.cancelTimer, h.thread]
        | false =>
          have hthread : c.plugin.thread = none := Option.not_isSome_iff_eq_none.mp (by simp [h.thread])
          rw [if_pos (by simp)]
          refine ⟨?_, h.main, h.registered, h.ready, h.socketOpen, ?_, ?_⟩ <;>
            simp [onIo, meeting, h.main, TcpPlugin.spawn, Plugin.spawn, TcpPlugin.cancelTimer, hthread]

/-- From a thread that does not come back nothing is read any more. -/
theorem Stuck.listening_iff (h : c.Stuck) {es : List Event} (hq : ∀ e ∈ es, e.quiet = true) :
    (receiver realToken).machine.Along (receiver realToken).Listening c es ↔
      es.filterMap Event.data = [] := by
  induction es generalizing c with
  | nil => exact iff_of_true trivial rfl
  | cons e es ih =>
    have hrest := ih (h.step realToken (hq e (by simp))) fun e' he' => hq e' (by simp [he'])
    cases hdata : e.data with
    | none =>
      have hfirst : (receiver realToken).Listening c e := fun hsome => by simp [hdata] at hsome
      rw [List.filterMap_cons_none hdata, ← hrest]
      exact and_iff_right hfirst
    | some data =>
      rw [List.filterMap_cons_some hdata]
      refine iff_of_false (fun hall => ?_) (by simp)
      have hwaits : c.receiving = true := hall.1 (by simp [hdata])
      rw [h.not_receiving] at hwaits
      cases hwaits

/-- If nothing else stops the plugin, every request is waited for exactly if the handler comes back
from all that another one follows. -/
theorem Serving.listening_iff (h : c.Serving spawned) {es : List Event} {rs : List TcpPlugin.Request}
    (hq : ∀ e ∈ es, e.quiet = true) (hreads : es.filterMap Event.data = rs.map Bot.write)
    (hlen : ∀ r ∈ rs, (Bot.write r).length ≤ bufferSize) :
    (receiver realToken).machine.Along (receiver realToken).Listening c es ↔
      TcpPlugin.Lasts realToken spawned rs = true := by
  induction es generalizing c spawned rs with
  | nil =>
    obtain rfl : rs = [] := List.map_eq_nil_iff.mp hreads.symm
    exact iff_of_true trivial rfl
  | cons e es ih =>
    have hfirst : (receiver realToken).Listening c e := fun _ => h.receiving
    have hq' : ∀ e' ∈ es, e'.quiet = true := fun e' he' => hq e' (by simp [he'])
    change (_ ∧ (receiver realToken).machine.Along _ (c.step realToken e).1 es) ↔ _
    rw [and_iff_right hfirst]
    cases hdata : e.data with
    | none =>
      rw [List.filterMap_cons_none hdata] at hreads
      exact ih (h.step_quiet (hq e (by simp)) hdata) hq' hreads hlen
    | some data =>
      rw [List.filterMap_cons_some hdata] at hreads
      obtain rfl : e = .received data := by cases e <;> cases hdata; rfl
      cases rs with
      | nil => cases hreads
      | cons r rs =>
        obtain ⟨rfl, hreads'⟩ := List.cons.inj hreads
        have hlen' : ∀ r' ∈ rs, (Bot.write r').length ≤ bufferSize := fun r' hr' => hlen r' (by simp [hr'])
        have hparse := TcpPlugin.parseMessage_write ((hlen r (by simp)).trans_lt (by decide))
        have hstep := h.step_request realToken hparse
        by_cases hrs : rs = []
        · subst hrs
          refine iff_of_true ?_ rfl
          split_ifs at hstep
          · exact (ih hstep hq' hreads' hlen').mpr rfl
          · exact (hstep.listening_iff hq').mpr hreads'
        · rw [TcpPlugin.lasts_cons _ _ _ hrs]
          split_ifs at hstep with hgoes
          · rw [hgoes, Bool.true_and]
            exact ih hstep hq' hreads' hlen'
          · refine iff_of_false (fun hall => hrs ?_) (by simp [hgoes])
            rw [(hstep.listening_iff hq').mp hall] at hreads'
            exact List.map_eq_nil_iff.mp hreads'.symm

/-- In any run of the connection exactly what was written is passed on if and only if every read is
one write and is waited for. -/
theorem framing (c : Connection) {es : List Event} {rs : List TcpPlugin.Request}
    (hreads : ∀ data ∈ es.filterMap Event.data, data ≠ [] ∧ data.length ≤ bufferSize)
    (hflat : (es.filterMap Event.data).flatten = (rs.map Bot.write).flatten) :
    (receiver realToken).machine.out c es = rs ↔
      es.filterMap Event.data = rs.map Bot.write ∧
        (receiver realToken).machine.Along (receiver realToken).Listening c es := by
  constructor
  · intro hout
    exact (receiver realToken).reads_eq_encodings (fun _ _ => TcpPlugin.length_write_le)
      (fun _ _ => rfl) (fun data hdata => (hreads data hdata).1) hflat hout
  · rintro ⟨heq, halong⟩
    refine (receiver realToken).out_encodings (fun r hr => ?_) heq halong
    have hlen := (hreads (Bot.write r) (heq ▸ List.mem_map_of_mem hr)).2
    exact TcpPlugin.parseMessage_write (hlen.trans_lt (by decide))

end Connection

open Connection in
/-- Framing. In any run of a connection exactly what the remote plugin wrote is passed on, in order and
unchanged, if and only if every read is one write and finds the receive handler waiting; where nothing
else stops the plugin it waits unless a request that it does not come back from stands before another.
The remote plugin is handed what was written to it where every read is one write and none comes after
a shutdown, and only there, unless a negative code is written. -/
theorem framing_iff (realToken : Option Bytes) {es : List Event} {rs : List TcpPlugin.Request}
    (hreads : ∀ data ∈ es.filterMap Event.data, data ≠ [] ∧ data.length ≤ bufferSize)
    (hflat : (es.filterMap Event.data).flatten = (rs.map Bot.write).flatten) :
    (∀ c, (receiver realToken).machine.out c es = rs ↔ es.filterMap Event.data = rs.map Bot.write ∧
        (receiver realToken).machine.Along (receiver realToken).Listening c es) ∧
      (∀ id name, (∀ e ∈ es, e.quiet = true) →
        ((receiver realToken).machine.out (new id name) es = rs ↔
          es.filterMap Event.data = rs.map Bot.write ∧ TcpPlugin.Lasts realToken false rs = true)) ∧
      ∀ (salvage : Bytes → Message) (b : Bot) (reads : List Bytes) (ms : List Bot.Written),
        b.socketOpen = true → (∀ data ∈ reads, data ≠ [] ∧ data.length ≤ bufferSize) →
        reads.flatten = (ms.map Bot.Written.write).flatten →
        (reads = ms.map Bot.Written.write ∧ (∀ m ∈ ms.dropLast, m.isShutdown = false) →
            (Bot.receiver salvage).machine.out b reads = ms.map Bot.Written.message) ∧
          ((∀ data, (salvage data).leastLength ≤ data.length) → (∀ m ∈ ms, m.code.msb = false) →
            (Bot.receiver salvage).machine.out b reads = ms.map Bot.Written.message →
              reads = ms.map Bot.Written.write ∧ ∀ m ∈ ms.dropLast, m.isShutdown = false) := by
  refine ⟨fun c => framing c hreads hflat, fun id name hquiet => ?_, ?_⟩
  · rw [framing (new id name) hreads hflat]
    refine and_congr_right fun heq => ?_
    have hlen : ∀ r ∈ rs, (Bot.write r).length ≤ bufferSize :=
      fun r hr => (hreads (Bot.write r) (heq ▸ List.mem_map_of_mem hr)).2
    exact (serving_new id name).listening_iff hquiet heq hlen
  · intro salvage b reads ms hb hreads hflat
    exact Bot.framing salvage hb hreads hflat

/-- A plugin that says one thing after its initialization, and a message and the shutdown sent to it,
read one by one. -/
theorem framing_two_reads :
    let rs : List TcpPlugin.Request :=
      [.initRequest (text ['p']) (text ['t']), .ircMessage { command := text ['J', 'O', 'I', 'N'] }]
    let ms : List Bot.Written := [.onMessage { command := text ['P', 'I', 'N', 'G'] },
      .controlRequest .shutdown [] 0]
    (Connection.receiver (some (text ['t']))).machine.out (.new [] [])
        [.received (Bot.write rs[0]), .worker, .received (Bot.write rs[1])] = rs ∧
      (Bot.receiver fun _ => {}).machine.out Bot.fullBot (ms.map Bot.Written.write) =
        ms.map Bot.Written.message := by
  intro rs ms
  have h := @framing_iff (some (text ['t']))
    [.received (Bot.write rs[0]), .worker, .received (Bot.write rs[1])] rs (by decide) rfl
  refine ⟨(h.2.1 [] [] (by decide)).mpr ⟨rfl, by decide⟩, ?_⟩
  exact (h.2.2 (fun _ => {}) Bot.fullBot (ms.map Bot.Written.write) ms rfl (by decide) rfl).1
    ⟨rfl, by decide⟩

/-- Two requests in one read come out as one. -/
theorem framing_one_read :
    ¬ ∀ (realToken : Option Bytes) (id name : Bytes) (es : List Connection.Event)
      (rs : List TcpPlugin.Request),
      (∀ data ∈ es.filterMap Connection.Event.data, data ≠ [] ∧ data.length ≤ bufferSize) →
      (es.filterMap Connection.Event.data).flatten = (rs.map Bot.write).flatten →
      (Connection.receiver realToken).machine.out (.new id name) es = rs := by
  intro h
  have h := h (some (text ['t'])) [] []
    [.received (Bot.write (.ircMessage { command := text ['A'] }) ++
      Bot.write (.ircMessage { command := text ['B'] }))]
    [.ircMessage { command := text ['A'] }, .ircMessage { command := text ['B'] }]
    (by decide) (by decide)
  revert h
  decide

end IrcBot

import IrcBot.Machine.Operations

/-! The asynchronous loops of the program: each starts one operation, and its handler starts
the next one or lets the loop end. They differ in the results after which they go on. -/
namespace IrcBot.Network
open Machine

/-- The handler goes on after a success only. -/
def afterSuccess {κ : Type*} : Completion κ → Bool
  | .success _ => true
  | _ => false

/-- The handler goes on after everything but a cancellation. -/
def unlessAborted {κ : Type*} : Completion κ → Bool
  | .aborted => false
  | _ => true

inductive Loop
  | core | tcpPlugin | bot | adminPortClient | tcpServer | tcpClient | tcpPluginServer | adminPort
  deriving DecidableEq, Repr

namespace Loop
variable {κ : Type*}

/-- `Core::startAsyncReceive` -/
def startAsyncReceive : Completion κ → Bool := afterSuccess

/-- `TcpPlugin::startReceiving` and `AdminPortClient::startReceiving` -/
def startReceiving : Completion κ → Bool := afterSuccess

/-- `Bot::receive` -/
def receive : Completion κ → Bool := afterSuccess

/-- `TcpServer::startAsyncAccepting` -/
def startAsyncAccepting : Completion κ → Bool := afterSuccess

/-- `TcpClient::readHandler` -/
def readHandler : Completion κ → Bool := unlessAborted

/-- `TcpPluginServer::acceptConnections` and `AdminPort::acceptConnections` -/
def acceptConnections : Completion κ → Bool := unlessAborted

/-- The results after which a loop goes on. -/
def rearms : Loop → Completion κ → Bool
  | core => startAsyncReceive
  | tcpPlugin => startReceiving
  | bot => receive
  | adminPortClient => startReceiving
  | tcpServer => startAsyncAccepting
  | tcpClient => readHandler
  | tcpPluginServer => acceptConnections
  | adminPort => acceptConnections

/-- The loops that go on after an error. -/
def toleratesErrors : Loop → Bool
  | tcpClient | tcpPluginServer | adminPort => true
  | _ => false

theorem rearms_eq (l : Loop) :
    l.rearms (κ := κ) = if l.toleratesErrors then unlessAborted else afterSuccess := by
  cases l <;> rfl

theorem remaining_le (o : Operations κ) (rearms : Completion κ → Bool) :
    Operations.remaining rearms o ≤ 2 * o.queued.length := by
  rw [Operations.remaining]
  induction o.queued with
  | nil => simp
  | cons c cs ih =>
    rw [List.map_cons, List.sum_cons, List.length_cons]
    split <;> omega

/-- What is queued after the close of a descriptor in any state. -/
theorem queued_after_close (l : Loop) (o : Operations κ) {w : List (Operations.Event κ)}
    (hw : ∀ e ∈ w, e.isInner = true) :
    if l.toleratesErrors = true ∧ ∃ c ∈ o.queued, unlessAborted c = true then
      ((Operations.machine l.rearms).run o.close w).queued ≠ []
    else 2 * o.inFlight ≤ Operations.handles w →
      ((Operations.machine l.rearms).run o.close w).queued = [] := by
  have hclosed := Operations.close_closed o
  have hqueued : o.close.queued = o.queued ++ List.replicate o.outstanding .aborted := rfl
  have hlen : o.close.queued.length = o.inFlight := by
    simp [hqueued, Operations.inFlight, Nat.add_comm]
  cases ht : l.toleratesErrors with
  | false =>
    have hr : l.rearms (κ := κ) = afterSuccess := by rw [rearms_eq, ht]; rfl
    rw [if_neg (by simp), hr]
    intro hmany
    have hle := remaining_le o.close afterSuccess
    rw [Operations.queued_eq_nil_iff afterSuccess, hclosed.remaining_run (by rfl) hw]
    omega
  | true =>
    have hr : l.rearms (κ := κ) = unlessAborted := by rw [rearms_eq, ht]; rfl
    rw [hr]
    by_cases hc : ∃ c ∈ o.queued, unlessAborted c = true
    · rw [if_pos ⟨rfl, hc⟩]
      obtain ⟨c, hmem, hgo⟩ := hc
      obtain ⟨d, hd, -⟩ := hclosed.spins (show unlessAborted .badDescriptor = true from rfl)
        ⟨c, by simp [hqueued, hmem], hgo⟩ hw
      exact List.ne_nil_of_mem hd
    · rw [if_neg fun h => hc h.2]
      intro hmany
      have hno : ∀ c ∈ o.close.queued, unlessAborted c = false := by
        intro c hmem
        rw [hqueued] at hmem
        rcases List.mem_append.mp hmem with h | h
        · by_contra hgo
          exact hc ⟨c, h, by simpa using hgo⟩
        · rw [List.eq_of_mem_replicate h]
          rfl
      rw [hclosed.drains hno hw, List.drop_eq_nil_iff]
      omega

/-- The loop of an object that stays alive, with handlers that do not throw, on a descriptor that does
what is documented. After the close it comes to its end, with at most two handlers for each operation
in flight, unless it goes on after errors and a result other than the cancellation has been queued
before the close: then each handler leads to another one, for ever. -/
theorem queue_after_close (D : Descriptor κ) (hD : D.Documented) (l : Loop)
    (w w' : List (Operations.Event κ)) (hw' : ∀ e ∈ w', e.isInner = true) :
    let M := D.machine l.rearms
    let d := M.run D.new w
    if l.toleratesErrors = true ∧ ∃ c ∈ (D.view d).queued, unlessAborted c = true then
      (D.view (M.run (D.close d) w')).queued ≠ []
    else 2 * (D.view d).inFlight ≤ Operations.handles w' →
      (D.view (M.run (D.close d) w')).queued = [] := by
  intro M d
  have hafter : D.view (M.run (D.close d) w') =
      (Operations.machine l.rearms).run (D.view d).close w' := by
    rw [hD.view_run, hD.view_close]
  rw [hafter]
  exact queued_after_close l (D.view d) hw'

/-- A connection has been queued before the plugin server is stopped, whose loop never ends then. -/
theorem queue_after_close_tcpPluginServer :
    let D := Descriptor.ofOperations ℕ
    let M := D.machine tcpPluginServer.rearms
    (D.view (M.run (D.close (M.run D.new [.start, .finish (some 5)]))
      [.handle, .handle, .handle])).queued ≠ [] := by
  intro D M
  have h := queue_after_close D (Descriptor.documented_ofOperations ℕ) tcpPluginServer
    [.start, .finish (some 5)] [.handle, .handle, .handle] (by decide)
  rwa [if_pos ⟨rfl, .success 5, by decide, rfl⟩] at h

end Loop
end IrcBot.Network

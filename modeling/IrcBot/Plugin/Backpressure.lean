import IrcBot.Machine.Mealy
import Mathlib.Algebra.GroupWithZero.Nat
import Mathlib.Algebra.Order.Group.Nat
import Mathlib.Algebra.Order.Monoid.Unbundled.Basic

/-! Two blocking sends and a mutex. The worker of a TCP plugin holds the mutex of its queue
while it writes a message; the io thread waits for this mutex when it passes on the next one,
and reads nothing meanwhile; the remote plugin reads nothing while its callback sends. With
the buffers of the connection full in both directions nobody goes on. Writes are counted as
whole messages here. -/
namespace IrcBot

/-- A TCP plugin and its remote side. -/
structure Backpressure where
  /-- The io thread waits in `receive` for the mutex. -/
  blocked : Bool := false
  incoming : ℕ := 0
  /-- The worker is in `onMessage`, with the mutex. -/
  handling : Bool := false
  /-- Messages in the connection to the remote plugin. -/
  toPlugin : ℕ := 0
  /-- What the callback has still to send. -/
  replies : ℕ := 0
  /-- Messages in the connection from the remote plugin. -/
  toBot : ℕ := 0
  deriving DecidableEq, Repr

namespace Backpressure

/-- The io thread offers a message, gets the mutex, or reads from the plugin; the worker takes
a message, or `onMessage` ends; the remote plugin reads one, or sends a reply. -/
inductive Event
  | dispatch | receive | read | getCommand | sent | call | reply
  deriving DecidableEq, Repr

/- The messages that fit into the connection in each direction, and the replies of the
callback to one message. -/
variable (capacity capacity' answers : ℕ)

def step (s : Backpressure) : Event → Backpressure
  | .dispatch =>
    if s.blocked then s
    else if s.handling then { s with blocked := true }
    else { s with incoming := s.incoming + 1 }
  | .receive =>
    if s.blocked ∧ ¬ s.handling then { s with blocked := false, incoming := s.incoming + 1 } else s
  | .read => if ¬ s.blocked ∧ 0 < s.toBot then { s with toBot := s.toBot - 1 } else s
  | .getCommand =>
    if ¬ s.handling ∧ 0 < s.incoming then { s with incoming := s.incoming - 1, handling := true } else s
  | .sent =>
    if s.handling ∧ s.toPlugin < capacity then
      { s with handling := false, toPlugin := s.toPlugin + 1 }
    else s
  | .call =>
    if s.replies = 0 ∧ 0 < s.toPlugin then { s with toPlugin := s.toPlugin - 1, replies := answers }
    else s
  | .reply =>
    if 0 < s.replies ∧ s.toBot < capacity' then
      { s with replies := s.replies - 1, toBot := s.toBot + 1 }
    else s

def machine : Machine.Mealy Backpressure Event Empty :=
  ⟨fun s e => (s.step capacity capacity' answers e, [])⟩

/-- The messages that the io thread has offered. -/
def dispatches (w : List Event) : ℕ := w.countP fun e => e = .dispatch

/-- Nothing that can happen changes anything. -/
def Stuck (s : Backpressure) : Prop := ∀ e, s.step capacity capacity' answers e = s

/-- Everybody waits for the next one, all around. -/
theorem stuck_iff (hc : 0 < capacity) (s : Backpressure) :
    s.Stuck capacity capacity' answers ↔
      s.blocked = true ∧ s.handling = true ∧ capacity ≤ s.toPlugin ∧ 0 < s.replies ∧
        capacity' ≤ s.toBot := by
  constructor
  · intro h
    have hblocked : s.blocked = true := by
      by_contra hfree
      have hdispatch := h .dispatch
      rw [step, if_neg hfree] at hdispatch
      split at hdispatch
      · have := congrArg Backpressure.blocked hdispatch
        simp [← this] at hfree
      · have := congrArg Backpressure.incoming hdispatch
        simp at this
    have hhandling : s.handling = true := by
      by_contra hidle
      have hreceive := h .receive
      rw [step, if_pos ⟨hblocked, hidle⟩] at hreceive
      have := congrArg Backpressure.incoming hreceive
      simp at this
    have hfull : capacity ≤ s.toPlugin := by
      by_contra hroom
      have hsent := h .sent
      rw [step, if_pos ⟨hhandling, by omega⟩] at hsent
      have := congrArg Backpressure.toPlugin hsent
      simp at this
    have hreplies : 0 < s.replies := by
      by_contra hnone
      have hcall := h .call
      rw [step, if_pos ⟨by omega, by omega⟩] at hcall
      have := congrArg Backpressure.toPlugin hcall
      simp at this
      omega
    refine ⟨hblocked, hhandling, hfull, hreplies, ?_⟩
    by_contra hroom
    have hreply := h .reply
    rw [step, if_pos ⟨hreplies, by omega⟩] at hreply
    have := congrArg Backpressure.toBot hreply
    simp at this
  · rintro ⟨hblocked, hhandling, hfull, hreplies, hfull'⟩ e
    cases e with
    | dispatch => rw [step, if_pos hblocked]
    | receive => rw [step, if_neg (by simp [hhandling])]
    | read => rw [step, if_neg (by simp [hblocked])]
    | getCommand => rw [step, if_neg (by simp [hhandling])]
    | sent => rw [step, if_neg (by omega)]
    | call => rw [step, if_neg (by omega)]
    | reply => rw [step, if_neg (by omega)]

/-- Every message offered is in one place, and so is every reply; `calls` messages have reached
the callback. -/
def Accounted (offered : ℕ) (s : Backpressure) : Prop :=
  ∃ calls, s.blocked.toNat + s.incoming + s.handling.toNat + s.toPlugin + calls ≤ offered ∧
    s.toBot + s.replies ≤ answers * calls

theorem Accounted.step {offered : ℕ} {s : Backpressure} (h : s.Accounted answers offered) (e : Event) :
    (s.step capacity capacity' answers e).Accounted answers
      (offered + if e = .dispatch then 1 else 0) := by
  obtain ⟨calls, hmessages, hreplies⟩ := h
  cases e with
  | dispatch =>
    refine ⟨calls, ?_⟩
    rw [if_pos rfl, Backpressure.step]
    split_ifs with hblocked hhandling
    · omega
    · simp [hblocked, hhandling] at hmessages ⊢
      omega
    · simp [hblocked, hhandling] at hmessages ⊢
      omega
  | receive =>
    refine ⟨calls, ?_⟩
    rw [if_neg (by simp), Backpressure.step]
    split_ifs with hfree
    · simp [hfree] at hmessages ⊢
      omega
    · omega
  | read =>
    refine ⟨calls, ?_⟩
    rw [if_neg (by simp), Backpressure.step]
    split_ifs
    · dsimp only
      omega
    · omega
  | getCommand =>
    refine ⟨calls, ?_⟩
    rw [if_neg (by simp), Backpressure.step]
    split_ifs with hfree
    · simp [hfree] at hmessages ⊢
      omega
    · omega
  | sent =>
    refine ⟨calls, ?_⟩
    rw [if_neg (by simp), Backpressure.step]
    split_ifs with hfree
    · simp [hfree] at hmessages ⊢
      omega
    · omega
  | call =>
    rw [if_neg (by simp), Backpressure.step]
    split_ifs with hfree
    · refine ⟨calls + 1, ?_⟩
      rw [Nat.mul_succ]
      dsimp only
      omega
    · exact ⟨calls, by omega⟩
  | reply =>
    refine ⟨calls, ?_⟩
    rw [if_neg (by simp), Backpressure.step]
    split_ifs
    · dsimp only
      omega
    · omega

theorem Accounted.run {offered : ℕ} {s : Backpressure} (h : s.Accounted answers offered)
    (w : List Event) :
    ((machine capacity capacity' answers).run s w).Accounted answers (offered + dispatches w) := by
  induction w generalizing s offered with
  | nil => exact h
  | cons e w ih =>
    have hrest := ih (h.step capacity capacity' answers e)
    have hcount : dispatches (e :: w) = (if e = .dispatch then 1 else 0) + dispatches w := by
      simp [dispatches, List.countP_cons, Nat.add_comm]
    rwa [hcount, ← Nat.add_assoc]

/-- A state that a run with `n` offered messages leads to. -/
def Reached (n : ℕ) (s : Backpressure) : Prop :=
  ∃ w, dispatches w = n ∧ (machine capacity capacity' answers).run {} w = s

section
variable {capacity capacity' answers} {n : ℕ} {s : Backpressure}

theorem Reached.step (h : Reached capacity capacity' answers n s) (e : Event) :
    Reached capacity capacity' answers (n + if e = .dispatch then 1 else 0)
      (s.step capacity capacity' answers e) := by
  obtain ⟨w, hw, hs⟩ := h
  refine ⟨w ++ [e], ?_, ?_⟩
  · rw [dispatches, List.countP_append, ← dispatches, hw]
    simp [List.countP_cons]
  · rw [Machine.Mealy.run_append, hs]
    rfl

/-- A message goes all the way to the connection. -/
theorem Reached.sent {t b q : ℕ} (h : Reached capacity capacity' answers n ⟨false, 0, false, t, b, q⟩)
    (hroom : t < capacity) :
    Reached capacity capacity' answers (n + 1) ⟨false, 0, false, t + 1, b, q⟩ := by
  have h := ((h.step .dispatch).step .getCommand).step .sent
  simpa [Backpressure.step, hroom] using h

/-- The callback sends as long as there is room. -/
theorem Reached.replies {t b q : ℕ} (h : Reached capacity capacity' answers n ⟨false, 0, false, t, b, q⟩)
    {k : ℕ} (hk : k ≤ b) (hroom : q + k ≤ capacity') :
    Reached capacity capacity' answers n ⟨false, 0, false, t, b - k, q + k⟩ := by
  induction k with
  | zero => exact h
  | succ k ih =>
    have h := (ih (by omega) (by omega)).step .reply
    have hsome : 0 < b - k := by omega
    have hfree : q + k < capacity' := by omega
    rw [if_neg (by simp), Backpressure.step, if_pos ⟨hsome, hfree⟩] at h
    exact h

theorem Reached.call {t q : ℕ} (h : Reached capacity capacity' answers n ⟨false, 0, false, t + 1, 0, q⟩) :
    Reached capacity capacity' answers n ⟨false, 0, false, t, answers, q⟩ := by
  have h := h.step .call
  simpa [Backpressure.step] using h

/-- While the replies find room, nothing else piles up. -/
theorem reached_rounds (hc : 0 < capacity) {k : ℕ} (hk : answers * k ≤ capacity') :
    Reached capacity capacity' answers k ⟨false, 0, false, 0, 0, answers * k⟩ := by
  induction k with
  | zero => exact ⟨[], rfl, rfl⟩
  | succ k ih =>
    rw [Nat.mul_succ] at hk ⊢
    have h := ((ih (by omega)).sent hc).call.replies (Nat.le_refl answers) hk
    rwa [Nat.sub_self] at h

/-- With a callback that cannot send, the connection to the plugin fills up. -/
theorem Reached.fill {b q : ℕ} (h : Reached capacity capacity' answers n ⟨false, 0, false, 0, b, q⟩)
    {t : ℕ} (ht : t ≤ capacity) :
    Reached capacity capacity' answers (n + t) ⟨false, 0, false, t, b, q⟩ := by
  induction t with
  | zero => exact h
  | succ t ih => exact (ih (by omega)).sent ht

/-- Two more messages: the worker waits with one, the io thread with the other. -/
theorem Reached.block {b q : ℕ}
    (h : Reached capacity capacity' answers n ⟨false, 0, false, capacity, b, q⟩) :
    Reached capacity capacity' answers (n + 2) ⟨true, 0, true, capacity, b, q⟩ := by
  have h := ((h.step .dispatch).step .getCommand).step .dispatch
  simpa [Backpressure.step] using h

end

/-- Whoever is stuck has been offered one message for each of the two threads, a full connection
and so many more that the replies to them overrun the connection back. -/
theorem lt_of_stuck (hc : 0 < capacity) {n : ℕ} {w : List Event} (hw : dispatches w ≤ n)
    (hstuck : ((machine capacity capacity' answers).run {} w).Stuck capacity capacity' answers) :
    capacity' < answers * (n - (capacity + 2)) := by
  rw [stuck_iff capacity capacity' answers hc] at hstuck
  obtain ⟨hblocked, hhandling, hfull, hreplies, hfull'⟩ := hstuck
  have hstart : ({} : Backpressure).Accounted answers 0 := ⟨0, by simp, by simp⟩
  obtain ⟨calls, hmessages, hanswers⟩ := hstart.run capacity capacity' answers w
  rw [hblocked, hhandling, Bool.toNat_true] at hmessages
  have hcalls : calls ≤ n - (capacity + 2) := by omega
  have hmono := Nat.mul_le_mul_left answers hcalls
  omega

/-- So many messages are enough. -/
theorem exists_stuck (hc : 0 < capacity) {n : ℕ} (h : capacity' < answers * (n - (capacity + 2))) :
    ∃ w, dispatches w ≤ n ∧
      ((machine capacity capacity' answers).run {} w).Stuck capacity capacity' answers := by
  have hpos : 0 < answers := by
    by_contra hzero
    rw [Nat.eq_zero_of_not_pos hzero, Nat.zero_mul] at h
    omega
  have hk := (Nat.div_lt_iff_lt_mul hpos).mpr (by rwa [Nat.mul_comm] at h)
  have hle : answers * (capacity' / answers) ≤ capacity' := Nat.mul_div_le capacity' answers
  have hlt : capacity' < answers * (capacity' / answers) + answers :=
    Nat.lt_mul_div_succ capacity' hpos
  -- so many rounds, and one whose replies do not all find room
  generalize capacity' / answers = k at hk hle hlt
  have hrounds : Reached capacity capacity' answers k ⟨false, 0, false, 0, 0, answers * k⟩ :=
    reached_rounds hc hle
  have hfull := (hrounds.sent hc).call.replies (k := capacity' - answers * k) (by omega) (by omega)
  obtain ⟨w, hw, hrun⟩ := (hfull.fill (Nat.le_refl capacity)).block
  refine ⟨w, by omega, ?_⟩
  rw [hrun, stuck_iff capacity capacity' answers hc]
  refine ⟨rfl, rfl, Nat.le_refl capacity, ?_, ?_⟩ <;> dsimp only <;> omega

/-- The bot, the worker and the remote plugin can come to wait for each other for ever with `n`
messages, and with no fewer than this takes: one in each of the two threads, a full connection
to the plugin, and so many that the replies to them overrun the connection back. -/
theorem deadlock_iff (hc : 0 < capacity) (n : ℕ) :
    (∃ w, dispatches w ≤ n ∧
        ((machine capacity capacity' answers).run {} w).Stuck capacity capacity' answers) ↔
      capacity' < answers * (n - (capacity + 2)) := by
  constructor
  · rintro ⟨w, hw, hstuck⟩
    exact lt_of_stuck capacity capacity' answers hc hw hstuck
  · exact exists_stuck capacity capacity' answers hc

/-- Room for one message each way and one reply to each: five messages are enough. -/
theorem deadlock_five :
    ∃ w, dispatches w ≤ 5 ∧ ((machine 1 1 1).run {} w).Stuck 1 1 1 :=
  (deadlock_iff 1 1 1 (by decide) 5).mpr (by decide)

end Backpressure
end IrcBot

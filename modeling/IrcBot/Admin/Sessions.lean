import IrcBot.Admin.AdminPort
import IrcBot.Machine.Growth
import Mathlib.Data.List.Induction

/-! The sessions of the admin port are elements of a vector, and the handler of a read points to
the element that has started it. A new session can move the elements to another storage, and a
command that shuts the bot down destroys them; a handler that goes on with such an element uses freed
memory. As long as the handlers return, their reads decide which of them do. -/
namespace IrcBot
open Machine

/-- The vector `m_clients` and the bot. A read is known by the number of moves before it was
started; a session without one has ended. -/
structure AdminPort.Sessions where
  core : Core
  storage : Storage := {}
  reads : List (Option ℕ) := []
  /-- How the last handler goes on. -/
  control : Control := .returns
  /-- A handler has used an element that is not there any more. -/
  dangling : Bool := false
  deriving DecidableEq, Repr

namespace AdminPort.Sessions

/-- A connection is accepted; the read of a session gives data, or ends with an error. Anything else
that happens changes the bot and leaves the admin port alone. -/
inductive Event
  | accept
  | receive (i : ℕ) (data : Bytes)
  | fail (i : ℕ)
  | change (core : Core)
  deriving DecidableEq, Repr

/- The size of the next storage of a vector that is full, and the plugins that can be loaded again. -/
variable (grow : ℕ → ℕ) (loads : Bytes → Bool)

/-- `push_back`, and `startReceiving` of the last element. -/
def addClient (s : Sessions) : Sessions :=
  let storage := s.storage.push grow s.reads.length
  { s with storage := storage, reads := s.reads ++ [some storage.moves] }

/-- The handler goes on with an element that is gone: it has moved, or `shutdown` has destroyed it. -/
def usesFreed (f : Found) (data : Bytes) : Bool :=
  f.moved || (endsSession data && (AdminPort.receive loads f data).1.2 = .returns)

/-- The handler without an error. -/
def receive (s : Sessions) (i : ℕ) (data : Bytes) : Sessions :=
  match s.reads[i]?.join with
  | none => s
  | some moves =>
    let f : Found := { core := s.core, moved := moves ≠ s.storage.moves }
    let r := AdminPort.receive loads f data
    { s with
      core := r.1.1
      reads := s.reads.set i (if r.2 then some s.storage.moves else none)
      control := r.1.2
      dangling := usesFreed loads f data }

/-- The handler of an error only logs. -/
def fail (s : Sessions) (i : ℕ) : Sessions := { s with reads := s.reads.set i none }

/-- The io thread can call a handler. -/
def Free (s : Sessions) : Prop := s.control = .returns ∧ s.dangling = false

instance (s : Sessions) : Decidable s.Free := inferInstanceAs (Decidable (_ ∧ _))

def step (s : Sessions) (e : Event) : Sessions :=
  if s.Free then
    match e with
    | .accept => s.addClient grow
    | .receive i data => s.receive loads i data
    | .fail i => s.fail i
    | .change core => if core.adminPort = s.core.adminPort then { s with core := core } else s
  else s

def machine : Mealy Sessions Event Empty := ⟨fun s e => (s.step grow loads e, [])⟩

/-- How many sessions there were when the read of each was started. -/
def started (w : List Event) : List (Option ℕ) :=
  w.foldl (fun ns e =>
    match e with
    | .accept => ns ++ [some (ns.length + 1)]
    | .receive i _ => if (ns[i]?.join).isSome then ns.set i (some ns.length) else ns
    | .fail i => ns.set i none
    | .change _ => ns) []

theorem started_append (w : List Event) (e : Event) :
    started (w ++ [e]) =
      match e with
      | .accept => started w ++ [some ((started w).length + 1)]
      | .receive i _ =>
        if ((started w)[i]?.join).isSome then (started w).set i (some (started w).length) else started w
      | .fail i => (started w).set i none
      | .change _ => started w := by
  rw [started, List.foldl_append]
  cases e <;> rfl

theorem started_le (w : List Event) {n : ℕ} (h : some n ∈ started w) : n ≤ (started w).length := by
  induction w using List.reverseRecOn generalizing n with
  | nil => simp [started] at h
  | append_singleton w e ih =>
    rw [started_append] at h ⊢
    cases e with
    | accept =>
      rw [List.length_append, List.length_singleton]
      rcases List.mem_append.mp h with h | h
      · exact Nat.le_succ_of_le (ih h)
      · obtain rfl : n = (started w).length + 1 := by simpa using h
        exact Nat.le_refl _
    | receive i data =>
      dsimp only at h ⊢
      split at h
      · next hsome =>
        rw [if_pos hsome, List.length_set]
        rcases List.mem_or_eq_of_mem_set h with h | h
        · exact ih h
        · obtain rfl := Option.some.inj h
          exact Nat.le_refl _
      · next hnone =>
        rw [if_neg hnone]
        exact ih h
    | fail i =>
      rw [List.length_set]
      rcases List.mem_or_eq_of_mem_set h with h | h
      · exact ih h
      · cases h
    | change core => exact ih h

/-- The elements have not moved since the read was started: between the two numbers of sessions
there is no size of the storage. -/
def Stayed (w : List Event) (i : ℕ) : Prop :=
  ∀ n, (started w)[i]?.join = some n → ∀ k, grow^[k] 0 < n ∨ (started w).length ≤ grow^[k] 0

/-- The session with a read does not shut the bot down. -/
def Remains (core : Core) (w : List Event) (i : ℕ) (data : Bytes) : Prop :=
  ((started w)[i]?.join).isSome → endsSession data = true →
    (processCommand loads core data).2 ≠ .returns

/-- The sessions are where their reads say. -/
structure Tracks (s : Sessions) (w : List Event) : Prop where
  storage : s.storage = .after grow (started w).length
  reads : s.reads = (started w).map (Option.map fun n => (Storage.after grow n).moves)

variable {grow loads} {s : Sessions} {w : List Event}

theorem Tracks.read (h : s.Tracks grow w) (i : ℕ) :
    s.reads[i]?.join = ((started w)[i]?.join).map fun n => (Storage.after grow n).moves := by
  rw [h.reads, List.getElem?_map]
  rcases (started w)[i]? with _ | _ | n <;> rfl

/-- Whether a handler finds its element where it was. -/
theorem Tracks.moved_iff (hgrow : ∀ n, n < grow n) (h : s.Tracks grow w) {i n : ℕ}
    (hi : (started w)[i]?.join = some n) :
    (Storage.after grow n).moves ≠ s.storage.moves ↔ ¬ Stayed grow w i := by
  have hmem : some n ∈ started w := List.mem_of_getElem? (Option.join_eq_some_iff.mp hi)
  rw [h.storage, ne_eq, not_iff_not, Storage.moves_eq_iff hgrow (started_le w hmem)]
  constructor
  · intro hall n' hn'
    obtain rfl : n = n' := Option.some.inj (hi.symm.trans hn')
    exact hall
  · exact fun hall => hall n hi

theorem Tracks.accept (h : s.Tracks grow w) : (s.addClient grow).Tracks grow (w ++ [.accept]) := by
  have hlength : s.reads.length = (started w).length := by simp [h.reads]
  have hpush : s.storage.push grow s.reads.length = .after grow ((started w).length + 1) := by
    rw [hlength, h.storage]
    rfl
  constructor
  · rw [started_append, List.length_append]
    exact hpush
  · rw [addClient, hpush, started_append, List.map_append, h.reads]
    rfl

theorem Tracks.fail (h : s.Tracks grow w) (i : ℕ) : (s.fail i).Tracks grow (w ++ [.fail i]) := by
  constructor
  · rw [started_append, List.length_set]
    exact h.storage
  · rw [Sessions.fail, started_append, h.reads, List.map_set]
    rfl

theorem Tracks.change {core' : Core} (h : s.Tracks grow w) (core : Core) :
    ({ s with core := core' } : Sessions).Tracks grow (w ++ [.change core]) := by
  constructor
  · rw [started_append]
    exact h.storage
  · rw [started_append]
    exact h.reads

/-- A read that is handled without the use of freed memory; if the handler returns, the next one is
started. -/
theorem Tracks.receive (hgrow : ∀ n, n < grow n) (loads : Bytes → Bool) (h : s.Tracks grow w) (hfree : s.Free) (i : ℕ)
    (data : Bytes) :
    ((s.receive loads i data).dangling = false ↔ Stayed grow w i ∧ Remains loads s.core w i data) ∧
      ((s.receive loads i data).Free → (s.receive loads i data).Tracks grow (w ++ [.receive i data])) := by
  unfold Sessions.receive
  rw [h.read i]
  cases hi : (started w)[i]?.join with
  | none =>
    have hstarted : started (w ++ [.receive i data]) = started w := by simp [started_append, hi]
    refine ⟨iff_of_true hfree.2 ⟨by simp [Stayed, hi], by simp [Remains, hi]⟩, fun _ => ⟨?_, ?_⟩⟩
    · rw [hstarted]
      exact h.storage
    · rw [hstarted]
      exact h.reads
  | some n =>
    have hmoved := h.moved_iff hgrow hi
    have hstarted : started (w ++ [.receive i data]) = (started w).set i (some (started w).length) := by
      simp [started_append, hi]
    by_cases hstayed : Stayed grow w i
    · have heq : (Storage.after grow n).moves = s.storage.moves :=
        not_not.mp fun hne => hmoved.mp hne hstayed
      have hstay : (⟨s.core, decide ((Storage.after grow n).moves ≠ s.storage.moves)⟩ : Found) =
          { core := s.core } := by simp [heq]
      have hreceive : AdminPort.receive loads { core := s.core } data =
          (processCommand loads s.core data,
            (processCommand loads s.core data).2 = .returns && !endsSession data) := rfl
      rw [Option.map_some]
      dsimp only
      rw [hstay, hreceive]
      refine ⟨?_, fun hafter => ⟨?_, ?_⟩⟩
      · simp [hstayed, Remains, hi, usesFreed, hreceive]
      · rw [hstarted, List.length_set]
        exact h.storage
      · have hends : endsSession data = false := by
          have hret : (processCommand loads s.core data).2 = .returns := hafter.1
          have hfreed : usesFreed loads { core := s.core } data = false := hafter.2
          simpa [usesFreed, hreceive, hret] using hfreed
        have hret : (processCommand loads s.core data).2 = .returns := hafter.1
        rw [hstarted, List.map_set, ← h.reads, hret, hends, h.storage]
        rfl
    · have hfreed : usesFreed loads
          ⟨s.core, decide ((Storage.after grow n).moves ≠ s.storage.moves)⟩ data = true := by
        simp [usesFreed, hmoved.mpr hstayed]
      rw [Option.map_some]
      dsimp only
      rw [hfreed]
      exact ⟨iff_of_false nofun fun hsafe => hstayed hsafe.1, fun hafter => by cases hafter.2⟩

/-- Every read that the io thread handles finds its element where it was when it was started, and does
not destroy it. -/
def Safe (grow : ℕ → ℕ) (loads : Bytes → Bool) (c : Core) (w : List Event) : Prop :=
  ∀ u i data v, w = u ++ .receive i data :: v →
    ((machine grow loads).run { core := c } u).control = .returns →
      Stayed grow u i ∧ Remains loads ((machine grow loads).run { core := c } u).core u i data

variable {c : Core}

theorem safe_append (w : List Event) (e : Event) :
    Safe grow loads c (w ++ [e]) ↔ Safe grow loads c w ∧
      ∀ i data, e = .receive i data → ((machine grow loads).run { core := c } w).control = .returns →
        Stayed grow w i ∧ Remains loads ((machine grow loads).run { core := c } w).core w i data := by
  constructor
  · intro h
    refine ⟨fun u i data v hw => h u i data (v ++ [e]) (by rw [hw]; simp), fun i data he => ?_⟩
    exact h w i data [] (by rw [he])
  · rintro ⟨hw, he⟩ u i data v huv
    rcases List.eq_nil_or_concat' v with rfl | ⟨v, e', rfl⟩
    · obtain ⟨rfl, hlast⟩ := List.append_inj' huv rfl
      exact he i data (List.singleton_inj.mp hlast)
    · rw [← List.cons_append, ← List.append_assoc] at huv
      exact hw u i data v (List.append_inj' huv rfl).1

/-- The handlers of the sessions use no freed element exactly if every read that is handled finds that
the vector has not outgrown its storage since it was started, and shuts nothing down. -/
theorem dangling_iff (hgrow : ∀ n, n < grow n) (loads : Bytes → Bool) (c : Core) (w : List Event) :
    ((machine grow loads).run { core := c } w).dangling = false ↔ Safe grow loads c w := by
  have hrun : (((machine grow loads).run { core := c } w).dangling = false ↔ Safe grow loads c w) ∧
      (((machine grow loads).run { core := c } w).Free →
        ((machine grow loads).run { core := c } w).Tracks grow w) := by
    induction w using List.reverseRecOn with
    | nil => exact ⟨iff_of_true rfl fun u i data v hw => by simp at hw, fun _ => ⟨rfl, rfl⟩⟩
    | append_singleton w e ih =>
      obtain ⟨hdangling, htracks⟩ := ih
      have hlast : (machine grow loads).run { core := c } (w ++ [e]) =
          ((machine grow loads).run { core := c } w).step grow loads e := by
        rw [Mealy.run_append]
        rfl
      rw [safe_append, ← hdangling, hlast]
      obtain ⟨s, hs⟩ : ∃ s, (machine grow loads).run { core := c } w = s := ⟨_, rfl⟩
      rw [hs] at hdangling htracks ⊢
      by_cases hfree : s.Free
      · have htrack := htracks hfree
        unfold step
        rw [if_pos hfree]
        cases e with
        | accept => exact ⟨iff_of_true hfree.2 ⟨hfree.2, nofun⟩, fun _ => htrack.accept⟩
        | fail i => exact ⟨iff_of_true hfree.2 ⟨hfree.2, nofun⟩, fun _ => htrack.fail i⟩
        | change core =>
          dsimp only
          split_ifs
          · exact ⟨iff_of_true hfree.2 ⟨hfree.2, nofun⟩, fun _ => htrack.change core⟩
          · exact ⟨iff_of_true hfree.2 ⟨hfree.2, nofun⟩, fun _ => htrack.change core⟩
        | receive i data =>
          obtain ⟨hiff, hnext⟩ := htrack.receive hgrow loads hfree i data
          refine ⟨hiff.trans ⟨fun h => ⟨hfree.2, ?_⟩, fun h => h.2 i data rfl hfree.1⟩, hnext⟩
          rintro j data' he -
          obtain ⟨rfl, rfl⟩ := Event.receive.inj he
          exact h
      · unfold step
        rw [if_neg hfree]
        refine ⟨⟨fun h => ⟨h, fun i data _ hret => absurd ⟨hret, h⟩ hfree⟩, fun h => h.1⟩, ?_⟩
        exact fun h => absurd h hfree
  exact hrun.1

/-- With a storage that doubles the second session already leaves the first one behind. -/
theorem dangling_second :
    ((machine (fun n => n + max n 1) fun _ => true).run { core := {} }
      [.accept, .accept, .receive 0 []]).dangling = true := by
  have h := @dangling_iff (fun n => n + max n 1) (fun n => by omega) (fun _ => true) {}
    [.accept, .accept, .receive 0 []]
  refine Bool.eq_true_of_not_eq_false fun hfalse => ?_
  obtain ⟨hstayed, -⟩ := h.mp hfalse [.accept, .accept] 0 [] [] rfl (by decide)
  -- the read was started with one session, for which there was room
  rcases hstayed 1 (by decide) 1 with hlt | hle
  · exact absurd hlt (by decide)
  · exact absurd hle (by decide)

end AdminPort.Sessions
end IrcBot

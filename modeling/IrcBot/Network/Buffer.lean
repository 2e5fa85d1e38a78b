import IrcBot.Bytes
import IrcBot.Machine.Fifo

/-! The buffer of received data, a `boost::circular_buffer<char>` behind a mutex. The
circular buffer is a parameter of the model; from what is documented of its functions the
buffer is a bounded queue of bytes. -/
namespace IrcBot.Network
open Machine

/-- What `Buffer` uses of `boost::circular_buffer<char>`. -/
structure CircularBuffer where
  Carrier : Type
  /-- The constructor with a capacity. -/
  ofCapacity : ℕ → Carrier
  capacity : Carrier → ℕ
  /-- The elements from `begin()` to `end()`. -/
  elems : Carrier → Bytes
  /-- `insert(end(), first, last)` -/
  insertEnd : Carrier → Bytes → Carrier
  /-- `erase(begin(), begin() + n)` -/
  eraseBegin : Carrier → ℕ → Carrier

/-- The documented effects: a range inserted at the end of a buffer of capacity `c` leaves
the newest `c` elements, and a range erased at the front leaves the elements behind it. -/
structure CircularBuffer.Documented (C : CircularBuffer) : Prop where
  capacity_ofCapacity : ∀ c, C.capacity (C.ofCapacity c) = c
  elems_ofCapacity : ∀ c, C.elems (C.ofCapacity c) = []
  capacity_insertEnd : ∀ b data, C.capacity (C.insertEnd b data) = C.capacity b
  elems_insertEnd : ∀ b data, C.elems (C.insertEnd b data) = (C.elems b ++ data).rtake (C.capacity b)
  capacity_eraseBegin : ∀ b n, n ≤ (C.elems b).length → C.capacity (C.eraseBegin b n) = C.capacity b
  elems_eraseBegin : ∀ b n, n ≤ (C.elems b).length → C.elems (C.eraseBegin b n) = (C.elems b).drop n

structure Buffer (C : CircularBuffer) where
  buffer : C.Carrier

namespace Buffer
variable {C : CircularBuffer}

def defaultBufferSize : ℕ := 4096

def new (size : ℕ := defaultBufferSize) : Buffer C := ⟨C.ofCapacity size⟩

def size (b : Buffer C) : ℕ := (C.elems b.buffer).length

def full (b : Buffer C) : Bool := b.size = C.capacity b.buffer

def empty (b : Buffer C) : Bool := b.size = 0

def append (b : Buffer C) (data : Bytes) : Buffer C := ⟨C.insertEnd b.buffer data⟩

/-- The overload for a pointer and a size. -/
def appendChars (b : Buffer C) (data : Bytes) (size : ℕ) : Buffer C := b.append (data.take size)

/-- The bytes returned and the buffer without them. -/
def get (b : Buffer C) (num : ℕ) : Bytes × Buffer C :=
  let num := min num b.size
  ((C.elems b.buffer).take num, ⟨C.eraseBegin b.buffer num⟩)

/-- `get()` -/
def getAll (b : Buffer C) : Bytes × Buffer C := b.get b.size

/-- The unread bytes, oldest first. -/
def content (b : Buffer C) : Bytes := C.elems b.buffer

def step (b : Buffer C) : Fifo.Op Byte → Buffer C × List Bytes
  | .append data => (b.append data, [])
  | .get num => ((b.get num).2, [(b.get num).1])

/-- The buffer as a machine whose outputs are the results of `get`. -/
def machine (C : CircularBuffer) : Mealy (Buffer C) (Fifo.Op Byte) Bytes := ⟨step⟩

/-- The buffer of capacity `c` after a sequence of calls. -/
def after (C : CircularBuffer) (c : ℕ) (ops : List (Fifo.Op Byte)) : Buffer C :=
  (machine C).run (new c) ops

/-- What the calls of `get` have returned. -/
def results (C : CircularBuffer) (c : ℕ) (ops : List (Fifo.Op Byte)) : List Bytes :=
  (machine C).out (new c) ops

/-- A bounded queue of bytes that does not see how data is cut into appends. -/
structure BoundedFifo (C : CircularBuffer) (c : ℕ) : Prop where
  /-- `get` returns the oldest unread bytes and removes exactly them. -/
  get : ∀ ops num,
    ((after C c ops).get num).1 = (after C c ops).content.take (min num (after C c ops).size) ∧
      (after C c ops).content =
        ((after C c ops).get num).1 ++ ((after C c ops).get num).2.content
  /-- Without a number it returns all of them. -/
  getAll : ∀ ops, (after C c ops).getAll.1 = (after C c ops).content ∧
    (after C c ops).getAll.2.content = []
  /-- An append may be made in pieces. -/
  split : ∀ (pre post : List (Fifo.Op Byte)) (pieces : List Bytes),
    results C c (pre ++ pieces.map .append ++ post) =
        results C c (pre ++ [.append pieces.flatten] ++ post) ∧
      (after C c (pre ++ pieces.map .append ++ post)).content =
        (after C c (pre ++ [.append pieces.flatten] ++ post)).content
  bounded : ∀ ops, (after C c ops).content.length ≤ c
  /-- The content is the end of the bytes not returned: of the bytes appended before it, some
  were returned and the others overwritten. -/
  suffix : ∀ ops, ∃ earlier overwritten,
    Fifo.appended ops = earlier ++ (after C c ops).content ∧
      Splits earlier (results C c ops).flatten overwritten ∧
      Splits (Fifo.appended ops) (results C c ops).flatten
        (overwritten ++ (after C c ops).content)
  /-- Nothing is lost while there is room for the bytes not returned. -/
  lossless : ∀ ops,
    (∀ v, v <+: ops → (Fifo.appended v).length ≤ (results C c v).flatten.length + c) →
      (results C c ops).flatten ++ (after C c ops).content = Fifo.appended ops

/-- The buffer holds the elements of a queue of the same capacity. -/
def Holds (c : ℕ) (b : Buffer C) (q : Bytes) : Prop :=
  b.content = q ∧ C.capacity b.buffer = c

theorem get_fst (b : Buffer C) (num : ℕ) : (b.get num).1 = b.content.take num :=
  (List.take_eq_take_min).symm

theorem get_snd (hC : C.Documented) (b : Buffer C) (num : ℕ) :
    (b.get num).2.content = b.content.drop num := by
  have hle : min num b.size ≤ (C.elems b.buffer).length := Nat.min_le_right _ _
  change C.elems (C.eraseBegin b.buffer (min num b.size)) = _
  rw [hC.elems_eraseBegin _ _ hle]
  exact (List.drop_eq_drop_min).symm

theorem get_content (hC : C.Documented) (b : Buffer C) (num : ℕ) :
    b.content = (b.get num).1 ++ (b.get num).2.content := by
  rw [get_fst, get_snd hC, List.take_append_drop]

/-- `get()` empties the buffer. -/
theorem getAll_eq (hC : C.Documented) (b : Buffer C) :
    b.getAll.1 = b.content ∧ b.getAll.2.content = [] := by
  rw [getAll, get_fst, get_snd hC]
  exact ⟨List.take_length, List.drop_length⟩

theorem holds_new (hC : C.Documented) (c : ℕ) : Holds c (new c : Buffer C) [] :=
  ⟨hC.elems_ofCapacity c, hC.capacity_ofCapacity c⟩

/-- Every call is the operation of the queue. -/
theorem Holds.step (hC : C.Documented) {c : ℕ} {b : Buffer C} {q : Bytes} (h : Holds c b q)
    (op : Fifo.Op Byte) :
    Holds c ((machine C).step b op).1 ((fifo c).step q op).1 ∧
      ((machine C).step b op).2 = ((fifo c).step q op).2 := by
  obtain ⟨rfl, rfl⟩ := h
  cases op with
  | append data =>
    exact ⟨⟨hC.elems_insertEnd b.buffer data, hC.capacity_insertEnd b.buffer data⟩, rfl⟩
  | get num =>
    have hle : min num b.size ≤ (C.elems b.buffer).length := Nat.min_le_right _ _
    refine ⟨⟨get_snd hC b num, hC.capacity_eraseBegin _ _ hle⟩, ?_⟩
    exact congrArg (fun w => [w]) (get_fst b num)

/-- The buffer is the queue of its capacity, call by call. -/
theorem refines (hC : C.Documented) (c : ℕ) (ops : List (Fifo.Op Byte)) :
    (after C c ops).content = (fifo c).run [] ops ∧ results C c ops = (fifo c).out [] ops := by
  obtain ⟨hrun, hout⟩ := (machine C).simulation (N := fifo c) (R := Holds c)
    (fun _ _ op h => h.step hC op) (holds_new hC c) ops
  exact ⟨hrun.1, hout⟩

/-- The buffer is a bounded queue of bytes, for every capacity and every sequence of calls. -/
theorem boundedFifo (hC : C.Documented) (c : ℕ) : BoundedFifo C c where
  get ops num := by
    refine ⟨?_, get_content hC _ num⟩
    rw [get_fst]
    exact List.take_eq_take_min
  getAll ops := getAll_eq hC (after C c ops)
  split pre post pieces := by
    rw [(refines hC c _).1, (refines hC c _).1, (refines hC c _).2, (refines hC c _).2]
    exact Fifo.append_split pre post pieces
  bounded ops := by
    rw [(refines hC c ops).1]
    exact Fifo.length_run_le (Nat.zero_le c) ops
  suffix ops := by
    obtain ⟨earlier, overwritten, happ, hsplit⟩ := Fifo.exists_overwritten (c := c) ops
    rw [(refines hC c ops).1, (refines hC c ops).2]
    refine ⟨earlier, overwritten, happ, hsplit, ?_⟩
    rw [happ]
    exact hsplit.append_right _
  lossless ops hroom := by
    simp only [(refines hC c _).1, (refines hC c _).2] at hroom ⊢
    exact Fifo.out_append_run hroom

end Buffer

/-- A circular buffer whose elements are kept in a list. -/
def CircularBuffer.list : CircularBuffer where
  Carrier := ℕ × Bytes
  ofCapacity c := (c, [])
  capacity := Prod.fst
  elems := Prod.snd
  insertEnd b data := (b.1, (b.2 ++ data).rtake b.1)
  eraseBegin b n := (b.1, b.2.drop n)

theorem CircularBuffer.documented_list : CircularBuffer.list.Documented where
  capacity_ofCapacity _ := rfl
  elems_ofCapacity _ := rfl
  capacity_insertEnd _ _ := rfl
  elems_insertEnd _ _ := rfl
  capacity_eraseBegin _ _ _ := rfl
  elems_eraseBegin _ _ _ := rfl

/-- The buffer of the tests. -/
theorem Buffer.boundedFifo_list : Buffer.BoundedFifo .list 10 :=
  Buffer.boundedFifo CircularBuffer.documented_list 10

/-- Three bytes appended to a full buffer overwrite the three oldest. -/
example : Buffer.results .list 10
    [.append (text "0123456789".toList), .append (text "abc".toList), .get 10] =
      [text "3456789abc".toList] := by decide

end IrcBot.Network

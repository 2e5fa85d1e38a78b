import IrcBot.Wire.Varint

/-! Fields of the wire format: a tag made of a field number and a wire type, and a value.
The reader takes one byte at a time and emits a field when its last byte has arrived;
groups are marks between fields and are taken out with their content afterwards. -/
namespace Wire

/-- Values that consist of a known number of bytes. -/
inductive Kind
  | fixed64 | delimited | fixed32
  deriving DecidableEq, Repr

inductive Value
  | varint (n : ℕ)
  | block (kind : Kind) (w : List UInt8)
  | startGroup
  | endGroup
  deriving DecidableEq, Repr

structure Field where
  number : ℕ
  value : Value
  deriving DecidableEq, Repr

def Kind.wireType : Kind → ℕ
  | .fixed64 => 1
  | .delimited => 2
  | .fixed32 => 5

def Value.wireType : Value → ℕ
  | .varint _ => 0
  | .block kind _ => kind.wireType
  | .startGroup => 3
  | .endGroup => 4

def Kind.encode (kind : Kind) (w : List UInt8) : List UInt8 :=
  match kind with
  | .delimited => varint w.length ++ w
  | .fixed64 | .fixed32 => w

def Value.encode : Value → List UInt8
  | .varint n => Wire.varint n
  | .block kind w => kind.encode w
  | .startGroup | .endGroup => []

def Field.tag (f : Field) : ℕ := 8 * f.number + f.value.wireType

def Field.encode (f : Field) : List UInt8 := varint f.tag ++ f.value.encode

/-- The fields one after the other. -/
def encode (fs : List Field) : List UInt8 := fs.flatMap Field.encode

@[simp] theorem encode_nil : encode [] = [] := rfl

@[simp] theorem encode_cons (f : Field) (fs : List Field) :
    encode (f :: fs) = f.encode ++ encode fs := rfl

@[simp] theorem encode_append (fs gs : List Field) : encode (fs ++ gs) = encode fs ++ encode gs :=
  List.flatMap_append

/-- What a varint under way is read for. -/
inductive Purpose
  | tag
  | value (number : ℕ)
  | length (number : ℕ)
  deriving DecidableEq, Repr

/-- How far the current field has been read. -/
inductive Reading
  | number (p : Purpose) (count acc : ℕ)
  | payload (number : ℕ) (kind : Kind) (left : ℕ) (w : List UInt8)
  | malformed
  deriving DecidableEq, Repr

namespace Reading

/-- Between two fields. -/
def idle : Reading := .number .tag 0 0

/-- The last byte of a varint with value `n` has been read. -/
def finish (p : Purpose) (n : ℕ) : Reading × List Field :=
  match p with
  | .tag =>
    if n / 8 = 0 ∨ 2 ^ 32 ≤ n then (.malformed, [])
    else match n % 8 with
      | 0 => (.number (.value (n / 8)) 0 0, [])
      | 1 => (.payload (n / 8) .fixed64 7 [], [])
      | 2 => (.number (.length (n / 8)) 0 0, [])
      | 3 => (idle, [⟨n / 8, .startGroup⟩])
      | 4 => (idle, [⟨n / 8, .endGroup⟩])
      | 5 => (.payload (n / 8) .fixed32 3 [], [])
      | _ => (.malformed, [])
  | .value k => (idle, [⟨k, .varint n⟩])
  | .length k =>
    if n = 0 then (idle, [⟨k, .block .delimited []⟩])
    else if n < 2 ^ 31 then (.payload k .delimited (n - 1) [], [])
    else (.malformed, [])

/-- One byte. A varint keeps 64 bits and has at most ten bytes; `left` counts the bytes
of a payload after the next one. -/
def step (r : Reading) (x : UInt8) : Reading × List Field :=
  match r with
  | .number p count acc =>
    let acc := acc + x.toNat % 128 * 128 ^ count
    if x.toNat < 128 then finish p (acc % 2 ^ 64)
    else if count + 1 < 10 then (.number p (count + 1) acc, [])
    else (.malformed, [])
  | .payload k kind left w =>
    if left = 0 then (idle, [⟨k, .block kind (w ++ [x])⟩])
    else (.payload k kind (left - 1) (w ++ [x]), [])
  | .malformed => (.malformed, [])

end Reading

/-- The reader as a machine that emits the fields it completes. -/
def reader : Machine.Mealy Reading UInt8 Field := ⟨Reading.step⟩

@[simp] theorem reader_step (r : Reading) (x : UInt8) : reader.step r x = r.step x := rfl

/-- The numbers of the open groups, `none` after a group mark that closes no open group. -/
abbrev Open := Option (List ℕ)

/-- Fields inside of a group are dropped. -/
def Open.step (o : Open) (f : Field) : Open × List Field :=
  match o with
  | none => (none, [])
  | some ks =>
    match f.value with
    | .startGroup => (some (f.number :: ks), [])
    | .endGroup => (if ks.head? = some f.number then some ks.tail else none, [])
    | .varint _ | .block .. => (some ks, if ks = [] then [f] else [])

/-- The machine that takes groups out of a list of fields. -/
def groups : Machine.Mealy Open Field Field := ⟨Open.step⟩

@[simp] theorem groups_step (o : Open) (f : Field) : groups.step o f = o.step f := rfl

/-- The fields of a byte string, if all of it is well-formed. -/
def fields (w : List UInt8) : Option (List Field) :=
  if reader.run .idle w = .idle ∧ groups.run (some []) (reader.out .idle w) = some [] then
    some (groups.out (some []) (reader.out .idle w))
  else none

end Wire

import IrcBot.Wire.Field

/-! Reading back what was written: every valid field, every list of fields outside of
groups, and every concatenation. In the other direction a byte string is never shorter
than the shortest encoding of the fields read from it. -/
namespace Wire

/-- The condition under which a field can be written. -/
def Field.Valid (f : Field) : Prop :=
  0 < f.number ∧ f.number < 2 ^ 29 ∧
    match f.value with
    | .varint n => n < 2 ^ 64
    | .block .delimited w => w.length < 2 ^ 31
    | .block .fixed64 w => w.length = 8
    | .block .fixed32 w => w.length = 4
    | .startGroup | .endGroup => True

namespace Reading

private theorem run_varintGroups (p : Purpose) (fuel count acc n : ℕ) (hfuel : fuel + count = 9)
    (hn : n < 128 ^ (fuel + 1)) :
    reader.run (.number p count acc) (varintGroups (fuel + 1) n) =
        (finish p ((acc + n * 128 ^ count) % 2 ^ 64)).1 ∧
      reader.out (.number p count acc) (varintGroups (fuel + 1) n) =
        (finish p ((acc + n * 128 ^ count) % 2 ^ 64)).2 := by
  induction fuel generalizing count acc n with
  | zero =>
    have hlt : n < 128 := by simpa using hn
    have hx : (UInt8.ofNat n).toNat = n := by
      rw [UInt8.toNat_ofNat']
      omega
    have hmod : n % 128 = n := by omega
    simp [varintGroups, step, hlt, hx, hmod]
  | succ fuel ih =>
    rw [varintGroups]
    split
    · next hlt =>
      have hx : (UInt8.ofNat n).toNat = n := by
        rw [UInt8.toNat_ofNat']
        omega
      have hmod : n % 128 = n := by omega
      simp [step, hlt, hx, hmod]
    · have hx : (UInt8.ofNat (n % 128 + 128)).toNat = n % 128 + 128 := by
        rw [UInt8.toNat_ofNat']
        omega
      have hdiv : n / 128 < 128 ^ (fuel + 1) := by
        rw [Nat.div_lt_iff_lt_mul (by decide), ← pow_succ]
        exact hn
      have hstep : reader.step (.number p count acc) (UInt8.ofNat (n % 128 + 128)) =
          (.number p (count + 1) (acc + n % 128 * 128 ^ count), []) := by
        have h1 : ¬ n % 128 + 128 < 128 := by omega
        have h2 : count + 1 < 10 := by omega
        have h3 : (n % 128 + 128) % 128 = n % 128 := by omega
        rw [reader_step, step, hx]
        simp only [if_neg h1, if_pos h2, h3]
      have hacc : acc + n % 128 * 128 ^ count + n / 128 * 128 ^ (count + 1) =
          acc + n * 128 ^ count := by
        have hn' : n % 128 + n / 128 * 128 = n := by omega
        rw [pow_succ, mul_comm (128 ^ count) 128, ← mul_assoc, add_assoc, ← add_mul, hn']
      obtain ⟨hrun, hout⟩ := ih (count + 1) (acc + n % 128 * 128 ^ count) (n / 128) (by omega) hdiv
      rw [Machine.Mealy.run_cons, Machine.Mealy.out_cons, hstep, hrun, hout, hacc]
      exact ⟨rfl, rfl⟩

/-- A varint is read as the number it was made of. -/
theorem run_varint (p : Purpose) {n : ℕ} (hn : n < 2 ^ 64) :
    reader.run (.number p 0 0) (varint n) = (finish p n).1 ∧
      reader.out (.number p 0 0) (varint n) = (finish p n).2 := by
  have h := run_varintGroups p 9 0 0 n rfl (hn.trans (by decide))
  rw [pow_zero, mul_one, zero_add, Nat.mod_eq_of_lt hn] at h
  exact h

/-- A payload is read up to its last byte. -/
theorem run_payload (k : ℕ) (kind : Kind) (v w : List UInt8) (hw : w ≠ []) :
    reader.run (.payload k kind (w.length - 1) v) w = .idle ∧
      reader.out (.payload k kind (w.length - 1) v) w = [⟨k, .block kind (v ++ w)⟩] := by
  induction w generalizing v with
  | nil => exact absurd rfl hw
  | cons x w ih =>
    cases w with
    | nil => simp [step]
    | cons y w =>
      have hstep : reader.step (.payload k kind ((x :: y :: w).length - 1) v) x =
          (.payload k kind ((y :: w).length - 1) (v ++ [x]), []) := by simp [step]
      obtain ⟨hrun, hout⟩ := ih (v ++ [x]) (by simp)
      rw [Machine.Mealy.run_cons, Machine.Mealy.out_cons, hstep, hrun, hout]
      simp

theorem finish_tag {f : Field} (hpos : 0 < f.number) (hlt : f.number < 2 ^ 29) :
    finish .tag f.tag =
      match f.value with
      | .varint _ => (.number (.value f.number) 0 0, [])
      | .block .fixed64 _ => (.payload f.number .fixed64 7 [], [])
      | .block .delimited _ => (.number (.length f.number) 0 0, [])
      | .block .fixed32 _ => (.payload f.number .fixed32 3 [], [])
      | .startGroup => (idle, [⟨f.number, .startGroup⟩])
      | .endGroup => (idle, [⟨f.number, .endGroup⟩]) := by
  have hwire : f.value.wireType ≤ 5 := by
    cases f.value with
    | block kind w => cases kind <;> simp [Value.wireType, Kind.wireType]
    | varint | startGroup | endGroup => simp [Value.wireType]
  have hdiv : f.tag / 8 = f.number := by
    unfold Field.tag
    omega
  have hmod : f.tag % 8 = f.value.wireType := by
    unfold Field.tag
    omega
  have hbound : ¬ (f.number = 0 ∨ 2 ^ 32 ≤ f.tag) := by
    unfold Field.tag
    omega
  simp only [finish, hdiv, hmod, if_neg hbound]
  cases f.value with
  | block kind w => cases kind <;> rfl
  | varint | startGroup | endGroup => rfl

theorem tag_lt {f : Field} (h : f.Valid) : f.tag < 2 ^ 64 := by
  have hwire : f.value.wireType ≤ 5 := by
    cases f.value with
    | block kind w => cases kind <;> simp [Value.wireType, Kind.wireType]
    | varint | startGroup | endGroup => simp [Value.wireType]
  have := h.2.1
  unfold Field.tag
  omega

/-- A valid field is read back. -/
theorem run_field {f : Field} (h : f.Valid) :
    reader.run .idle f.encode = .idle ∧ reader.out .idle f.encode = [f] := by
  obtain ⟨hrun, hout⟩ := run_varint .tag (tag_lt h)
  obtain ⟨k, v⟩ := f
  obtain ⟨hpos, hlt, hv⟩ := h
  rw [finish_tag hpos hlt] at hrun hout
  rw [Field.encode, Machine.Mealy.run_append, Machine.Mealy.out_append, idle, hrun, hout]
  cases v with
  | varint n =>
    obtain ⟨hr, ho⟩ := run_varint (.value k) hv
    exact ⟨hr, ho⟩
  | startGroup | endGroup => exact ⟨rfl, rfl⟩
  | block kind w =>
    cases kind with
    | fixed64 =>
      have hne : w ≠ [] := by
        rintro rfl
        exact absurd hv (by simp)
      have hp := run_payload k .fixed64 [] w hne
      rw [show w.length = 8 from hv] at hp
      exact hp
    | fixed32 =>
      have hne : w ≠ [] := by
        rintro rfl
        exact absurd hv (by simp)
      have hp := run_payload k .fixed32 [] w hne
      rw [show w.length = 4 from hv] at hp
      exact hp
    | delimited =>
      have hlen : w.length < 2 ^ 31 := hv
      obtain ⟨hr, ho⟩ := run_varint (.length k) (hlen.trans (by decide))
      simp only [Value.encode, Kind.encode, Machine.Mealy.run_append, Machine.Mealy.out_append, hr, ho]
      by_cases hne : w = []
      · subst hne
        exact ⟨rfl, rfl⟩
      · have hlen0 : w.length ≠ 0 := by simpa using hne
        simp only [finish, if_neg hlen0, if_pos hlen]
        exact run_payload k .delimited [] w hne

theorem run_encode {fs : List Field} (h : ∀ f ∈ fs, f.Valid) :
    reader.run .idle (encode fs) = .idle ∧ reader.out .idle (encode fs) = fs := by
  induction fs with
  | nil => exact ⟨rfl, rfl⟩
  | cons f fs ih =>
    obtain ⟨hr, ho⟩ := run_field (h f (by simp))
    obtain ⟨hrs, hos⟩ := ih fun g hg => h g (by simp [hg])
    rw [encode_cons, Machine.Mealy.run_append, Machine.Mealy.out_append, hr, ho, hrs, hos]
    exact ⟨rfl, rfl⟩

end Reading

/-- A field that is no group mark. -/
def Value.IsPlain : Value → Prop
  | .varint _ | .block .. => True
  | .startGroup | .endGroup => False

theorem run_groups {fs : List Field} (h : ∀ f ∈ fs, f.value.IsPlain) :
    groups.run (some []) fs = some [] ∧ groups.out (some []) fs = fs := by
  induction fs with
  | nil => exact ⟨rfl, rfl⟩
  | cons f fs ih =>
    have hstep : groups.step (some []) f = (some [], [f]) := by
      have hf := h f (by simp)
      obtain ⟨k, v⟩ := f
      cases v with
      | startGroup | endGroup => exact hf.elim
      | varint | block => rfl
    obtain ⟨hrun, hout⟩ := ih fun g hg => h g (by simp [hg])
    rw [Machine.Mealy.run_cons, Machine.Mealy.out_cons, hstep, hrun, hout]
    exact ⟨rfl, rfl⟩

/-- Fields outside of groups are read back from their encoding. -/
theorem fields_encode {fs : List Field} (h : ∀ f ∈ fs, f.Valid ∧ f.value.IsPlain) :
    fields (encode fs) = some fs := by
  obtain ⟨hrun, hout⟩ := Reading.run_encode fun f hf => (h f hf).1
  obtain ⟨hgrun, hgout⟩ := run_groups fun f hf => (h f hf).2
  rw [fields, hrun, hout, hgrun, hgout, if_pos ⟨rfl, rfl⟩]

/-- Fields outside of groups with a varint or a delimited block as their value. -/
def Field.Proper (f : Field) : Prop :=
  0 < f.number ∧ f.number < 2 ^ 29 ∧
    match f.value with
    | .varint n => n < 2 ^ 64
    | .block .delimited _ => True
    | _ => False

/-- Only the length of its block can keep a proper field from being written. -/
theorem Field.Proper.valid {f : Field} (h : f.Proper) (hlen : f.encode.length < 2 ^ 31) :
    f.Valid ∧ f.value.IsPlain := by
  obtain ⟨k, v⟩ := f
  obtain ⟨hpos, hlt, hv⟩ := h
  cases v with
  | varint n => exact ⟨⟨hpos, hlt, hv⟩, trivial⟩
  | startGroup | endGroup => exact hv.elim
  | block kind w =>
    cases kind with
    | fixed64 | fixed32 => exact hv.elim
    | delimited =>
      have hw : w.length < 2 ^ 31 := by
        simp only [Field.encode, Value.encode, Kind.encode, List.length_append] at hlen
        omega
      exact ⟨⟨hpos, hlt, hw⟩, trivial⟩

theorem length_encode_le_of_mem {fs : List Field} {f : Field} (h : f ∈ fs) :
    f.encode.length ≤ (encode fs).length := by
  obtain ⟨gs, hs, rfl⟩ := List.append_of_mem h
  rw [encode_append, encode_cons, List.length_append, List.length_append]
  omega

theorem fields_encode_of_length {fs : List Field} (h : ∀ f ∈ fs, f.Proper)
    (hlen : (encode fs).length < 2 ^ 31) : fields (encode fs) = some fs :=
  fields_encode fun f hf => (h f hf).valid ((length_encode_le_of_mem hf).trans_lt hlen)

theorem fields_eq_some {w : List UInt8} {fs : List Field} (h : fields w = some fs) :
    reader.run .idle w = .idle ∧ groups.run (some []) (reader.out .idle w) = some [] ∧
      groups.out (some []) (reader.out .idle w) = fs := by
  unfold fields at h
  split at h
  · next hc => exact ⟨hc.1, hc.2, Option.some.inj h⟩
  · cases h

namespace Reading

/-- Bytes that the encoding of the field under way takes at least. -/
def size : Reading → ℕ
  | .number .tag count _ => count
  | .number (.value k) count _ => (varint (8 * k)).length + count
  | .number (.length k) count _ => (varint (8 * k + 2)).length + count
  | .payload k .delimited left w =>
    (varint (8 * k + 2)).length + (varint (w.length + 1 + left)).length + w.length
  | .payload k .fixed64 _ w => (varint (8 * k + 1)).length + w.length
  | .payload k .fixed32 _ w => (varint (8 * k + 5)).length + w.length
  | .malformed => 0

/-- The bytes of a varint under way bound its value. -/
def Bounded : Reading → Prop
  | .number _ count acc => acc < 128 ^ count
  | .payload .. | .malformed => True

theorem finish_bounded (p : Purpose) (n : ℕ) : (finish p n).1.Bounded := by
  cases p with
  | tag =>
    simp only [finish]
    split_ifs
    · trivial
    · split <;> simp [Bounded, idle]
  | value k => simp [finish, Bounded, idle]
  | length k =>
    simp only [finish]
    split_ifs <;> simp [Bounded, idle]

/-- The bytes of a varint pay for its shortest form. -/
theorem finish_size (p : Purpose) {n count : ℕ} (acc : ℕ) (hn : (varint n).length ≤ count + 1) :
    (finish p n).1.size + (encode (finish p n).2).length ≤ (number p count acc).size + 1 := by
  cases p with
  | tag =>
    have hmod : ∀ t, n % 8 = t → (varint (8 * (n / 8) + t)).length = (varint n).length := by
      intro t ht
      rw [show 8 * (n / 8) + t = n by omega]
    simp only [finish]
    split_ifs
    · simp [size]
    · split
      case h_7 => simp [size]
      all_goals
        rename_i ht
        have hm := hmod _ ht
        simp [size, idle, Field.encode, Field.tag, Value.wireType, Value.encode] at hm ⊢
        omega
  | value k =>
    have hlen : (Field.encode ⟨k, .varint n⟩).length = (varint (8 * k)).length + (varint n).length := by
      simp [Field.encode, Field.tag, Value.wireType, Value.encode]
    simp only [finish, encode_cons, encode_nil, List.append_nil, hlen, size, idle]
    omega
  | length k =>
    simp only [finish]
    split_ifs with h0 hlt
    · subst h0
      simp only [encode_cons, encode_nil, List.append_nil, Field.encode, Field.tag, Value.wireType,
        Kind.wireType, Value.encode, Kind.encode, List.length_append, List.length_nil, size, idle]
      omega
    · have hn' : 0 + 1 + (n - 1) = n := by omega
      simp only [encode_nil, List.length_nil, size, hn']
      omega
    · simp [size]

/-- Every byte read pays for one byte of the encoding of what has been read. -/
theorem step_size {r : Reading} (h : r.Bounded) (x : UInt8) :
    (r.step x).1.Bounded ∧
      (r.step x).1.size + (encode (r.step x).2).length ≤ r.size + 1 := by
  cases r with
  | number p count acc =>
    have hx : x.toNat % 128 < 128 := Nat.mod_lt _ (by decide)
    have hacc : acc + x.toNat % 128 * 128 ^ count < 128 ^ (count + 1) := by
      have h : acc < 128 ^ count := h
      have hmul : x.toNat % 128 * 128 ^ count ≤ 127 * 128 ^ count :=
        Nat.mul_le_mul_right _ (by omega)
      rw [pow_succ]
      omega
    simp only [step]
    split_ifs
    · refine ⟨finish_bounded _ _, finish_size p acc (varint_length_le (by omega) ?_)⟩
      exact (Nat.mod_le _ _).trans_lt hacc
    · refine ⟨hacc, ?_⟩
      cases p <;> simp [size] <;> omega
    · simp [Bounded, size]
  | payload k kind left w =>
    simp only [step]
    split_ifs with h0
    · subst h0
      refine ⟨by simp [Bounded, idle], ?_⟩
      cases kind <;>
        simp [size, idle, Field.encode, Field.tag, Value.wireType, Kind.wireType, Value.encode,
          Kind.encode] <;> omega
    · refine ⟨trivial, ?_⟩
      have hlen : w.length + 1 + 1 + (left - 1) = w.length + 1 + left := by omega
      cases kind <;> simp [size, hlen] <;> omega
  | malformed => simp [step, Bounded, size]

theorem run_size {r : Reading} (h : r.Bounded) (w : List UInt8) :
    (reader.run r w).size + (encode (reader.out r w)).length ≤ r.size + w.length := by
  induction w generalizing r with
  | nil => simp
  | cons x w ih =>
    obtain ⟨hb, hs⟩ := step_size h x
    have := ih hb
    rw [Machine.Mealy.run_cons, Machine.Mealy.out_cons, encode_append, List.length_append,
      List.length_cons]
    simp only [reader_step] at this ⊢
    omega

end Reading

theorem groups_length (o : Open) (fs : List Field) :
    (encode (groups.out o fs)).length ≤ (encode fs).length := by
  induction fs generalizing o with
  | nil => simp
  | cons f fs ih =>
    have hstep : (encode (o.step f).2).length ≤ f.encode.length := by
      cases o with
      | none => simp [Open.step]
      | some ks =>
        by_cases hks : ks = [] <;> cases hv : f.value <;> simp [Open.step, hv, hks]
    have := ih (o.step f).1
    rw [Machine.Mealy.out_cons, encode_append, encode_cons, List.length_append, List.length_append]
    simp only [groups_step]
    omega

/-- The fields of a byte string take no more bytes than the string. -/
theorem encode_fields_length {w : List UInt8} {fs : List Field} (h : fields w = some fs) :
    (encode fs).length ≤ w.length := by
  obtain ⟨-, -, rfl⟩ := fields_eq_some h
  have hrun := Reading.run_size (r := .idle) (by simp [Reading.idle, Reading.Bounded]) w
  have hgroups := groups_length (some []) (reader.out .idle w)
  have hidle : Reading.idle.size = 0 := rfl
  omega

end Wire

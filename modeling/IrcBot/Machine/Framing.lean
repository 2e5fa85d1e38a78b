import IrcBot.Machine.Mealy
import Mathlib.Algebra.BigOperators.Group.List.Basic
import Mathlib.Algebra.Order.BigOperators.Group.List

/-! A stream of encoded messages that is cut into reads, and a receiver that decodes each read
to at most one message. If decoding never yields a message that takes more than the read, the
messages come out unchanged only where every read is the encoding of one message. -/
namespace Machine

/-- A receiver with states `σ` and inputs `ι`, some of which are reads. While it waits for a read, it
passes on what the read decodes to. -/
structure Receiver (σ ι α M : Type*) where
  machine : Mealy σ ι M
  read : ι → Option (List α)
  decode : List α → Option M
  waits : σ → Prop
  step_of_waits : ∀ s i, waits s → (machine.step s i).2 = ((read i).bind decode).toList
  step_of_not_waits : ∀ s i, ¬ waits s → (machine.step s i).2 = []

namespace Receiver
variable {σ ι α M : Type*} (R : Receiver σ ι α M) {size : M → ℕ}

/-- Every read finds the receiver waiting for it. -/
def Listening (s : σ) (i : ι) : Prop := (R.read i).isSome → R.waits s

theorem step_of_read_eq_none {s : σ} {i : ι} (h : R.read i = none) : (R.machine.step s i).2 = [] := by
  by_cases hw : R.waits s
  · simp [R.step_of_waits s i hw, h]
  · exact R.step_of_not_waits s i hw

/-- What a step passes on takes at most the bytes read. -/
theorem size_step_le (hsize : ∀ r m, R.decode r = some m → size m ≤ r.length) (s : σ) (i : ι) :
    (((R.machine.step s i).2).map size).sum ≤ ((R.read i).getD []).length := by
  by_cases hw : R.waits s
  · rw [R.step_of_waits s i hw]
    cases hr : R.read i with
    | none => simp
    | some r =>
      cases hm : R.decode r with
      | none => simp [hm]
      | some m => simpa [hm] using hsize r m hm
  · rw [R.step_of_not_waits s i hw]
    exact Nat.zero_le _

/-- The messages passed on take at most the bytes of the reads. -/
theorem size_out_le (hsize : ∀ r m, R.decode r = some m → size m ≤ r.length) (s : σ) (w : List ι) :
    ((R.machine.out s w).map size).sum ≤ (w.map fun i => ((R.read i).getD []).length).sum := by
  have h := R.machine.balance_le (f := fun _ => 0) (c := size)
    (fun s i => by simpa using R.size_step_le hsize s i) s w
  simpa using h

theorem length_reads (w : List ι) :
    (w.filterMap R.read).flatten.length = (w.map fun i => ((R.read i).getD []).length).sum := by
  induction w with
  | nil => rfl
  | cons i w ih =>
    cases hr : R.read i with
    | none => simp [hr, ← ih]
    | some r =>
      rw [List.filterMap_cons_some hr, List.flatten_cons, List.length_append, ih, List.map_cons, hr]
      rfl

/-- If they take all of them, every read has been waited for and has the size of one message. -/
theorem lengths_of_out (hsize : ∀ r m, R.decode r = some m → size m ≤ r.length) {s : σ} {w : List ι}
    (hne : ∀ r ∈ w.filterMap R.read, r ≠ [])
    (hsum : (w.filterMap R.read).flatten.length = ((R.machine.out s w).map size).sum) :
    R.machine.Along R.Listening s w ∧
      (w.filterMap R.read).map List.length = (R.machine.out s w).map size := by
  induction w generalizing s with
  | nil => exact ⟨trivial, rfl⟩
  | cons i w ih =>
    have htail := R.size_out_le hsize (R.machine.step s i).1 w
    rw [← R.length_reads] at htail
    rw [Mealy.out_cons, List.map_append, List.sum_append] at hsum
    rw [Mealy.out_cons, List.map_append]
    cases hr : R.read i with
    | none =>
      have hout := R.step_of_read_eq_none (s := s) hr
      rw [List.filterMap_cons_none hr] at hne hsum ⊢
      rw [hout] at hsum ⊢
      obtain ⟨halong, hlen⟩ := ih hne (by simpa using hsum)
      exact ⟨⟨fun h => by simp [hr] at h, halong⟩, hlen⟩
    | some r =>
      rw [List.filterMap_cons_some hr] at hne hsum ⊢
      have hpos : 0 < r.length := List.length_pos_iff.mpr (hne r (by simp))
      rw [List.flatten_cons, List.length_append] at hsum
      by_cases hw : R.waits s
      · have hout := R.step_of_waits s i hw
        rw [hr, Option.bind_some] at hout
        cases hm : R.decode r with
        | none =>
          simp only [hout, hm, Option.toList_none, List.map_nil, List.sum_nil] at hsum
          omega
        | some m =>
          have hle := hsize r m hm
          simp only [hout, hm, Option.toList_some, List.map_cons, List.map_nil, List.sum_cons,
            List.sum_nil] at hsum
          have hrest : (w.filterMap R.read).flatten.length =
              ((R.machine.out (R.machine.step s i).1 w).map size).sum := by omega
          have hsize : r.length = size m := by omega
          obtain ⟨halong, hlen⟩ := ih (fun q hq => hne q (by simp [hq])) hrest
          refine ⟨⟨fun _ => hw, halong⟩, ?_⟩
          rw [hout, hm, List.map_cons, hlen, hsize, Option.toList_some, List.map_singleton,
            List.singleton_append]
      · simp only [R.step_of_not_waits s i hw, List.map_nil, List.sum_nil] at hsum
        omega

/-- Reads that are waited for are decoded one by one. -/
theorem out_of_listening {s : σ} {w : List ι} (h : R.machine.Along R.Listening s w) :
    R.machine.out s w = (w.filterMap R.read).filterMap R.decode := by
  induction w generalizing s with
  | nil => rfl
  | cons i w ih =>
    obtain ⟨hi, hrest⟩ := h
    rw [Mealy.out_cons, ih hrest]
    cases hr : R.read i with
    | none =>
      have hout := R.step_of_read_eq_none (s := s) hr
      rw [hout, List.filterMap_cons_none hr, List.nil_append]
    | some r =>
      rw [R.step_of_waits s i (hi (by simp [hr])), hr, List.filterMap_cons_some hr, Option.bind_some]
      cases hm : R.decode r with
      | none => rw [List.filterMap_cons_none hm, Option.toList_none, List.nil_append]
      | some m =>
        rw [List.filterMap_cons_some hm, Option.toList_some, List.singleton_append]

end Receiver

variable {α : Type*}

/-- Two ways to cut a list into pieces of the same lengths are the same. -/
theorem eq_of_flatten_of_lengths {xs ys : List (List α)} (hflat : xs.flatten = ys.flatten)
    (hlen : xs.map List.length = ys.map List.length) : xs = ys := by
  induction xs generalizing ys with
  | nil => exact (List.map_eq_nil_iff.mp hlen.symm).symm
  | cons x xs ih =>
    cases ys with
    | nil => cases hlen
    | cons y ys =>
      obtain ⟨hxy, htail⟩ := List.cons.inj hlen
      obtain ⟨rfl, hrest⟩ := List.append_inj hflat hxy
      rw [ih hrest htail]

namespace Receiver
variable {σ ι M : Type*} (R : Receiver σ ι α M) {encode : M → List α} {s : σ} {w : List ι} {ms : List M}

/-- Reads that are encodings, all of them waited for. -/
theorem out_encodings (hdecode : ∀ m ∈ ms, R.decode (encode m) = some m)
    (hreads : w.filterMap R.read = ms.map encode) (h : R.machine.Along R.Listening s w) :
    R.machine.out s w = ms := by
  rw [R.out_of_listening h, hreads, List.filterMap_map]
  rw [List.filterMap_congr (f := R.decode ∘ encode) (g := some) hdecode, List.filterMap_some]

/-- Messages that come out as they were written: every read is the encoding of one of them and is
waited for. -/
theorem reads_eq_encodings {size : M → ℕ}
    (hsize : ∀ r m, R.decode r = some m → size m ≤ r.length)
    (hencode : ∀ m ∈ ms, (encode m).length = size m) (hne : ∀ r ∈ w.filterMap R.read, r ≠ [])
    (hflat : (w.filterMap R.read).flatten = (ms.map encode).flatten) (hms : R.machine.out s w = ms) :
    w.filterMap R.read = ms.map encode ∧ R.machine.Along R.Listening s w := by
  have hlengths : (ms.map encode).map List.length = ms.map size := by
    rw [List.map_map]
    exact List.map_congr_left hencode
  have hsum : (w.filterMap R.read).flatten.length = ((R.machine.out s w).map size).sum := by
    rw [hflat, List.length_flatten, hlengths, hms]
  obtain ⟨halong, hlen⟩ := R.lengths_of_out hsize hne hsum
  refine ⟨eq_of_flatten_of_lengths hflat ?_, halong⟩
  rw [hlen, hms, hlengths]

end Receiver

section
variable {ι : Type*} {f g : ι → List α}

theorem length_flatten_map_le {ts : List ι} (hle : ∀ t ∈ ts, (f t).length ≤ (g t).length) :
    (ts.map f).flatten.length ≤ (ts.map g).flatten.length := by
  induction ts with
  | nil => simp
  | cons t ts ih =>
    have hhead := hle t (by simp)
    have htail := ih fun u hu => hle u (by simp [hu])
    simp only [List.map_cons, List.flatten_cons, List.length_append]
    omega

/-- Pieces that are none longer than the messages join to the same stream only if each is a
whole message. -/
theorem flatten_map_eq_iff {ts : List ι} (hle : ∀ t ∈ ts, (f t).length ≤ (g t).length) :
    (ts.map f).flatten = (ts.map g).flatten ↔ ∀ t ∈ ts, f t = g t := by
  induction ts with
  | nil => exact iff_of_true rfl nofun
  | cons t ts ih =>
    have hle' : ∀ u ∈ ts, (f u).length ≤ (g u).length := fun u hu => hle u (by simp [hu])
    constructor
    · intro h
      have hhead := hle t (by simp)
      have htail := length_flatten_map_le hle'
      have hlen := congrArg List.length h
      simp only [List.map_cons, List.flatten_cons, List.length_append] at h hlen
      obtain ⟨hft, hrest⟩ := List.append_inj h (by omega)
      intro u hu
      rcases List.mem_cons.mp hu with rfl | hu
      · exact hft
      · exact (ih hle').mp hrest u hu
    · intro h
      rw [List.map_cons, List.map_cons, List.flatten_cons, List.flatten_cons, h t (by simp),
        (ih hle').mpr fun u hu => h u (by simp [hu])]

end

end Machine

import RdkPerf.Lib.CBytes

/-!
# What a program touches of an array

C reads and writes an array through pointers that know nothing of its length. An access is
recorded here as the span of indices it touches, so that one outside the array shows; the array
itself (`Buf`) only keeps what falls inside it.
-/

namespace Lib

/-- `length` indices from `start` on. -/
structure Span where
  start : Nat
  length : Nat
deriving DecidableEq, Repr

namespace Span

variable {s : Span} {lo n : Nat}

def Covers (s : Span) (i : Nat) : Prop := s.start ≤ i ∧ i < s.start + s.length

/-- Each index is one of the `n` from `lo` on. -/
def Within (s : Span) (lo n : Nat) : Prop := ∀ i, s.Covers i → lo ≤ i ∧ i < lo + n

theorem within_of_le (hlo : lo ≤ s.start) (hhi : s.start + s.length ≤ lo + n) : s.Within lo n :=
  fun _ hi => ⟨Nat.le_trans hlo hi.1, Nat.lt_of_lt_of_le hi.2 hhi⟩

theorem within_iff (h : s.length ≠ 0) :
    s.Within lo n ↔ lo ≤ s.start ∧ s.start + s.length ≤ lo + n := by
  constructor
  · intro hw
    have hfirst := hw s.start ⟨Nat.le_refl _, by omega⟩
    have hlast := hw (s.start + s.length - 1) ⟨by omega, by omega⟩
    exact ⟨hfirst.1, by omega⟩
  · exact fun ⟨hlo, hhi⟩ => within_of_le hlo hhi

end Span

/-! ## `snprintf` -/

/-- What `snprintf` stores of a text: as much as leaves room for the terminator, and nothing at
    all when there is no room for that. -/
def printed (size : Nat) (text : List UInt8) : List UInt8 :=
  if size = 0 then [] else text.take (size - 1) ++ [0]

theorem length_printed_le (size : Nat) (text : List UInt8) : (printed size text).length ≤ size := by
  unfold printed
  split
  · exact Nat.zero_le _
  · next h =>
    rw [List.length_append, List.length_take, List.length_singleton]
    omega

/-! ## Reading a string -/

namespace Buf

variable {n off len : Nat} {b : Buf n}

/-- The bytes `strlen` counts from `off` on. Without a terminator these are all the rest, and what
    is behind the end, which is not known. -/
def stringBytes (b : Buf n) (off : Nat) : List UInt8 := (b.cstr off).getD (b.slice off (n - off))

/-- The indices it reads: the terminator is one of them, or one past the end. -/
def stringSpan (b : Buf n) (off : Nat) : Span := ⟨off, (b.stringBytes off).length + 1⟩

theorem take_slice {m : Nat} (h : len ≤ m) : (b.slice off m).take len = b.slice off len := by
  obtain ⟨rest, rfl⟩ := Nat.exists_eq_add_of_le h
  rw [slice_add, List.take_left' (length_slice b off len)]

theorem mem_take_iff_takeWhile {l : List UInt8} {k : Nat} :
    0 ∈ l.take k ↔ 0 ∈ l ∧ (l.takeWhile (· ≠ 0)).length < k := by
  induction l generalizing k with
  | nil => simp
  | cons a l ih =>
    cases k with
    | zero => simp
    | succ k =>
      rw [List.take_succ_cons]
      by_cases ha : a = 0
      · simp [ha]
      · rw [List.takeWhile_cons_of_pos (by simpa using ha), List.length_cons, List.mem_cons,
          List.mem_cons, ih, Nat.succ_lt_succ_iff]
        have hne : ¬ (0 : UInt8) = a := fun h => ha h.symm
        simp [hne]

/-- **A string is read inside its field** when there is a terminator in the field. -/
theorem stringSpan_within_iff (h : off + len ≤ n) :
    (b.stringSpan off).Within off len ↔ 0 ∈ b.slice off len := by
  have htake : b.slice off len = (b.slice off (n - off)).take len :=
    (take_slice (by omega)).symm
  rw [Span.within_iff (Nat.succ_ne_zero _), htake, mem_take_iff_takeWhile]
  unfold stringSpan stringBytes cstr
  by_cases h0 : 0 ∈ b.slice off (n - off)
  · simp only [h0, if_true, Option.getD_some, true_and, le_refl]
    omega
  · simp only [h0, if_false, Option.getD_none, length_slice, le_refl, false_and, true_and,
      iff_false]
    omega

/-- No byte of a string is a terminator. -/
theorem nul_notMem_stringBytes : 0 ∉ b.stringBytes off := by
  unfold stringBytes cstr
  by_cases h0 : 0 ∈ b.slice off (n - off)
  · simp only [h0, if_true, Option.getD_some]
    intro hmem
    exact absurd (List.mem_takeWhile_imp hmem) (by simp)
  · simpa only [h0, if_false, Option.getD_none] using h0

theorem mem_slice_iff {c : UInt8} : c ∈ b.slice off len ↔ ∃ i < len, b.byteAt (off + i) = c := by
  simp only [slice, List.mem_map, List.mem_range]

/-- A range reads back what was written at its start, as far as that reaches, and then what it
    held. -/
theorem slice_write_start (bs : List UInt8) (h : off + len ≤ n) :
    (b.write off bs).slice off len = (bs ++ (b.slice off len).drop bs.length).take len := by
  refine List.ext_getElem (by simp; omega) fun i h₁ h₂ => ?_
  have hi : i < len := by simpa using h₁
  rw [List.getElem_take]
  simp only [slice, List.getElem_map, List.getElem_range]
  by_cases hbs : i < bs.length
  · rw [List.getElem_append_left hbs, byteAt_write b off bs _ ⟨by omega, by omega⟩ (by omega),
      List.get_eq_getElem]
    simp only [Nat.add_sub_cancel_left]
  · rw [List.getElem_append_right (by omega), List.getElem_drop,
      byteAt_write_of_outside b off bs _ (Or.inr (by omega))]
    simp only [List.getElem_map, List.getElem_range]
    congr 1
    omega

end Buf
end Lib

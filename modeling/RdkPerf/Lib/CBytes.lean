import Mathlib

/-!
# Bytes, words, strings and struct layout

What a C program relies on when one object is written through one set of members and read
through another: an array of bytes (`Buf`), a write and a read of a range, words in little-endian
order (`WordCodec`), NUL-terminated strings, and the offsets the layout rule gives the members
of a struct.

The two facts everything rests on are `slice_write` and `slice_write_of_disjoint`: a range reads
back what was written to it, and a write elsewhere does not show.
-/

namespace Lib

/-- An array of `n` bytes. -/
def Buf (n : Nat) : Type := Fin n → UInt8

namespace Buf

variable {n : Nat}

/-- `memset(…, 0, …)`. -/
def zero : Buf n := fun _ => 0

/-- One byte; past the end reads as zero, and `cstr` below is the only reader that gets there. -/
def byteAt (b : Buf n) (i : Nat) : UInt8 := if h : i < n then b ⟨i, h⟩ else 0

/-- `memcpy(b + off, bs, bs.length)`. -/
def write (b : Buf n) (off : Nat) (bs : List UInt8) : Buf n :=
  fun i => if h : off ≤ i.val ∧ i.val - off < bs.length then bs[i.val - off] else b i

/-- The `len` bytes from `off`. -/
def slice (b : Buf n) (off len : Nat) : List UInt8 :=
  (List.range len).map fun i => b.byteAt (off + i)

@[simp] theorem byteAt_zero (i : Nat) : (zero : Buf n).byteAt i = 0 := by
  unfold byteAt zero
  split <;> rfl

@[simp] theorem length_slice (b : Buf n) (off len : Nat) : (b.slice off len).length = len := by
  simp [slice]

theorem byteAt_write (b : Buf n) (off : Nat) (bs : List UInt8) (i : Nat)
    (hi : off ≤ i ∧ i - off < bs.length) (hn : i < n) :
    (b.write off bs).byteAt i = bs.get ⟨i - off, hi.2⟩ := by
  unfold byteAt write
  rw [dif_pos hn, dif_pos hi]
  rfl

theorem byteAt_write_of_outside (b : Buf n) (off : Nat) (bs : List UInt8) (i : Nat)
    (hi : i < off ∨ off + bs.length ≤ i) : (b.write off bs).byteAt i = b.byteAt i := by
  unfold byteAt write
  split
  · rw [dif_neg]
    simp only [not_and, not_lt]
    omega
  · rfl

/-- A range reads back what was written to it. -/
theorem slice_write (b : Buf n) {off len : Nat} {bs : List UInt8} (hlen : len = bs.length)
    (h : off + bs.length ≤ n) : (b.write off bs).slice off len = bs := by
  subst hlen
  refine List.ext_getElem (by simp) fun i h₁ h₂ => ?_
  simp only [slice, List.getElem_map, List.getElem_range]
  rw [byteAt_write _ _ _ _ ⟨by omega, by omega⟩ (by omega), List.get_eq_getElem]
  simp only [Nat.add_sub_cancel_left]

/-- A write elsewhere does not show. -/
theorem slice_write_of_disjoint (b : Buf n) {off off' len : Nat} {bs : List UInt8}
    (h : off' + len ≤ off ∨ off + bs.length ≤ off') :
    (b.write off bs).slice off' len = b.slice off' len := by
  refine List.map_congr_left fun i hi => ?_
  rw [List.mem_range] at hi
  exact byteAt_write_of_outside _ _ _ _ (by omega)

theorem slice_add (b : Buf n) (off len len' : Nat) :
    b.slice off (len + len') = b.slice off len ++ b.slice (off + len) len' := by
  simp only [slice, List.range_add, List.map_append, List.map_map]
  congr 1
  refine List.map_congr_left fun i _ => ?_
  simp [Nat.add_assoc]

end Buf

/-! ## Words -/

/-- The low `w` bytes of `v`, least significant first. -/
def toLE : Nat → Nat → List UInt8
  | 0, _ => []
  | w + 1, v => UInt8.ofNat v :: toLE w (v / 256)

/-- The number a little-endian byte list stands for. -/
def ofLE : List UInt8 → Nat
  | [] => 0
  | b :: bs => b.toNat + 256 * ofLE bs

@[simp] theorem length_toLE (w v : Nat) : (toLE w v).length = w := by
  induction w generalizing v with
  | zero => rfl
  | succ w ih => simp [toLE, ih]

theorem ofLE_toLE (w v : Nat) : ofLE (toLE w v) = v % 256 ^ w := by
  induction w generalizing v with
  | zero => simp [toLE, ofLE, Nat.mod_one]
  | succ w ih =>
    rw [toLE, ofLE, ih, Nat.pow_succ', Nat.mod_mul, UInt8.toNat_ofNat']

/-- A scalar type in memory: as many bytes as it has, and back. -/
structure WordCodec (α : Type) where
  width : Nat
  encode : α → List UInt8
  decode : List UInt8 → α
  length_encode : ∀ a, (encode a).length = width
  decode_encode : ∀ a, decode (encode a) = a

def WordCodec.u64 : WordCodec UInt64 where
  width := 8
  encode a := toLE 8 a.toNat
  decode bs := UInt64.ofNat (ofLE bs)
  length_encode a := length_toLE 8 a.toNat
  decode_encode a := by
    rw [ofLE_toLE, Nat.mod_eq_of_lt (show a.toNat < 256 ^ 8 from a.toNat_lt)]
    exact UInt64.ofNat_toNat

def WordCodec.i32 : WordCodec Int32 where
  width := 4
  encode a := toLE 4 a.toUInt32.toNat
  decode bs := (UInt32.ofNat (ofLE bs)).toInt32
  length_encode a := length_toLE 4 a.toUInt32.toNat
  decode_encode a := by
    rw [ofLE_toLE, Nat.mod_eq_of_lt (show a.toUInt32.toNat < 256 ^ 4 from a.toUInt32.toNat_lt),
      UInt32.ofNat_toNat]
    exact Int32.toInt32_toUInt32 a

namespace Buf

section Scalars

variable {α : Type} {n : Nat} (b : Buf n) (c : WordCodec α)

/-- Assign a scalar member. -/
def put (off : Nat) (a : α) : Buf n := b.write off (c.encode a)

/-- Read a scalar member. -/
def fetch (off : Nat) : α := c.decode (b.slice off c.width)

theorem fetch_put {off : Nat} {a : α} (h : off + c.width ≤ n) :
    (b.put c off a).fetch c off = a := by
  unfold fetch put
  rw [slice_write b (c.length_encode a).symm (by rw [c.length_encode]; exact h), c.decode_encode]

theorem fetch_write_of_disjoint {off off' : Nat} {bs : List UInt8}
    (h : off' + c.width ≤ off ∨ off + bs.length ≤ off') :
    (b.write off bs).fetch c off' = b.fetch c off' := by
  unfold fetch
  rw [slice_write_of_disjoint b h]

theorem fetch_put_of_disjoint {β : Type} {c' : WordCodec β} {off off' : Nat} {a : β}
    (h : off' + c.width ≤ off ∨ off + c'.width ≤ off') :
    (b.put c' off a).fetch c off' = b.fetch c off' :=
  fetch_write_of_disjoint b c (by rw [c'.length_encode]; exact h)

end Scalars

/-! ## NUL-terminated strings -/

section Strings

variable {n : Nat} {b : Buf n} {off : Nat} {bs : List UInt8}

/-- The C string at `off`, as `strlen` and `strcpy` see it: the bytes before the first NUL. A
    string without a NUL in the buffer is read past the buffer's end; that is `none`. -/
def cstr (b : Buf n) (off : Nat) : Option (List UInt8) :=
  let s := b.slice off (n - off)
  if 0 ∈ s then some (s.takeWhile (· ≠ 0)) else none

/-- `bs` and a terminator stand at `off`. -/
def HasCStr (b : Buf n) (off : Nat) (bs : List UInt8) : Prop :=
  b.slice off bs.length = bs ∧ b.byteAt (off + bs.length) = 0

/-- A copy into zeroed memory leaves a terminated string, without copying a terminator. -/
theorem HasCStr.write (hz : b.byteAt (off + bs.length) = 0) (h : off + bs.length ≤ n) :
    (b.write off bs).HasCStr off bs := by
  refine ⟨slice_write b rfl h, ?_⟩
  rw [byteAt_write_of_outside b off bs _ (Or.inr (Nat.le_refl _)), hz]

/-- A copy that brings its terminator needs no zeroed memory. -/
theorem HasCStr.write_terminated (b : Buf n) (h : off + bs.length + 1 ≤ n) :
    (b.write off (bs ++ [0])).HasCStr off bs := by
  have hall : (b.write off (bs ++ [0])).slice off (bs.length + 1) = bs ++ [0] :=
    slice_write b (by simp) (by simpa [Nat.add_assoc] using h)
  rw [slice_add] at hall
  obtain ⟨hbs, hnul⟩ := List.append_inj hall (by simp)
  refine ⟨hbs, ?_⟩
  simpa [slice] using hnul

theorem HasCStr.write_of_disjoint {off' : Nat} {bs' : List UInt8} (hs : b.HasCStr off bs)
    (h : off + bs.length < off' ∨ off' + bs'.length ≤ off) :
    (b.write off' bs').HasCStr off bs := by
  refine ⟨?_, ?_⟩
  · rw [slice_write_of_disjoint b (by omega)]
    exact hs.1
  · rw [byteAt_write_of_outside b off' bs' _ (by omega)]
    exact hs.2

/-- A terminated string reads back as its bytes. -/
theorem HasCStr.cstr_eq (hs : b.HasCStr off bs) (h0 : 0 ∉ bs) (hn : off + bs.length < n) :
    b.cstr off = some bs := by
  obtain ⟨m, hm⟩ : ∃ m, n - off = bs.length + (1 + m) := ⟨n - off - bs.length - 1, by omega⟩
  have hone : b.slice (off + bs.length) 1 = [0] := by simp [slice, hs.2]
  have hsplit : b.slice off (n - off) = bs ++ 0 :: b.slice (off + bs.length + 1) m := by
    rw [hm, slice_add, slice_add, hs.1, hone]
    rfl
  unfold cstr
  rw [hsplit]
  simp only [List.mem_append, List.mem_cons, true_or, or_true, if_true, Option.some.injEq]
  rw [List.takeWhile_append_of_pos, List.takeWhile_cons_of_neg (by simp), List.append_nil]
  intro c hc
  simp only [ne_eq, decide_not, Bool.not_eq_eq_eq_not, Bool.not_true, decide_eq_false_iff_not]
  exact fun h => h0 (h ▸ hc)

end Strings
end Buf

/-! ## The layout rule -/

/-- Size and alignment of a type. -/
structure CType where
  size : Nat
  align : Nat

/-- The first multiple of `a` from `off` on. -/
def alignUp (off a : Nat) : Nat := (off + a - 1) / a * a

/-- The offsets of a struct's members laid out from `off` on. -/
def memberOffsets (off : Nat) : List CType → List Nat
  | [] => []
  | t :: ts => alignUp off t.align :: memberOffsets (alignUp off t.align + t.size) ts

/-- Where the last member ends. -/
def membersEnd (off : Nat) : List CType → Nat
  | [] => off
  | t :: ts => membersEnd (alignUp off t.align + t.size) ts

/-- The strictest alignment among `ts`. -/
def maxAlign (ts : List CType) : Nat := ts.foldr (fun t a => max t.align a) 1

def CType.struct (ts : List CType) : CType :=
  ⟨alignUp (membersEnd 0 ts) (maxAlign ts), maxAlign ts⟩

def CType.union (ts : List CType) : CType :=
  ⟨alignUp (ts.foldr (fun t a => max t.size a) 0) (maxAlign ts), maxAlign ts⟩

def CType.array (t : CType) (n : Nat) : CType := ⟨n * t.size, t.align⟩

/-- `offsetof` the `i`-th member. -/
def offsetOf (ts : List CType) (i : Nat) : Nat := (memberOffsets 0 ts).getD i 0

end Lib

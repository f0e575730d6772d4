/-!
# ScriptHost.Bytes

Byte strings, and the natural numbers they spell with the least significant byte first.
`toNat` says what a byte string is worth, `ofNat` writes a number in a fixed width;
`toNat_ofNat` and `ofNat_toNat` make them inverse to each other, and `toNat_lt` bounds the worth
by the length. Moving a number up by one byte is a shift by eight. Numbers of many thousand bytes
are read and written by halves, in `value` and `spell`, which agree with the two plain definitions.
-/

namespace ScriptHost

abbrev Bytes := List UInt8

namespace Bytes

/-- Byte by byte, and what ends first comes first. -/
def order (a b : Bytes) : Ordering := List.compareLex compare a b

theorem order_nil_eq_lt_iff (b : Bytes) : order [] b = .lt ↔ b ≠ [] := by
  cases b <;> simp [order, List.compareLex_nil_nil, List.compareLex_nil_cons]

theorem order_cons_nil_ne_lt (x : UInt8) (a : Bytes) : order (x :: a) [] ≠ .lt := by
  simp [order, List.compareLex_cons_nil]

theorem order_cons_eq_lt_iff (x y : UInt8) (a b : Bytes) :
    order (x :: a) (y :: b) = .lt ↔ x < y ∨ x = y ∧ order a b = .lt := by
  simp only [order, List.compareLex_cons_cons, Ordering.then_eq_lt, Std.compare_eq_lt,
    Std.compare_eq_iff_eq]

/-! ## Least significant byte first -/

def toNat : Bytes → Nat
  | [] => 0
  | b :: rest => b.toNat + 256 * toNat rest

/-- The lowest `width` bytes of `n`. -/
def ofNat : (width : Nat) → (n : Nat) → Bytes
  | 0, _ => []
  | width + 1, n => UInt8.ofNat n :: ofNat width (n / 256)

@[simp] theorem length_ofNat (width n : Nat) : (ofNat width n).length = width := by
  induction width generalizing n with
  | zero => rfl
  | succ width ih => simp [ofNat, ih]

/-- A shift by one byte more is worth a factor of 256. -/
theorem shiftLeft_succ (m n : Nat) : m <<< (8 * (n + 1)) = 256 * m <<< (8 * n) := by
  rw [Nat.mul_add, Nat.shiftLeft_add, Nat.shiftLeft_eq (m <<< (8 * n))]
  exact Nat.mul_comm _ _

theorem toNat_lt (b : Bytes) : toNat b < 1 <<< (8 * b.length) := by
  induction b with
  | nil => simp [toNat]
  | cons x rest ih =>
    have hx := x.toNat_lt
    rw [List.length_cons, shiftLeft_succ]
    simp only [toNat]
    omega

theorem toNat_append (a b : Bytes) : toNat (a ++ b) = toNat a + toNat b <<< (8 * a.length) := by
  induction a with
  | nil => simp [toNat]
  | cons x rest ih =>
    simp only [List.cons_append, toNat, ih, List.length_cons, shiftLeft_succ]
    omega

theorem toNat_ofNat (width n : Nat) : toNat (ofNat width n) = n % (1 <<< (8 * width)) := by
  induction width generalizing n with
  | zero => simp [ofNat, toNat, Nat.mod_one]
  | succ width ih =>
    rw [shiftLeft_succ, Nat.mod_mul, ← ih]
    simp [ofNat, toNat]

theorem ofNat_toNat (b : Bytes) : ofNat b.length (toNat b) = b := by
  induction b with
  | nil => rfl
  | cons x rest ih =>
    have hx := x.toNat_lt
    have low : UInt8.ofNat (toNat (x :: rest)) = x := by
      apply UInt8.toNat_inj.mp
      simp only [UInt8.toNat_ofNat', toNat]
      omega
    have high : toNat (x :: rest) / 256 = toNat rest := by
      simp only [toNat]
      omega
    simp only [List.length_cons, ofNat, low, high, ih]

theorem ofNat_add (low high n : Nat) :
    ofNat (low + high) n = ofNat low n ++ ofNat high (n >>> (8 * low)) := by
  induction low generalizing n with
  | zero => simp [ofNat]
  | succ low ih =>
    rw [show low + 1 + high = (low + high) + 1 by omega]
    simp only [ofNat, ih, List.cons_append]
    rw [Nat.mul_add, Nat.add_comm (8 * low), Nat.shiftRight_add,
      show n >>> (8 * 1) = n / 256 from Nat.shiftRight_eq_div_pow n 8]

theorem ofNat_mod (width n : Nat) : ofNat width (n % (1 <<< (8 * width))) = ofNat width n := by
  have h := ofNat_toNat (ofNat width n)
  rwa [length_ofNat, toNat_ofNat] at h

/-! ## By halves -/

/-- The worth of the first `size` bytes. -/
def value (size : Nat) (b : Bytes) : Nat :=
  if size < 64 then toNat (b.take size)
  else
    let low := size / 2
    value low b + value (size - low) (b.drop low) <<< (8 * low)
termination_by size

/-- The lowest `width` bytes of `n`. -/
def spell (width n : Nat) : Bytes :=
  if width < 64 then ofNat width n
  else
    let low := width / 2
    spell low (n % (1 <<< (8 * low))) ++ spell (width - low) (n >>> (8 * low))
termination_by width

theorem value_eq_toNat_take (size : Nat) (b : Bytes) (h : size ≤ b.length) :
    value size b = toNat (b.take size) := by
  fun_induction value size b with
  | case1 => rfl
  | case2 size b big low ih₁ ih₂ =>
    have hlow : low ≤ size := Nat.div_le_self size 2
    have len : (b.take low).length = low := by simp; omega
    have split : b.take size = b.take low ++ (b.drop low).take (size - low) := by
      conv => lhs; rw [show size = low + (size - low) by omega]
      exact List.take_add
    rw [ih₁ (by omega), ih₂ (by simp; omega), split, toNat_append, len]

theorem value_length (b : Bytes) : value b.length b = toNat b := by
  rw [value_eq_toNat_take _ _ (Nat.le_refl _), List.take_length]

theorem spell_eq_ofNat (width n : Nat) : spell width n = ofNat width n := by
  fun_induction spell width n with
  | case1 => rfl
  | case2 width n big low ih₁ ih₂ =>
    have hlow : low ≤ width := Nat.div_le_self width 2
    rw [ih₁, ih₂, ofNat_mod, ← ofNat_add, Nat.add_sub_cancel' hlow]

end Bytes

end ScriptHost

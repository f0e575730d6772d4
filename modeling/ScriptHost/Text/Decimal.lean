/-!
# ScriptHost.Text.Decimal

Decimal numbers. A number is written in as few digits as it needs, with a minus sign if it is
negative; the digits are found by halves, so that numbers of many thousand digits can be written,
and what is written reads back (`digits?_ofNat`). The numbers of a command line are ASCII digits
after at most one plus sign, with a value that fits in 64 bits; there leading zeros are allowed,
signs alone and blanks are not.
-/

namespace ScriptHost.Text.Decimal

/-! ## Reading -/

/-- What the digits are worth after digits worth `high`. -/
def digits? (high : Nat) : List Char → Option Nat
  | [] => some high
  | c :: rest => if c.isDigit then digits? (10 * high + (c.toNat - 48)) rest else none

/-- An unsigned number of at least one digit. -/
def unsigned? : List Char → Option Nat
  | [] => none
  | c :: rest => digits? 0 (c :: rest)

/-- A number that fits in 64 bits, with an optional plus sign. -/
def word? (text : String) : Option UInt64 :=
  let number? :=
    match text.toList with
    | '+' :: rest => unsigned? rest
    | chars => unsigned? chars
  match number? with
  | none => none
  | some n => if n < UInt64.size then some (UInt64.ofNat n) else none

/-! ## Writing -/

def digit (n : Nat) : Char := Char.ofNat (48 + n % 10)

/-- The bound of the numbers with `k` halvings' worth of digits: the square of the one before. -/
def bound : (k : Nat) → Nat
  | 0 => 10
  | k + 1 => bound k * bound k

/-- The lowest digits of `n`, the highest of them first, after `k` halvings. -/
def spell : (k : Nat) → (n : Nat) → List Char
  | 0, n => [digit n]
  | k + 1, n => spell k (n / bound k) ++ spell k (n % bound k)

/-- Enough halvings to spell all of `n`: three bits take less than a digit. -/
def halvings (n : Nat) : Nat := (n.log2 / 3 + 1).log2 + 1

def ofNat (n : Nat) : String :=
  match (spell (halvings n) n).dropWhile (· == '0') with
  | [] => "0"
  | digits => String.ofList digits

def ofInt (n : Int) : String :=
  if n < 0 then "-" ++ ofNat n.natAbs else ofNat n.natAbs

/-! ## What is written reads back -/

theorem digits?_append (high : Nat) (xs ys : List Char) :
    digits? high (xs ++ ys) = (digits? high xs).bind fun h => digits? h ys := by
  induction xs generalizing high with
  | nil => rfl
  | cons c rest ih =>
    simp only [List.cons_append, digits?]
    split
    · exact ih _
    · rfl

theorem digit_spec (n : Nat) : (digit n).isDigit = true ∧ (digit n).toNat - 48 = n % 10 := by
  have small : n % 10 < 10 := Nat.mod_lt _ (by decide)
  unfold digit
  generalize n % 10 = d at small
  match d, small with
  | 0, _ | 1, _ | 2, _ | 3, _ | 4, _ | 5, _ | 6, _ | 7, _ | 8, _ | 9, _ => decide

theorem digits?_spell (k n high : Nat) :
    digits? high (spell k n) = some (high * bound k + n % bound k) := by
  induction k generalizing n high with
  | zero =>
    obtain ⟨isDigit, worth⟩ := digit_spec n
    simp only [spell, digits?, isDigit, if_true, worth, bound]
    rw [Nat.mul_comm]
  | succ k ih =>
    have carry : n % (bound k * bound k) = n % bound k + bound k * (n / bound k % bound k) :=
      Nat.mod_mul
    simp only [spell, digits?_append, ih, Option.bind_some, bound, carry, Nat.mod_mod, Nat.add_mul,
      ← Nat.mul_assoc]
    rw [Nat.mul_comm (n / bound k % bound k)]
    congr 1
    omega

/-- Leading zeros are worth nothing. -/
theorem digits?_dropWhile (xs : List Char) :
    digits? 0 (xs.dropWhile (· == '0')) = digits? 0 xs := by
  induction xs with
  | nil => rfl
  | cons c rest ih =>
    rw [List.dropWhile_cons]
    split
    · rename_i hc
      rw [ih, beq_iff_eq.mp hc]
      rfl
    · rfl

theorem lt_bound_halvings (n : Nat) : n < bound (halvings n) := by
  have power (k : Nat) : bound k = 10 ^ 2 ^ k := by
    induction k with
    | zero => rfl
    | succ k ih => rw [bound, ih, ← Nat.pow_add, Nat.pow_succ, Nat.mul_two]
  have wide : n.log2 / 3 + 1 < 2 ^ halvings n := Nat.lt_log2_self
  have h₁ : n < 2 ^ (n.log2 + 1) := Nat.lt_log2_self
  have h₂ : 2 ^ (n.log2 + 1) ≤ 2 ^ (3 * 2 ^ halvings n) :=
    Nat.pow_le_pow_right (by decide) (by omega)
  have h₃ : (2 ^ 3) ^ 2 ^ halvings n ≤ 10 ^ 2 ^ halvings n :=
    Nat.pow_le_pow_left (by decide) _
  rw [← Nat.pow_mul] at h₃
  rw [power]
  omega

theorem digits?_ofNat (n : Nat) : digits? 0 (ofNat n).toList = some n := by
  have value : digits? 0 ((spell (halvings n) n).dropWhile (· == '0')) = some n := by
    rw [digits?_dropWhile, digits?_spell, Nat.mod_eq_of_lt (lt_bound_halvings n)]
    simp
  unfold ofNat
  split
  · rename_i h
    rw [h] at value
    rw [← value]
    rfl
  · rw [String.toList_ofList, value]

end ScriptHost.Text.Decimal

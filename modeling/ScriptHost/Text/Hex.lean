import ScriptHost.Bytes
import ScriptHost.Text.Quoted

/-!
# ScriptHost.Text.Hex

Bytes as hexadecimal digits, two to a byte and the high half first. Writing uses small letters;
reading takes either case and names the first fault, an odd number of digits before any bad one.
Writing keeps byte strings apart and in their order (`encode_inj`, `encode_lt_iff`).
-/

namespace ScriptHost.Text.Hex

def digit (n : UInt8) : Char :=
  if n < 10 then Char.ofNat (48 + n.toNat) else Char.ofNat (87 + n.toNat)

def digits (b : Bytes) : List Char :=
  b.flatMap fun x => [digit (x / 16), digit (x % 16)]

def encode (b : Bytes) : String := String.ofList (digits b)

inductive Fault
  | odd
  | notDigit (byte : UInt8) (position : Nat)
deriving DecidableEq, Repr

/-- An offending byte is shown as the character with that code, in quotes. -/
def Fault.message : Fault → String
  | .odd => "Odd number of digits"
  | .notDigit byte position =>
    "Invalid character " ++ quoteChar (Char.ofNat byte.toNat) ++ " at position "
      ++ toString position

/-- What the digit with character code `c` is worth. -/
def worth? (c : UInt8) : Option UInt8 :=
  if 48 ≤ c ∧ c ≤ 57 then some (c - 48)
  else if 97 ≤ c ∧ c ≤ 102 then some (c - 87)
  else if 65 ≤ c ∧ c ≤ 70 then some (c - 55)
  else none

/-- Reads pairs of digits from `position` on; `done` holds the bytes before, last first. -/
def decodeFrom (position : Nat) (done : Bytes) : Bytes → Except Fault Bytes
  | [] => .ok done.reverse
  | [_] => .error .odd
  | high :: low :: rest =>
    match worth? high with
    | none => .error (.notDigit high position)
    | some h =>
      match worth? low with
      | none => .error (.notDigit low (position + 1))
      | some l => decodeFrom (position + 2) ((16 * h + l) :: done) rest

/-- Reads the bytes that a text, given in UTF-8, spells in hexadecimal. -/
def decodeUtf8 (text : Bytes) : Except Fault Bytes :=
  if text.length % 2 = 0 then decodeFrom 0 [] text else .error .odd

def decode (text : String) : Except Fault Bytes := decodeUtf8 text.toUTF8.toList

/-! ## The order of what is written -/

theorem toNat_digit {n : UInt8} (h : n < 16) :
    (digit n).toNat = (if n < 10 then 48 else 87) + n.toNat := by
  have hn : n.toNat < 16 := UInt8.lt_iff_toNat_lt.mp h
  unfold digit
  split
  · rw [Char.ofNat, dif_pos (.inl (by omega))]
    rfl
  · rw [Char.ofNat, dif_pos (.inl (by omega))]
    rfl

/-- The letters come after the figures. -/
theorem digit_lt_digit_iff {m n : UInt8} (hm : m < 16) (hn : n < 16) :
    digit m < digit n ↔ m < n := by
  have hten : (10 : UInt8).toNat = 10 := rfl
  rw [Char.lt_def, UInt32.lt_iff_toNat_lt]
  change (digit m).toNat < (digit n).toNat ↔ _
  rw [toNat_digit hm, toNat_digit hn]
  simp only [UInt8.lt_iff_toNat_lt] at hm hn ⊢
  split <;> split <;> omega

theorem digit_eq_digit_iff {m n : UInt8} (hm : m < 16) (hn : n < 16) :
    digit m = digit n ↔ m = n := by
  constructor
  · intro h
    have hmn : ¬m < n := by
      rw [← digit_lt_digit_iff hm hn, h]
      exact Char.lt_irrefl _
    have hnm : ¬n < m := by
      rw [← digit_lt_digit_iff hn hm, h]
      exact Char.lt_irrefl _
    exact UInt8.le_antisymm (UInt8.not_lt.mp hnm) (UInt8.not_lt.mp hmn)
  · intro h
    rw [h]

/-- A byte has two halves of four bits, and comes before another if its halves do. -/
theorem halves (x y : UInt8) :
    (x / 16 < 16 ∧ x % 16 < 16) ∧ (x = y ↔ x / 16 = y / 16 ∧ x % 16 = y % 16) ∧
      (x < y ↔ x / 16 < y / 16 ∨ x / 16 = y / 16 ∧ x % 16 < y % 16) := by
  have hx := x.toNat_lt
  have hsixteen : (16 : UInt8).toNat = 16 := rfl
  simp only [UInt8.lt_iff_toNat_lt, ← UInt8.toNat_inj, UInt8.toNat_div, UInt8.toNat_mod,
    hsixteen]
  omega

theorem digits_cons (x : UInt8) (b : Bytes) :
    digits (x :: b) = digit (x / 16) :: digit (x % 16) :: digits b := rfl

/-- Written in hexadecimal, byte strings keep their order. -/
theorem digits_lt_iff (a b : Bytes) : digits a < digits b ↔ Bytes.order a b = .lt := by
  induction a generalizing b with
  | nil =>
    rw [Bytes.order_nil_eq_lt_iff]
    cases b with
    | nil => simp [digits]
    | cons y b => simp [digits]
  | cons x a ih =>
    cases b with
    | nil => simp [digits, Bytes.order_cons_nil_ne_lt]
    | cons y b =>
      obtain ⟨⟨hx, hx'⟩, heq, hlt⟩ := halves x y
      obtain ⟨⟨hy, hy'⟩, _⟩ := halves y x
      rw [Bytes.order_cons_eq_lt_iff, digits_cons, digits_cons, List.cons_lt_cons_iff,
        List.cons_lt_cons_iff, digit_lt_digit_iff hx hy, digit_lt_digit_iff hx' hy',
        digit_eq_digit_iff hx hy, digit_eq_digit_iff hx' hy', ih, heq, hlt]
      simp only [and_or_left, or_assoc, and_assoc]

theorem digits_inj {a b : Bytes} (h : digits a = digits b) : a = b := by
  induction a generalizing b with
  | nil =>
    cases b with
    | nil => rfl
    | cons y b => cases h
  | cons x a ih =>
    cases b with
    | nil => cases h
    | cons y b =>
      obtain ⟨⟨hx, hx'⟩, heq, _⟩ := halves x y
      obtain ⟨⟨hy, hy'⟩, _⟩ := halves y x
      rw [digits_cons, digits_cons] at h
      injection h with hhigh htail
      injection htail with hlow hrest
      rw [digit_eq_digit_iff hx hy] at hhigh
      rw [digit_eq_digit_iff hx' hy'] at hlow
      rw [heq.mpr ⟨hhigh, hlow⟩, ih hrest]

theorem encode_lt_iff (a b : Bytes) : encode a < encode b ↔ Bytes.order a b = .lt := by
  rw [encode, encode, String.lt_iff, String.toList_ofList, String.toList_ofList, digits_lt_iff]

theorem encode_inj {a b : Bytes} (h : encode a = encode b) : a = b :=
  digits_inj (String.ofList_inj.mp h)

end ScriptHost.Text.Hex

namespace ScriptHost

/-- A byte string for a programmer's eyes. -/
def Bytes.described (b : Bytes) : String := "Bytes(0x" ++ Text.Hex.encode b ++ ")"

end ScriptHost

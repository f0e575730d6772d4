import ScriptHost.Proofs.Integer

/-!
# ScriptHost.Proofs.IntegerPadding

The byte forms of an integer. A byte that only repeats the sign of the bytes before it can be put
behind them any number of times without a change of value (`signed_append_replicate`). Since no two
byte strings of one length have one value, this is all that two forms of a number can differ in: each
is the written form with such bytes behind it (`eq_toBytes_append`), and has at least one of them
exactly if its last byte is one (`padded_iff_length_lt`).
-/

namespace ScriptHost

namespace Bytes

/-- The byte that repeats the sign of a number. -/
def signByte (n : Int) : UInt8 := if n < 0 then 0xFF else 0x00

/-- The last byte only repeats the sign of the bytes before it. -/
inductive Padded : Bytes → Prop
  | zero : Padded [0x00]
  | positive {b : Bytes} {x : UInt8} : x < 0x80 → Padded (b ++ [x, 0x00])
  | negative {b : Bytes} {x : UInt8} : 0x80 ≤ x → Padded (b ++ [x, 0xFF])

theorem signed_neg_iff (b : Bytes) : signed b < 0 ↔ 256 ^ b.length ≤ 2 * toNat b := by
  have hlt := toNat_lt_pow b
  unfold signed
  split <;> omega

theorem signed_concat_neg_iff (b : Bytes) (x : UInt8) : signed (b ++ [x]) < 0 ↔ 0x80 ≤ x := by
  rw [signed_neg_iff, ← Nat.not_lt, ← last_lt_iff, UInt8.not_lt]

/-! ## Bytes that repeat the sign -/

theorem signed_concat_signByte (b : Bytes) : signed (b ++ [signByte (signed b)]) = signed b := by
  have hlt := toNat_lt_pow b
  have hpow : 256 ^ (b.length + 1) = 256 * 256 ^ b.length := Nat.pow_succ'
  by_cases hneg : signed b < 0
  · have hhalf := (signed_neg_iff b).mp hneg
    have hvalue := toNat_concat b 0xFF
    rw [show (0xFF : UInt8).toNat = 255 from rfl] at hvalue
    rw [signByte, if_pos hneg]
    unfold signed
    rw [List.length_append, List.length_singleton, hpow, if_neg (by omega), if_neg (by omega)]
    omega
  · have hhalf := mt (signed_neg_iff b).mpr hneg
    have hvalue := toNat_concat b 0x00
    rw [show (0x00 : UInt8).toNat = 0 from rfl] at hvalue
    rw [signByte, if_neg hneg]
    unfold signed
    rw [List.length_append, List.length_singleton, hpow, if_pos (by omega), if_pos (by omega)]
    omega

theorem signed_append_replicate (b : Bytes) (n : Nat) :
    signed (b ++ List.replicate n (signByte (signed b))) = signed b := by
  induction n with
  | zero => rw [List.replicate_zero, List.append_nil]
  | succ n ih =>
    have hlast := signed_concat_signByte (b ++ List.replicate n (signByte (signed b)))
    rwa [ih, List.append_assoc, ← List.replicate_succ'] at hlast

theorem padded_concat_iff (b : Bytes) (x : UInt8) :
    Padded (b ++ [x]) ↔ x = signByte (signed b) := by
  rcases List.eq_nil_or_concat b with rfl | ⟨b, y, rfl⟩
  · constructor
    · intro h
      generalize hw : ([] : Bytes) ++ [x] = w at h
      cases h with
      | zero => exact (List.cons.inj hw).1
      | positive _ => exact absurd (congrArg List.length hw) (by simp)
      | negative _ => exact absurd (congrArg List.length hw) (by simp)
    · rintro rfl
      exact .zero
  · rw [List.concat_eq_append, List.append_assoc, signByte]
    simp only [signed_concat_neg_iff]
    constructor
    · intro h
      generalize hw : b ++ ([y] ++ [x]) = w at h
      cases h with
      | zero => exact absurd (congrArg List.length hw) (by simp)
      | positive hy =>
        obtain ⟨-, hlast⟩ := List.append_inj' hw rfl
        cases hlast
        rw [if_neg (UInt8.not_le.mpr hy)]
      | negative hy =>
        obtain ⟨-, hlast⟩ := List.append_inj' hw rfl
        cases hlast
        rw [if_pos hy]
    · rintro rfl
      split
      · rename_i hy
        exact .negative hy
      · rename_i hy
        exact .positive (UInt8.not_le.mp hy)

end Bytes

namespace Integer

open Bytes

/-! ## All forms of a number -/

/-- Any bytes are the written ones of their value, with the sign repeated behind these. -/
theorem eq_toBytes_append (b : Bytes) :
    b = toBytes (signed b) ++
      List.replicate (b.length - (toBytes (signed b)).length) (signByte (signed b)) := by
  have hle := length_toBytes_le b
  refine eq_of_signed_eq ?_ ?_
  · rw [List.length_append, List.length_replicate]
    omega
  · have hpadded := signed_append_replicate (toBytes (signed b))
      (b.length - (toBytes (signed b)).length)
    rw [signed_toBytes] at hpadded
    exact hpadded.symm

theorem padded_iff_length_lt (b : Bytes) :
    Padded b ↔ (toBytes (signed b)).length < b.length := by
  rcases List.eq_nil_or_concat b with rfl | ⟨init, last, rfl⟩
  · constructor
    · intro h
      generalize hw : ([] : Bytes) = w at h
      cases h <;> simp at hw
    · intro h
      exact absurd h (Nat.not_lt_zero _)
  · rw [List.concat_eq_append]
    constructor
    · intro h
      have hle := length_toBytes_le init
      rw [(padded_concat_iff init last).mp h, signed_concat_signByte, List.length_append,
        List.length_singleton]
      omega
    · intro h
      have hb := eq_toBytes_append (init ++ [last])
      obtain ⟨n, hn⟩ := Nat.exists_eq_add_of_lt h
      rw [hn, Nat.add_assoc, Nat.add_sub_cancel_left, List.replicate_succ', ← List.append_assoc]
        at hb
      obtain ⟨hinit, hlast⟩ := List.append_inj' hb rfl
      have hsigned := signed_append_replicate (toBytes (signed (init ++ [last]))) n
      rw [signed_toBytes, ← hinit] at hsigned
      rw [padded_concat_iff, hsigned]
      exact (List.cons.inj hlast).1

theorem not_padded_toBytes (n : Int) : ¬Padded (toBytes n) := by
  rw [padded_iff_length_lt, signed_toBytes]
  exact Nat.lt_irrefl _

/-- The bytes of an integer. The written ones have its two's-complement value, are the shortest of
all that do, and the only ones as short; there are none for zero. Reading gives the two's-complement
value of any bytes. They are the written ones of this value unless the last byte only repeats the
sign; if it does, the written ones are what is left in front of the bytes that do. -/
theorem integer_byteForms :
    toBytes 0 = [] ∧ ofBytes [] = 0 ∧
    (∀ n, signed (toBytes n) = n ∧ ofBytes (toBytes n) = n ∧ ¬Padded (toBytes n) ∧
      ∀ b, signed b = n →
        (toBytes n).length ≤ b.length ∧ (b.length = (toBytes n).length → b = toBytes n)) ∧
    ∀ b, ofBytes b = signed b ∧
      (toBytes (ofBytes b) = b ↔ ¬Padded b) ∧
      (Padded b → ∃ n, 0 < n ∧
        b = toBytes (ofBytes b) ++ List.replicate n (signByte (ofBytes b))) := by
  refine ⟨rfl, rfl, fun n => ⟨signed_toBytes n, ofBytes_toBytes n, not_padded_toBytes n, ?_⟩,
    fun b => ?_⟩
  · rintro b rfl
    refine ⟨length_toBytes_le b, fun hlen => ?_⟩
    exact eq_of_signed_eq hlen (signed_toBytes _).symm
  · rw [ofBytes_eq_signed, padded_iff_length_lt]
    have hle := length_toBytes_le b
    refine ⟨rfl, ?_, fun hlt => ⟨_, Nat.sub_pos_of_lt hlt, eq_toBytes_append b⟩⟩
    constructor
    · intro h
      rw [h]
      exact Nat.lt_irrefl _
    · intro h
      exact eq_of_signed_eq (by omega) (signed_toBytes _)

/-- The least number of two bytes, in three. -/
example : toBytes (ofBytes [0x00, 0x80, 0xFF]) = [0x00, 0x80] := by decide +kernel

end Integer

end ScriptHost

import Mathlib.Algebra.Ring.Nat
import ScriptHost.Item.Integer

/-!
# ScriptHost.Proofs.Integer

The bytes of an integer in terms of arithmetic alone: `ofBytes` gives the two's-complement value
of a byte string (`ofBytes_eq_signed`), and takes back the bytes that `toBytes` writes
(`ofBytes_toBytes`). Of all bytes with one value, these are the shortest (`shortest_iff`).
-/

namespace ScriptHost

namespace Bytes

theorem shiftLeft_eq_pow (n : Nat) : 1 <<< (8 * n) = 256 ^ n := by
  rw [Nat.one_shiftLeft, Nat.pow_mul]

theorem toNat_lt_pow (b : Bytes) : toNat b < 256 ^ b.length :=
  shiftLeft_eq_pow b.length ▸ toNat_lt b

theorem toNat_concat (b : Bytes) (x : UInt8) :
    toNat (b ++ [x]) = toNat b + 256 ^ b.length * x.toNat := by
  rw [toNat_append, Nat.shiftLeft_eq, ← Nat.one_shiftLeft, shiftLeft_eq_pow, Nat.mul_comm]
  rfl

/-- The two's-complement value: the upper half of the numbers of a width stands for the negative
ones. -/
def signed (b : Bytes) : Int :=
  if 2 * toNat b < 256 ^ b.length then toNat b else (toNat b : Int) - (256 ^ b.length : Nat)

/-- The highest bit of the last byte is the sign. -/
theorem last_lt_iff (b : Bytes) (last : UInt8) :
    last < 128 ↔ 2 * toNat (b ++ [last]) < 256 ^ (b ++ [last]).length := by
  have hb := toNat_lt_pow b
  have hval : toNat (b ++ [last]) = toNat b + last.toNat * 256 ^ b.length := by
    rw [toNat_concat, Nat.mul_comm]
  have hpow : 256 ^ (b ++ [last]).length = 256 * 256 ^ b.length := by
    rw [List.length_append, List.length_singleton, Nat.pow_succ, Nat.mul_comm]
  rw [UInt8.lt_iff_toNat_lt, hval, hpow]
  constructor
  · intro hlast
    have hle : last.toNat ≤ 127 := Nat.le_of_lt_succ hlast
    have := Nat.mul_le_mul_right (256 ^ b.length) hle
    omega
  · intro hlt
    refine Nat.lt_of_not_le ?_
    intro hlast
    have hle : 128 ≤ last.toNat := hlast
    have := Nat.mul_le_mul_right (256 ^ b.length) hle
    omega

end Bytes

namespace Integer

@[simp] theorem length_complement (b : Bytes) : (complement b).length = b.length :=
  List.length_map _

theorem toNat_complement (b : Bytes) :
    Bytes.toNat (complement b) + Bytes.toNat b + 1 = 256 ^ b.length := by
  induction b with
  | nil => rfl
  | cons x rest ih =>
    have hx := x.toNat_lt
    have hnot : (~~~x).toNat = 255 - x.toNat := UInt8.toNat_not x
    simp only [complement] at ih
    simp only [complement, List.map_cons, Bytes.toNat, hnot, List.length_cons, Nat.pow_succ]
    omega

theorem ofBytes_eq_signed (b : Bytes) : ofBytes b = Bytes.signed b := by
  rcases List.eq_nil_or_concat b with rfl | ⟨init, last, rfl⟩
  · rfl
  · simp only [List.concat_eq_append]
    unfold ofBytes Bytes.signed
    rw [List.getLast?_concat, Bytes.value_length]
    have hcomp := toNat_complement (init ++ [last])
    rw [← length_complement, Bytes.value_length, length_complement]
    simp only [Bytes.last_lt_iff init last]
    split
    · rfl
    · omega

theorem two_mul_magnitude_lt (n : Int) : 2 * magnitude n < 256 ^ width n := by
  have hpow : 256 ^ width n = 2 ^ (8 * width n) := by rw [Nat.pow_mul]
  rw [hpow]
  by_cases hzero : magnitude n = 0
  · rw [hzero]
    exact Nat.pow_pos (by decide)
  · have hlog := (Nat.log2_lt hzero).mp (Nat.lt_succ_self _)
    have hle : 2 ^ ((magnitude n).log2 + 1 + 1) ≤ 2 ^ (8 * width n) :=
      Nat.pow_le_pow_right (by decide) (by unfold width; omega)
    rw [Nat.pow_succ] at hle
    omega

theorem ofBytes_toBytes (n : Int) : ofBytes (toBytes n) = n := by
  have hlt := two_mul_magnitude_lt n
  have hspell : Bytes.toNat (Bytes.spell (width n) (magnitude n)) = magnitude n := by
    rw [Bytes.spell_eq_ofNat, Bytes.toNat_ofNat, Bytes.shiftLeft_eq_pow,
      Nat.mod_eq_of_lt (by omega)]
  have hlen : (Bytes.spell (width n) (magnitude n)).length = width n := by
    rw [Bytes.spell_eq_ofNat, Bytes.length_ofNat]
  have heven : 256 ^ width n = 256 * 256 ^ (width n - 1) := by
    rw [← Nat.pow_succ', Nat.succ_eq_add_one, Nat.sub_add_cancel (by unfold width; omega)]
  rw [ofBytes_eq_signed]
  unfold toBytes Bytes.signed
  split
  · rename_i hzero
    rw [hzero]
    rfl
  · split
    · have hcomp := toNat_complement (Bytes.spell (width n) (magnitude n))
      rw [hlen, hspell] at hcomp
      rw [length_complement, hlen, if_neg (by omega)]
      have : magnitude n = (-n - 1).toNat := if_pos ‹_›
      omega
    · rw [hspell, hlen, if_pos hlt]
      have : magnitude n = n.toNat := if_neg ‹_›
      omega

/-! ## The shortest bytes -/

theorem signed_toBytes (n : Int) : Bytes.signed (toBytes n) = n := by
  rw [← ofBytes_eq_signed, ofBytes_toBytes]

theorem two_mul_magnitude_signed_lt (b : Bytes) :
    2 * magnitude (Bytes.signed b) < 256 ^ b.length := by
  have hlt := Bytes.toNat_lt_pow b
  unfold magnitude Bytes.signed
  generalize 256 ^ b.length = m at hlt ⊢
  split
  · split <;> omega
  · split <;> omega

theorem width_le {n : Int} {m : Nat} (hm : 0 < m) (h : 2 * magnitude n < 256 ^ m) :
    width n ≤ m := by
  unfold width
  by_cases hzero : magnitude n = 0
  · rw [hzero]
    exact hm
  · have hlog : 2 ^ (magnitude n).log2 ≤ magnitude n := Nat.log2_self_le hzero
    have hpow : 256 ^ m = 2 ^ (8 * m) := by rw [Nat.pow_mul]
    have hlt : (magnitude n).log2 + 1 < 8 * m := by
      refine (Nat.pow_lt_pow_iff_right (a := 2) (by decide)).mp ?_
      rw [Nat.pow_succ, ← hpow]
      omega
    omega

/-- No bytes of a number are fewer than those that are written. -/
theorem length_toBytes_le (b : Bytes) : (toBytes (Bytes.signed b)).length ≤ b.length := by
  have hlen : (Bytes.spell (width (Bytes.signed b)) (magnitude (Bytes.signed b))).length =
      width (Bytes.signed b) := by
    rw [Bytes.spell_eq_ofNat, Bytes.length_ofNat]
  have hwidth (hzero : Bytes.signed b ≠ 0) : width (Bytes.signed b) ≤ b.length := by
    refine width_le ?_ (two_mul_magnitude_signed_lt b)
    refine List.length_pos_iff.mpr ?_
    rintro rfl
    exact hzero rfl
  unfold toBytes
  split
  · exact Nat.zero_le _
  · rename_i hzero
    split
    · rw [length_complement, hlen]
      exact hwidth hzero
    · rw [hlen]
      exact hwidth hzero

theorem eq_of_signed_eq {a b : Bytes} (hlen : a.length = b.length)
    (h : Bytes.signed a = Bytes.signed b) : a = b := by
  have ha := Bytes.toNat_lt_pow a
  have hb := Bytes.toNat_lt_pow b
  have hvalue : Bytes.toNat a = Bytes.toNat b := by
    unfold Bytes.signed at h
    rw [hlen] at h ha
    generalize 256 ^ b.length = m at h ha hb
    split at h
    · split at h <;> omega
    · split at h <;> omega
  rw [← Bytes.ofNat_toNat a, ← Bytes.ofNat_toNat b, hvalue, hlen]

/-- The bytes that are written for a number are the shortest ones, and no others are as short. -/
theorem shortest_iff {b : Bytes} :
    (∀ b', Bytes.signed b' = Bytes.signed b → b.length ≤ b'.length) ↔
      toBytes (Bytes.signed b) = b := by
  constructor
  · intro h
    have hle := h _ (signed_toBytes (Bytes.signed b))
    exact eq_of_signed_eq (Nat.le_antisymm (length_toBytes_le b) hle) (signed_toBytes _)
  · intro h b' hsame
    rw [← h, ← hsame]
    exact length_toBytes_le b'

end Integer

end ScriptHost

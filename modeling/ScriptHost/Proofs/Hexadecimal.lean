import Mathlib.Data.List.Basic
import ScriptHost.Text.Hex

/-!
# ScriptHost.Proofs.Hexadecimal

Reading hexadecimal digits is the inverse of writing them, but for the case of the letters: a text
is read as some bytes exactly if it is written for them once its capitals are small
(`decode_eq_ok_iff`). That can be said of the whole text because its UTF-8 form keeps each character
apart: a digit is one byte, and any other character begins with a byte that is worth nothing
(`utf8_cases`). The texts that can be read are the ones with digits only, and an even number of them
(`exists_decode_iff`).
-/

namespace ScriptHost.Text.Hex

/-- A figure, or one of the first six letters in either case. -/
def IsDigit (c : Char) : Prop :=
  '0' ≤ c ∧ c ≤ '9' ∨ 'a' ≤ c ∧ c ≤ 'f' ∨ 'A' ≤ c ∧ c ≤ 'F'

instance (c : Char) : Decidable (IsDigit c) :=
  inferInstanceAs (Decidable ('0' ≤ c ∧ c ≤ '9' ∨ 'a' ≤ c ∧ c ≤ 'f' ∨ 'A' ≤ c ∧ c ≤ 'F'))

/-! ## Halves of bytes -/

/-- The values of the digits that are written for a byte string. -/
def nibbles (b : Bytes) : List UInt8 := b.flatMap fun x => [x / 16, x % 16]

theorem digits_eq_map (b : Bytes) : digits b = (nibbles b).map digit := by
  simp [digits, nibbles, List.map_flatMap]

@[simp] theorem length_nibbles (b : Bytes) : (nibbles b).length = 2 * b.length := by
  induction b with
  | nil => rfl
  | cons x b ih =>
    simp only [nibbles, List.flatMap_cons, List.length_append] at ih ⊢
    rw [ih, List.length_cons]
    simp only [List.length_cons, List.length_nil]
    omega

theorem lt_of_mem_nibbles {b : Bytes} {n : UInt8} (h : n ∈ nibbles b) : n < 16 := by
  obtain ⟨x, -, hn⟩ := List.mem_flatMap.mp h
  obtain ⟨⟨hhigh, hlow⟩, -⟩ := halves x x
  simp only [List.mem_cons, List.not_mem_nil, or_false] at hn
  rcases hn with rfl | rfl
  · exact hhigh
  · exact hlow

/-- Two halves make one byte. -/
theorem eq_halves_iff {high low x : UInt8} (hhigh : high < 16) (hlow : low < 16) :
    high = x / 16 ∧ low = x % 16 ↔ x = 16 * high + low := by
  have hx := x.toNat_lt
  have hsixteen : (16 : UInt8).toNat = 16 := rfl
  simp only [UInt8.lt_iff_toNat_lt, ← UInt8.toNat_inj, UInt8.toNat_div, UInt8.toNat_mod,
    UInt8.toNat_add, UInt8.toNat_mul, hsixteen] at hhigh hlow ⊢
  omega

theorem exists_nibbles {ns : List UInt8} {n : Nat} (hlen : ns.length = 2 * n)
    (hns : ∀ m ∈ ns, m < 16) : ∃ b, b.length = n ∧ nibbles b = ns := by
  induction n generalizing ns with
  | zero => exact ⟨[], rfl, (List.length_eq_zero_iff.mp hlen).symm⟩
  | succ n ih =>
    obtain ⟨high, ns, rfl⟩ := List.exists_cons_of_length_eq_add_one hlen
    rw [List.length_cons, Nat.mul_succ, Nat.succ_inj] at hlen
    obtain ⟨low, ns, rfl⟩ := List.exists_cons_of_length_eq_add_one hlen
    rw [List.length_cons, Nat.succ_inj] at hlen
    obtain ⟨b, hb, rfl⟩ :=
      ih hlen fun m hm => hns m (List.mem_cons_of_mem _ (List.mem_cons_of_mem _ hm))
    obtain ⟨hhigh, hlow⟩ :=
      (eq_halves_iff (hns high (by simp)) (hns low (by simp))).mpr (Eq.refl (16 * high + low))
    refine ⟨(16 * high + low) :: b, by rw [List.length_cons, hb], ?_⟩
    simp only [nibbles, List.flatMap_cons, ← hhigh, ← hlow]
    rfl

/-! ## Reading bytes -/

theorem worth?_lt {x n : UInt8} (h : worth? x = some n) : n < 16 := by
  have hx := x.toNat_lt
  unfold worth? at h
  simp only [UInt8.le_iff_toNat_le, UInt8.reduceToNat] at h
  rw [UInt8.lt_iff_toNat_lt]
  repeat' split at h
  all_goals cases h
  all_goals
    simp [UInt8.toNat_sub]
    omega

/-- Bytes are read if each is worth a half, two and two, of what is read. -/
theorem decodeFrom_eq_ok_iff {position : Nat} {done text b : Bytes} :
    decodeFrom position done text = .ok b ↔
      ∃ c, b = done.reverse ++ c ∧ text.map worth? = (nibbles c).map some := by
  fun_induction decodeFrom position done text with
  | case1 position done =>
    constructor
    · intro h
      cases h
      exact ⟨[], (List.append_nil _).symm, rfl⟩
    · rintro ⟨c, rfl, hc⟩
      have hlen := congrArg List.length hc
      simp only [List.length_map, List.length_nil, length_nibbles] at hlen
      rw [List.length_eq_zero_iff.mp (show c.length = 0 by omega), List.append_nil]
  | case2 position done x =>
    constructor
    · intro h
      cases h
    · rintro ⟨c, -, hc⟩
      have hlen := congrArg List.length hc
      simp only [List.length_map, List.length_cons, List.length_nil, length_nibbles] at hlen
      omega
  | case3 position done high low rest hhigh =>
    constructor
    · intro h
      cases h
    · rintro ⟨c, -, hc⟩
      rcases c with _ | ⟨x, c⟩
      · cases hc
      · simp [nibbles, hhigh] at hc
  | case4 position done high low rest m hhigh hlow =>
    constructor
    · intro h
      cases h
    · rintro ⟨c, -, hc⟩
      rcases c with _ | ⟨x, c⟩
      · cases hc
      · simp [nibbles, hlow] at hc
  | case5 position done high low rest m hhigh n hlow ih =>
    rw [ih]
    have hbyte (x : UInt8) := eq_halves_iff (x := x) (worth?_lt hhigh) (worth?_lt hlow)
    constructor
    · rintro ⟨c, rfl, hc⟩
      refine ⟨(16 * m + n) :: c, by simp, ?_⟩
      obtain ⟨hm, hn⟩ := (hbyte _).mpr rfl
      simp only [List.map_cons, hhigh, hlow, hc, nibbles, List.flatMap_cons, ← hm, ← hn]
      rfl
    · rintro ⟨c, rfl, hc⟩
      rcases c with _ | ⟨x, c⟩
      · cases hc
      · simp only [List.map_cons, hhigh, hlow, nibbles, List.flatMap_cons, List.cons_append,
          List.nil_append, List.cons.injEq, Option.some.injEq] at hc
        obtain ⟨hm, hn, hrest⟩ := hc
        obtain rfl := (hbyte x).mp ⟨hm, hn⟩
        exact ⟨c, by simp, hrest⟩

theorem decodeUtf8_eq_ok_iff {text b : Bytes} :
    decodeUtf8 text = .ok b ↔ text.map worth? = (nibbles b).map some := by
  unfold decodeUtf8
  split
  · rw [decodeFrom_eq_ok_iff]
    simp
  · rename_i hodd
    constructor
    · intro h
      cases h
    · intro h
      have hlen := congrArg List.length h
      simp only [List.length_map, length_nibbles] at hlen
      omega

/-! ## Reading characters -/

theorem toList_loop (b : ByteArray) (i : Nat) (done : List UInt8) :
    ByteArray.toList.loop b i done = done.reverse ++ b.data.toList.drop i := by
  fun_induction ByteArray.toList.loop b i done with
  | case1 i done hlt ih =>
    have hi : i < b.data.toList.length := by simpa using hlt
    have hget : b.get! i = b.data.toList[i] := by
      rw [ByteArray.get!, Array.getElem_toList]
      exact getElem!_pos b.data i _
    rw [ih, List.drop_eq_getElem_cons hi, hget]
    simp
  | case2 i done hge =>
    have hle : b.data.toList.length ≤ i := by simpa using hge
    rw [List.drop_eq_nil_of_le hle, List.append_nil]

theorem toList_toUTF8 (text : String) :
    text.toUTF8.toList = text.toList.flatMap String.utf8EncodeChar := by
  rw [ByteArray.toList, toList_loop, List.reverse_nil, List.nil_append, List.drop_zero]
  rw [show text.toUTF8 = text.toList.utf8Encode by
    rw [← String.toByteArray_ofList, String.ofList_toList]; rfl]
  exact List.toList_data_toByteArray

/-- The characters of one byte. -/
theorem map_digit_worth? : ∀ v < 128, (worth? (UInt8.ofNat v)).map digit =
    if IsDigit (Char.ofNat v) then some (Char.ofNat v).toLower else none := by
  decide +kernel

theorem worth?_eq_none {x : UInt8} (h : 128 ≤ x.toNat) : worth? x = none := by
  unfold worth?
  simp only [UInt8.le_iff_toNat_le, UInt8.reduceToNat]
  rw [if_neg (by omega), if_neg (by omega), if_neg (by omega)]

theorem isDigit_iff {c : Char} : IsDigit c ↔
    48 ≤ c.toNat ∧ c.toNat ≤ 57 ∨ 97 ≤ c.toNat ∧ c.toNat ≤ 102 ∨
      65 ≤ c.toNat ∧ c.toNat ≤ 70 := by
  unfold IsDigit
  simp only [Char.le_def, UInt32.le_iff_toNat_le]
  rfl

theorem toNat_toLower (c : Char) :
    c.toLower.toNat = if 65 ≤ c.toNat ∧ c.toNat ≤ 90 then c.toNat + 32 else c.toNat := by
  have hval : c.val.toNat = c.toNat := rfl
  have hbounds : 'A'.val.toNat = 65 ∧ 'Z'.val.toNat = 90 := by decide
  unfold Char.toLower
  split
  · rename_i h
    simp only [ge_iff_le, UInt32.le_iff_toNat_le, hbounds, hval] at h
    rw [if_pos h]
    have hsum : (c.val + ('a'.val - 'A'.val)).toNat = c.toNat + 32 := by
      rw [UInt32.toNat_add, hval, show ('a'.val - 'A'.val).toNat = 32 by decide]
      omega
    exact hsum
  · rename_i h
    simp only [ge_iff_le, UInt32.le_iff_toNat_le, hbounds, hval] at h
    rw [if_neg h]

theorem isDigit_of_toLower {c : Char} {n : UInt8} (hn : n < 16) (h : c.toLower = digit n) :
    IsDigit c := by
  have hlower := toNat_toLower c
  rw [h, toNat_digit hn] at hlower
  simp only [UInt8.lt_iff_toNat_lt, UInt8.reduceToNat] at hn hlower
  rw [isDigit_iff]
  split at hlower <;> split at hlower <;> omega

theorem exists_first_byte {c : Char} (h : 128 ≤ c.toNat) :
    ∃ x rest, String.utf8EncodeChar c = x :: rest ∧ 128 ≤ x.toNat := by
  have hval : c.val.toNat = c.toNat := rfl
  unfold String.utf8EncodeChar
  simp only [hval]
  rw [if_neg (by omega)]
  split
  · exact ⟨_, _, rfl, by simp; omega⟩
  · split
    · exact ⟨_, _, rfl, by simp; omega⟩
    · exact ⟨_, _, rfl, by simp; omega⟩

/-- A digit is one byte and is worth as much as its small form; any other character begins with a
byte that is worth nothing. -/
theorem utf8_cases (c : Char) :
    (∃ x n, String.utf8EncodeChar c = [x] ∧ worth? x = some n ∧ c.toLower = digit n) ∨
      (∃ x rest, String.utf8EncodeChar c = x :: rest ∧ worth? x = none) ∧ ¬IsDigit c := by
  by_cases hascii : c.toNat < 128
  · have hbyte : String.utf8EncodeChar c = [UInt8.ofNat c.toNat] := by
      unfold String.utf8EncodeChar
      exact if_pos (Nat.le_of_lt_succ hascii)
    have hmap := map_digit_worth? c.toNat hascii
    rw [Char.ofNat_toNat] at hmap
    by_cases hdigit : IsDigit c
    · rw [if_pos hdigit, Option.map_eq_some_iff] at hmap
      obtain ⟨n, hn, hlower⟩ := hmap
      exact .inl ⟨_, n, hbyte, hn, hlower.symm⟩
    · rw [if_neg hdigit, Option.map_eq_none_iff] at hmap
      exact .inr ⟨⟨_, [], hbyte, hmap⟩, hdigit⟩
  · obtain ⟨x, rest, hx, hle⟩ := exists_first_byte (Nat.le_of_not_lt hascii)
    refine .inr ⟨⟨x, rest, hx, worth?_eq_none hle⟩, ?_⟩
    rw [isDigit_iff]
    omega

theorem exists_digit {c : Char} (h : IsDigit c) : ∃ n < 16, c.toLower = digit n := by
  rcases utf8_cases c with ⟨x, n, -, hn, hlower⟩ | ⟨-, hdigit⟩
  · exact ⟨n, worth?_lt hn, hlower⟩
  · exact absurd h hdigit

theorem exists_digits {cs : List Char} (h : ∀ c ∈ cs, IsDigit c) :
    ∃ ns : List UInt8, (∀ n ∈ ns, n < 16) ∧ cs.map Char.toLower = ns.map digit := by
  induction cs with
  | nil => exact ⟨[], by simp, rfl⟩
  | cons c cs ih =>
    obtain ⟨n, hn, hlower⟩ := exists_digit (h c List.mem_cons_self)
    obtain ⟨ns, hns, hrest⟩ := ih fun d hd => h d (List.mem_cons_of_mem _ hd)
    exact ⟨n :: ns, List.forall_mem_cons.mpr ⟨hn, hns⟩, by simp [hlower, hrest]⟩

theorem toLower_digit {n : UInt8} (h : n < 16) : (digit n).toLower = digit n := by
  have hn := toNat_digit h
  rw [← Char.toNat_inj, toNat_toLower, if_neg]
  rw [hn]
  simp only [UInt8.lt_iff_toNat_lt, UInt8.reduceToNat] at h ⊢
  split <;> omega

theorem map_worth?_eq_iff {cs : List Char} {ns : List UInt8} (hns : ∀ n ∈ ns, n < 16) :
    (cs.flatMap String.utf8EncodeChar).map worth? = ns.map some ↔
      cs.map Char.toLower = ns.map digit := by
  induction cs generalizing ns with
  | nil => cases ns <;> simp
  | cons c cs ih =>
    rcases ns with _ | ⟨n, ns⟩
    · rcases utf8_cases c with ⟨x, m, hx, -⟩ | ⟨⟨x, rest, hx, -⟩, -⟩ <;> simp [hx]
    · have hn := hns n List.mem_cons_self
      have hrest := ih fun m hm => hns m (List.mem_cons_of_mem _ hm)
      rcases utf8_cases c with ⟨x, m, hx, hm, hlower⟩ | ⟨⟨x, rest, hx, hnone⟩, hdigit⟩
      · simp only [List.flatMap_cons, hx, List.singleton_append, List.map_cons, hm, hlower,
          List.cons.injEq, Option.some.injEq, digit_eq_digit_iff (worth?_lt hm) hn, hrest]
      · simp only [List.flatMap_cons, hx, List.cons_append, List.map_cons, hnone, List.cons.injEq]
        constructor
        · rintro ⟨hbad, -⟩
          cases hbad
        · rintro ⟨hlower, -⟩
          exact absurd (isDigit_of_toLower hn hlower) hdigit

theorem toLower_eq_encode_iff {text : String} {b : Bytes} :
    text.toLower = encode b ↔ text.toList.map Char.toLower = (nibbles b).map digit := by
  have hlower : text.toLower.toList = text.toList.map Char.toLower := String.toList_map
  rw [← String.toList_inj, hlower, encode, String.toList_ofList, digits_eq_map]

/-- A text is read as the bytes for which it is written, once its capitals are small. -/
theorem decode_eq_ok_iff {text : String} {b : Bytes} :
    decode text = .ok b ↔ text.toLower = encode b := by
  rw [decode, decodeUtf8_eq_ok_iff, toList_toUTF8,
    map_worth?_eq_iff fun n hn => lt_of_mem_nibbles hn, toLower_eq_encode_iff]

theorem decode_encoded (b : Bytes) : decode (encode b) = .ok b := by
  rw [decode_eq_ok_iff, toLower_eq_encode_iff, encode, String.toList_ofList, digits_eq_map,
    List.map_map]
  exact List.map_congr_left fun n hn => toLower_digit (lt_of_mem_nibbles hn)

theorem exists_decode_iff {text : String} {n : Nat} :
    (∃ b, b.length = n ∧ decode text = .ok b) ↔
      text.length = 2 * n ∧ ∀ c ∈ text.toList, IsDigit c := by
  simp only [decode_eq_ok_iff, toLower_eq_encode_iff, ← String.length_toList]
  constructor
  · rintro ⟨b, rfl, h⟩
    have hlen := congrArg List.length h
    rw [List.length_map, List.length_map, length_nibbles] at hlen
    refine ⟨hlen, fun c hc => ?_⟩
    have hmem : c.toLower ∈ (nibbles b).map digit := h ▸ List.mem_map_of_mem hc
    obtain ⟨m, hm, hdigit⟩ := List.mem_map.mp hmem
    exact isDigit_of_toLower (lt_of_mem_nibbles hm) hdigit.symm
  · rintro ⟨hlen, hall⟩
    obtain ⟨ns, hns, hlower⟩ := exists_digits hall
    have hcount := congrArg List.length hlower
    rw [List.length_map, List.length_map, hlen] at hcount
    obtain ⟨b, hb, rfl⟩ := exists_nibbles hcount.symm hns
    exact ⟨b, hb, hlower⟩

end ScriptHost.Text.Hex

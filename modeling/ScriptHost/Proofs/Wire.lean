import ScriptHost.Codec.VarInt

/-!
# ScriptHost.Proofs.Wire

Reading the parts of a node is the inverse of writing them. `c.Moves b c'` says that the bytes `b`
stand between the two cursors; every reader of this layer succeeds exactly if the bytes ahead are
the one written form of the value it gives (`VarInt.readAny_eq_ok_iff`, `VarBytes.read_eq_ok_iff`).
-/

namespace ScriptHost

namespace Cursor

/-- The second cursor stands behind the bytes `b` that the first has ahead. -/
structure Moves (c : Cursor) (b : Bytes) (c' : Cursor) : Prop where
  rest : c.rest = b ++ c'.rest
  offset : c'.offset = c.offset + b.length

theorem ext {c c' : Cursor} (hrest : c.rest = c'.rest) (hoffset : c.offset = c'.offset) :
    c = c' := by
  obtain ⟨rest, offset, unread, hunread⟩ := c
  obtain ⟨rest', offset', unread', hunread'⟩ := c'
  cases hrest
  cases hoffset
  cases hunread
  cases hunread'
  rfl

variable {c c₁ c₂ : Cursor} {a b : Bytes}

theorem Moves.unread (h : c.Moves b c₁) : c.unread = b.length + c₁.unread := by
  rw [c.unread_eq, c₁.unread_eq, h.rest, List.length_append]

theorem Moves.trans (h₁ : c.Moves a c₁) (h₂ : c₁.Moves b c₂) : c.Moves (a ++ b) c₂ := by
  refine ⟨by rw [h₁.rest, h₂.rest, List.append_assoc], ?_⟩
  rw [h₂.offset, h₁.offset, List.length_append, Nat.add_assoc]

theorem Moves.nil (c : Cursor) : c.Moves [] c := ⟨rfl, rfl⟩

theorem Moves.eq_of_nil (h : c.Moves [] c₁) : c₁ = c := ext h.rest.symm h.offset

theorem exists_moves {rest : Bytes} (h : c.rest = b ++ rest) :
    ∃ c₁, c.Moves b c₁ ∧ c₁.rest = rest :=
  ⟨⟨rest, c.offset + b.length, rest.length, rfl⟩, ⟨h, rfl⟩, rfl⟩

theorem Moves.split (h : c.Moves (a ++ b) c₂) : ∃ c₁, c.Moves a c₁ ∧ c₁.Moves b c₂ := by
  obtain ⟨c₁, h₁, hrest⟩ := exists_moves (h.rest.trans (List.append_assoc a b c₂.rest))
  refine ⟨c₁, h₁, hrest, ?_⟩
  rw [h.offset, h₁.offset, List.length_append, Nat.add_assoc]

theorem byte_eq_ok_iff {x : UInt8} : c.byte = .ok (x, c₁) ↔ c.Moves [x] c₁ := by
  unfold byte
  split
  · rename_i hnil
    constructor
    · intro h
      cases h
    · intro h
      have := h.rest
      rw [hnil] at this
      cases this
  · rename_i y rest hcons
    constructor
    · intro h
      cases h
      exact ⟨hcons, rfl⟩
    · intro h
      have hrest := h.rest
      rw [hcons] at hrest
      cases hrest
      exact congrArg (fun d => Except.ok (x, d)) (ext rfl h.offset.symm)

theorem take_eq_ok_iff {n : Nat} : c.take n = .ok (b, c₁) ↔ b.length = n ∧ c.Moves b c₁ := by
  unfold take
  split
  · rename_i hshort
    constructor
    · intro h
      cases h
    · rintro ⟨rfl, h⟩
      have := h.unread
      omega
  · rename_i henough
    rw [c.unread_eq] at henough
    constructor
    · intro h
      cases h
      have hlen : (c.rest.take n).length = n := by simp; omega
      exact ⟨hlen, ⟨(List.take_append_drop n c.rest).symm, by rw [hlen]⟩⟩
    · rintro ⟨rfl, h⟩
      have hb : c.rest.take b.length = b := by rw [h.rest, List.take_left]
      have hrest : c.rest.drop b.length = c₁.rest := by rw [h.rest, List.drop_left]
      rw [hb]
      exact congrArg (fun d => Except.ok (b, d)) (ext hrest h.offset.symm)

end Cursor

namespace VarInt

open Cursor

variable {c c₁ : Cursor} {v limit : UInt64}

/-! ## The forms of a length -/

theorem longForm?_eq_some_iff {first : UInt8} {width : Nat} {least : UInt64} :
    longForm? first = some (width, least) ↔
      (first, width, least) ∈ [(0xFD, 2, 0xFD), (0xFE, 4, 0x10000), (0xFF, 8, 0x100000000)] := by
  simp only [List.mem_cons, Prod.mk.injEq, List.not_mem_nil, or_false]
  constructor
  · intro h
    unfold longForm? at h
    repeat' split at h
    all_goals cases h
    all_goals simp [*]
  · rintro (⟨rfl, rfl, rfl⟩ | ⟨rfl, rfl, rfl⟩ | ⟨rfl, rfl, rfl⟩)
    · rfl
    · rfl
    · rfl

theorem exists_longForm?_iff {first : UInt8} {width : Nat} :
    (∃ least, longForm? first = some (width, least)) ↔
      (first, width) ∈ [(0xFD, 2), (0xFE, 4), (0xFF, 8)] := by
  simp only [longForm?_eq_some_iff, List.mem_cons, Prod.mk.injEq, List.not_mem_nil, or_false]
  constructor
  · rintro ⟨least, ⟨hfirst, hwidth, -⟩ | ⟨hfirst, hwidth, -⟩ | ⟨hfirst, hwidth, -⟩⟩
    · exact .inl ⟨hfirst, hwidth⟩
    · exact .inr (.inl ⟨hfirst, hwidth⟩)
    · exact .inr (.inr ⟨hfirst, hwidth⟩)
  · rintro (⟨rfl, rfl⟩ | ⟨rfl, rfl⟩ | ⟨rfl, rfl⟩)
    · exact ⟨_, .inl ⟨rfl, rfl, rfl⟩⟩
    · exact ⟨_, .inr (.inl ⟨rfl, rfl, rfl⟩)⟩
    · exact ⟨_, .inr (.inr ⟨rfl, rfl, rfl⟩)⟩

theorem write_of_longForm {first : UInt8} {width : Nat} {least : UInt64}
    (h : longForm? first = some (width, least)) (hleast : least ≤ v)
    (hlt : v.toNat < 1 <<< (8 * width)) : write v = first :: Bytes.ofNat width v.toNat := by
  rw [UInt64.le_iff_toNat_le] at hleast
  unfold write
  simp only [UInt64.lt_iff_toNat_lt, UInt64.le_iff_toNat_le]
  rw [longForm?_eq_some_iff] at h
  simp only [List.mem_cons, Prod.mk.injEq, List.not_mem_nil, or_false] at h
  rcases h with ⟨rfl, rfl, rfl⟩ | ⟨rfl, rfl, rfl⟩ | ⟨rfl, rfl, rfl⟩
  · simp at hleast hlt
    rw [if_neg (by simp; omega), if_pos (by simp; omega)]
  · simp at hleast hlt
    rw [if_neg (by simp; omega), if_neg (by simp; omega), if_pos (by simp; omega)]
  · simp at hleast
    rw [if_neg (by simp; omega), if_neg (by simp; omega), if_neg (by simp; omega)]

theorem write_of_short {first : UInt8} (h : longForm? first = none) :
    write first.toUInt64 = [first] := by
  have hlt : first.toNat < 0xFD := by
    unfold longForm? at h
    refine Nat.lt_of_not_le ?_
    intro hle
    have hfirst : first = 0xFD ∨ first = 0xFE ∨ first = 0xFF := by
      have := first.toNat_lt
      simp only [← UInt8.toNat_inj, UInt8.reduceToNat]
      omega
    rcases hfirst with rfl | rfl | rfl <;> cases h
  unfold write
  rw [if_pos (by rw [UInt64.lt_iff_toNat_lt]; simpa using hlt)]
  simp

/-- Every value is written in one of the forms that can be read. -/
theorem write_cases (v : UInt64) :
    (∃ first, longForm? first = none ∧ v = first.toUInt64) ∨
      ∃ first width least, longForm? first = some (width, least) ∧ least ≤ v ∧
        v.toNat < 1 <<< (8 * width) := by
  have := v.toNat_lt
  simp only [UInt64.le_iff_toNat_le]
  by_cases h₁ : v.toNat < 0xFD
  · refine .inl ⟨v.toUInt8, ?_, ?_⟩
    · have hbyte : v.toUInt8.toNat = v.toNat := by simp; omega
      unfold longForm?
      rw [if_neg, if_neg, if_neg]
      all_goals
        intro h
        rw [h] at hbyte
        simp at hbyte
        omega
    · apply UInt64.toNat_inj.mp
      simp
      omega
  · by_cases h₂ : v.toNat ≤ 0xFFFF
    · exact .inr ⟨0xFD, 2, 0xFD, rfl, by simp; omega, by simp; omega⟩
    · by_cases h₃ : v.toNat ≤ 0xFFFFFFFF
      · exact .inr ⟨0xFE, 4, 0x10000, rfl, by simp; omega, by simp; omega⟩
      · exact .inr ⟨0xFF, 8, 0x100000000, rfl, by simp; omega, by simp; omega⟩

theorem shiftLeft_width_le {first : UInt8} {width : Nat} {least : UInt64}
    (h : longForm? first = some (width, least)) : 1 <<< (8 * width) ≤ UInt64.size := by
  rw [longForm?_eq_some_iff] at h
  simp only [List.mem_cons, Prod.mk.injEq, List.not_mem_nil, or_false] at h
  rcases h with ⟨-, rfl, -⟩ | ⟨-, rfl, -⟩ | ⟨-, rfl, -⟩
  all_goals decide

/-! ## Lengths of lengths -/

theorem length_write (v : UInt64) :
    (write v).length = if v.toNat < 0xFD then 1 else if v.toNat ≤ 0xFFFF then 3
      else if v.toNat ≤ 0xFFFFFFFF then 5 else 9 := by
  unfold write
  simp only [UInt64.lt_iff_toNat_lt, UInt64.le_iff_toNat_le, UInt64.reduceToNat]
  repeat' split
  all_goals simp

/-- A value below the least that needs so many bytes has a shorter form. -/
theorem length_write_of_lt {first : UInt8} {width : Nat} {least : UInt64}
    (h : longForm? first = some (width, least)) (hlt : v < least) :
    (write v).length ≤ width := by
  rw [UInt64.lt_iff_toNat_lt] at hlt
  rw [length_write]
  rw [longForm?_eq_some_iff] at h
  simp only [List.mem_cons, Prod.mk.injEq, List.not_mem_nil, or_false] at h
  rcases h with ⟨-, rfl, rfl⟩ | ⟨-, rfl, rfl⟩ | ⟨-, rfl, rfl⟩
  all_goals
    simp at hlt
    repeat' split
    all_goals omega

theorem length_write_mono {v w : UInt64} (h : v.toNat ≤ w.toNat) :
    (write v).length ≤ (write w).length := by
  rw [length_write, length_write]
  repeat' split
  all_goals omega

/-- The same for counts, as long as a word holds them. -/
theorem length_write_ofNat_mono {m n : Nat} (h : m ≤ n) (hn : n < UInt64.size) :
    (write (UInt64.ofNat m)).length ≤ (write (UInt64.ofNat n)).length := by
  have hm' : (UInt64.ofNat m).toNat = m := UInt64.toNat_ofNat_of_lt (Nat.lt_of_le_of_lt h hn)
  have hn' : (UInt64.ofNat n).toNat = n := UInt64.toNat_ofNat_of_lt hn
  exact length_write_mono (by omega)

/-! ## Reading -/

theorem readAny_eq_ok_iff : readAny c = .ok (v, c₁) ↔ c.Moves (write v) c₁ := by
  constructor
  · intro h
    unfold readAny at h
    split at h
    · cases h
    · rename_i first d hbyte
      have hfirst := byte_eq_ok_iff.mp hbyte
      split at h
      · rename_i hshort
        cases h
        rwa [write_of_short hshort]
      · rename_i width least hlong
        split at h
        · cases h
        · rename_i b d' htake
          obtain ⟨hlen, hb⟩ := take_eq_ok_iff.mp htake
          simp only at h
          split at h
          · cases h
          · rename_i hleast
            cases h
            have hlt : Bytes.toNat b < 1 <<< (8 * width) := hlen ▸ Bytes.toNat_lt b
            have hv : (UInt64.ofNat (Bytes.toNat b)).toNat = Bytes.toNat b :=
              UInt64.toNat_ofNat_of_lt (Nat.lt_of_lt_of_le hlt (shiftLeft_width_le hlong))
            rw [write_of_longForm hlong (UInt64.not_lt.mp hleast) (hv.symm ▸ hlt), hv, ← hlen,
              Bytes.ofNat_toNat]
            exact hfirst.trans hb
  · intro h
    unfold readAny
    rcases write_cases v with ⟨first, hshort, rfl⟩ | ⟨first, width, least, hlong, hleast, hlt⟩
    · rw [write_of_short hshort] at h
      simp only [byte_eq_ok_iff.mpr h, hshort]
    · rw [write_of_longForm hlong hleast hlt] at h
      obtain ⟨d, hfirst, hb⟩ := Moves.split (a := [first]) h
      have hv : Bytes.toNat (Bytes.ofNat width v.toNat) = v.toNat := by
        rw [Bytes.toNat_ofNat, Nat.mod_eq_of_lt hlt]
      simp only [byte_eq_ok_iff.mpr hfirst, hlong,
        take_eq_ok_iff.mpr ⟨Bytes.length_ofNat width v.toNat, hb⟩, hv, UInt64.ofNat_toNat,
        if_neg (UInt64.not_lt.mpr hleast)]

theorem read_eq_ok_iff {what : String} :
    read limit what c = .ok (v, c₁) ↔ v ≤ limit ∧ c.Moves (write v) c₁ := by
  rw [← readAny_eq_ok_iff]
  unfold read
  split
  · rename_i e he
    simp [he]
  · rename_i w d hread
    rw [hread]
    split
    · rename_i hlt
      constructor
      · intro h
        cases h
      · rintro ⟨hle, h⟩
        cases h
        exact absurd hlt (UInt64.not_lt.mpr hle)
    · rename_i hle
      constructor
      · intro h
        cases h
        exact ⟨UInt64.not_lt.mp hle, rfl⟩
      · rintro ⟨_, h⟩
        cases h
        rfl

theorem read_of_limit_lt {what : String} (hlt : limit < v) (h : c.Moves (write v) c₁) :
    read limit what c = .error (.limitExceeded what limit v) := by
  unfold read
  simp only [readAny_eq_ok_iff.mpr h, if_pos hlt]

end VarInt

namespace VarBytes

open Cursor

theorem length_write_mono {a b : Bytes} (h : a.length ≤ b.length) (hb : b.length < UInt64.size) :
    (write a).length ≤ (write b).length := by
  have := VarInt.length_write_ofNat_mono h hb
  simp only [write, List.length_append]
  omega

/-- Byte strings that are written alike are the same, if the longer one has a length. -/
theorem eq_of_write_eq {a b : Bytes} (hle : a.length ≤ b.length) (hb : b.length < UInt64.size)
    (h : write a = write b) : a = b := by
  have hmono := VarInt.length_write_ofNat_mono hle hb
  have hlen := congrArg List.length h
  simp only [write, List.length_append] at hlen
  exact (List.append_inj' h (by omega)).2

theorem read_eq_ok_iff {limit : UInt64} {c c₁ : Cursor} {b : Bytes} :
    read limit c = .ok (b, c₁) ↔ b.length ≤ limit.toNat ∧ c.Moves (write b) c₁ := by
  have hsize := limit.toNat_lt
  constructor
  · intro h
    unfold read at h
    split at h
    · cases h
    · rename_i n d hn
      obtain ⟨hle, hhead⟩ := VarInt.read_eq_ok_iff.mp hn
      split at h
      · cases h
      · rename_i r hr
        cases h
        obtain ⟨hlen, hbody⟩ := take_eq_ok_iff.mp hr
        rw [UInt64.le_iff_toNat_le] at hle
        have hn : n = UInt64.ofNat b.length := by rw [hlen, UInt64.ofNat_toNat]
        refine ⟨by omega, ?_⟩
        unfold write
        rw [← hn]
        exact hhead.trans hbody
  · rintro ⟨hle, h⟩
    obtain ⟨d, hhead, hbody⟩ := h.split
    have hlen : (UInt64.ofNat b.length).toNat = b.length :=
      UInt64.toNat_ofNat_of_lt (Nat.lt_of_le_of_lt hle hsize)
    have hn : VarInt.read limit "byte array length" c = .ok (UInt64.ofNat b.length, d) :=
      VarInt.read_eq_ok_iff.mpr ⟨by rw [UInt64.le_iff_toNat_le, hlen]; exact hle, hhead⟩
    unfold read
    simp only [hn, take_eq_ok_iff.mpr ⟨hlen.symm, hbody⟩]

end VarBytes

end ScriptHost

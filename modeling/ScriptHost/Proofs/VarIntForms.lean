import ScriptHost.Proofs.Faults

/-!
# ScriptHost.Proofs.VarIntForms

A value has a form in each of the widths that hold it, and only the written one may be read. Input
begins with a form of some value or is cut short (`exists_form_or_cutShort`), and what is made of a
form depends on nothing but whether it is the written one (`readAny_form`). `readOn` is the reader
with the cursor that it leaves, also where it fails: what has been taken by then stays taken.
-/

namespace ScriptHost.VarInt

open Cursor

variable {c d : Cursor} {v limit : UInt64} {w : Bytes} {what : String}

/-- The bytes spell the value in one of the widths that hold it. -/
inductive Form (v : UInt64) : Bytes → Prop
  | short : v.toNat < 0xFD → Form v [v.toUInt8]
  | long {first : UInt8} {width : Nat} : (first, width) ∈ [(0xFD, 2), (0xFE, 4), (0xFF, 8)] →
      v.toNat < 256 ^ width → Form v (first :: Bytes.ofNat width v.toNat)

/-- The written form is one of the forms. -/
theorem form_write (v : UInt64) : Form v (write v) := by
  unfold write
  simp only [UInt64.lt_iff_toNat_lt, UInt64.le_iff_toNat_le, UInt64.reduceToNat]
  split
  · rename_i h
    exact .short h
  · split
    · exact .long (by simp) (by omega)
    · split
      · exact .long (by simp) (by omega)
      · exact .long (by simp) v.toNat_lt

/-- Any other form is a long one of a value that needs fewer bytes. -/
theorem Form.overlong (h : Form v w) (hne : w ≠ write v) :
    ∃ first width least, w = first :: Bytes.ofNat width v.toNat ∧
      longForm? first = some (width, least) ∧ v.toNat < 1 <<< (8 * width) ∧ v < least := by
  cases h with
  | short hlt =>
    refine absurd ?_ hne
    rw [write, if_pos (UInt64.lt_iff_toNat_lt.mpr hlt)]
  | @long first width hfirst hlt =>
    obtain ⟨least, hlong⟩ := exists_longForm?_iff.mpr hfirst
    rw [← Bytes.shiftLeft_eq_pow] at hlt
    refine ⟨first, width, least, rfl, hlong, hlt, UInt64.not_le.mp fun hleast => hne ?_⟩
    exact (write_of_longForm hlong hleast hlt).symm

theorem Form.length_lt (h : Form v w) (hne : w ≠ write v) : (write v).length < w.length := by
  obtain ⟨first, width, least, rfl, hlong, -, hless⟩ := h.overlong hne
  rw [List.length_cons, Bytes.length_ofNat]
  exact Nat.lt_succ_of_le (length_write_of_lt hlong hless)

/-! ## Reading forms -/

theorem readAny_form (h : Form v w) (hmoves : c.Moves w d) :
    readAny c = if w = write v then .ok (v, d) else .error (.nonCanonicalVarInt c.offset) := by
  split
  · rename_i hw
    rw [readAny_eq_ok_iff, ← hw]
    exact hmoves
  · rename_i hne
    obtain ⟨first, width, least, rfl, hlong, hlt, hless⟩ := h.overlong hne
    obtain ⟨c₁, hbyte, htake⟩ := Moves.split (a := [first]) hmoves
    have hvalue : Bytes.toNat (Bytes.ofNat width v.toNat) = v.toNat := by
      rw [Bytes.toNat_ofNat, Nat.mod_eq_of_lt hlt]
    simp only [readAny, byte_eq_ok_iff.mpr hbyte, hlong,
      take_eq_ok_iff.mpr ⟨Bytes.length_ofNat width v.toNat, htake⟩, hvalue, UInt64.ofNat_toNat,
      if_pos hless]

/-- Input that no form begins is too short. -/
theorem exists_form_or_cutShort (c : Cursor) :
    (∃ v w d, Form v w ∧ c.Moves w d) ∨ readAny c = .error (.unexpectedEnd c.total) := by
  unfold readAny
  split
  · rename_i hbyte
    exact .inr (by rw [byte_eq_error hbyte])
  · rename_i first c₁ hbyte
    have hmoves := byte_eq_ok_iff.mp hbyte
    split
    · rename_i hshort
      exact .inl ⟨_, _, c₁, write_of_short hshort ▸ form_write _, hmoves⟩
    · rename_i width least hlong
      split
      · rename_i htake
        exact .inr (by rw [take_eq_error htake, hmoves.total])
      · rename_i b d htake
        obtain ⟨rfl, hb⟩ := take_eq_ok_iff.mp htake
        have hlt : Bytes.toNat b < 1 <<< (8 * b.length) := Bytes.toNat_lt b
        have hvalue : (UInt64.ofNat (Bytes.toNat b)).toNat = Bytes.toNat b :=
          UInt64.toNat_ofNat_of_lt (Nat.lt_of_lt_of_le hlt (shiftLeft_width_le hlong))
        have hform := Form.long (v := UInt64.ofNat (Bytes.toNat b))
          (exists_longForm?_iff.mp ⟨_, hlong⟩)
          (by rw [hvalue, ← Bytes.shiftLeft_eq_pow]; exact hlt)
        rw [hvalue, Bytes.ofNat_toNat] at hform
        exact .inl ⟨_, _, d, hform, hmoves.trans hb⟩

/-! ## The cursor that is left -/

def accept (limit : UInt64) (what : String) (v : UInt64) : Except DecodeError UInt64 :=
  if limit < v then .error (.limitExceeded what limit v) else .ok v

def readOn (limit : UInt64) (what : String) (c : Cursor) : Except DecodeError UInt64 × Cursor :=
  match c.byte with
  | .error e => (.error (.format e), c)
  | .ok (first, c₁) =>
    match longForm? first with
    | none => (accept limit what first.toUInt64, c₁)
    | some (width, least) =>
      match c₁.take width with
      | .error e => (.error (.format e), c₁)
      | .ok (b, c₂) =>
        let v := UInt64.ofNat (Bytes.toNat b)
        (if v < least then .error (.format (.nonCanonicalVarInt c.offset))
          else accept limit what v, c₂)

theorem read_eq_readOn (limit : UInt64) (what : String) (c : Cursor) :
    read limit what c =
      match readOn limit what c with
      | (.error e, _) => .error e
      | (.ok v, d) => .ok (v, d) := by
  unfold read readAny readOn accept
  rcases hbyte : c.byte with e | ⟨first, c₁⟩
  · rfl
  · simp only
    rcases hlong : longForm? first with _ | ⟨width, least⟩
    · simp only
      by_cases hlt : limit < first.toUInt64 <;> simp only [hlt, if_true, if_false]
    · simp only
      rcases htake : c₁.take width with e | ⟨b, c₂⟩
      · rfl
      · simp only
        by_cases hless : UInt64.ofNat (Bytes.toNat b) < least
        · simp only [hless, if_true]
        · by_cases hlt : limit < UInt64.ofNat (Bytes.toNat b) <;>
            simp only [hless, hlt, if_true, if_false]

/-- A read comes to rest behind bytes of the input. -/
theorem exists_moves_readOn (limit : UInt64) (what : String) (c : Cursor) :
    ∃ b, c.Moves b (readOn limit what c).2 := by
  unfold readOn
  split
  · exact ⟨[], .nil c⟩
  · rename_i first c₁ hbyte
    have hmoves := byte_eq_ok_iff.mp hbyte
    split
    · exact ⟨_, hmoves⟩
    · split
      · exact ⟨_, hmoves⟩
      · rename_i b c₂ htake
        exact ⟨_, hmoves.trans (take_eq_ok_iff.mp htake).2⟩

/-- Reading a value, at any place in any input. A written value is read and the cursor stands right
behind it, unless the value is above the limit, which is then refused by that value. Only what is
written is read: a value's other forms are longer, and they are refused where they begin, whatever
the limit. Input that begins with no form is cut short. Wherever a read stops, it stops inside the
input. -/
theorem varInt_canonical (limit : UInt64) (what : String) (c : Cursor) :
    (∀ v rest, c.rest = write v ++ rest → ∃ d, c.Moves (write v) d ∧ d.rest = rest ∧
      read limit what c = if v ≤ limit then .ok (v, d) else .error (.limitExceeded what limit v)) ∧
    (∀ v d, read limit what c = .ok (v, d) → v ≤ limit ∧ c.Moves (write v) d) ∧
    (∀ v w, Form v w → w ≠ write v → (write v).length < w.length ∧ ∀ rest, c.rest = w ++ rest →
      read limit what c = .error (.format (.nonCanonicalVarInt c.offset))) ∧
    ((∀ v w rest, Form v w → c.rest ≠ w ++ rest) →
      read limit what c = .error (.format (.unexpectedEnd c.total))) ∧
    (read limit what c =
      match readOn limit what c with
      | (.error e, _) => .error e
      | (.ok v, d) => .ok (v, d)) ∧
    ∃ b, c.Moves b (readOn limit what c).2 ∧ (readOn limit what c).2.offset ≤ c.total := by
  refine ⟨?_, fun v d => read_eq_ok_iff.mp, ?_, ?_, read_eq_readOn limit what c, ?_⟩
  · intro v rest hrest
    obtain ⟨d, hmoves, hd⟩ := exists_moves hrest
    refine ⟨d, hmoves, hd, ?_⟩
    split
    · rename_i hle
      exact read_eq_ok_iff.mpr ⟨hle, hmoves⟩
    · rename_i hlt
      exact read_of_limit_lt (UInt64.not_le.mp hlt) hmoves
  · intro v w hform hne
    refine ⟨hform.length_lt hne, fun rest hrest => ?_⟩
    obtain ⟨d, hmoves, -⟩ := exists_moves hrest
    rw [read, readAny_form hform hmoves, if_neg hne]
  · intro hnone
    rcases exists_form_or_cutShort c with ⟨v, w, d, hform, hmoves⟩ | hcut
    · exact absurd hmoves.rest (hnone v w d.rest hform)
    · rw [read, hcut]
  · obtain ⟨b, hmoves⟩ := exists_moves_readOn limit what c
    refine ⟨b, hmoves, ?_⟩
    rw [← hmoves.total]
    exact Nat.le_add_right _ _

/-- The value five in two bytes more than it needs. -/
example : read greatestWord "count" (.ofBytes [0xFD, 0x05, 0x00, 0x07]) =
    .error (.format (.nonCanonicalVarInt 0)) := by
  rfl

end ScriptHost.VarInt

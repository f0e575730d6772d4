import ScriptHost.Address
import ScriptHost.Proofs.Hexadecimal

/-!
# ScriptHost.Proofs.HexAddress

Hexadecimal addresses. The text without the mark in front, with small letters, is what is shown of
the hash behind that mark (`hexCodec_eq_ok_iff`); so each hash has one address but for the mark and
the case of the letters. Main statement: `hexCodec_inverts_shown`.
-/

namespace ScriptHost

namespace Address

open Text

/-! ## The mark -/

theorem stripMark_mark (text : String) : stripMark ("0x" ++ text) = text := by
  simp [stripMark]

/-- The mark is taken away once, where it is there. -/
theorem stripMark_cases (text : String) :
    text = "0x" ++ stripMark text ∨ stripMark text = text ∧ ∀ rest, text ≠ "0x" ++ rest := by
  unfold stripMark
  split
  · rename_i rest htext
    refine .inl (String.toList_inj.mp ?_)
    simp [htext]
  · rename_i hother
    refine .inr ⟨rfl, ?_⟩
    rintro rest rfl
    exact hother rest.toList (by simp)

theorem stripMark_of_digits {text : String} (h : ∀ c ∈ text.toList, Hex.IsDigit c) :
    stripMark text = text := by
  rcases stripMark_cases text with hmark | ⟨hnone, -⟩
  · have hx : 'x' ∈ text.toList := by
      rw [hmark]
      simp
    exact absurd (h 'x' hx) (by decide)
  · exact hnone

/-! ## Reading an address -/

variable {text : String} {h : ScriptHash}

theorem hexCodec_of_decode {raw : Bytes} (hraw : Hex.decode (stripMark text) = .ok raw) :
    hexCodec text =
      match ScriptHash.ofBytes? raw.reverse with
      | none => .error (.invalidLength 20 raw.length)
      | some hash => .ok hash := by
  rw [hexCodec, hraw]
  rfl

theorem hexCodec_of_fault {fault : Hex.Fault}
    (hfault : Hex.decode (stripMark text) = .error fault) :
    hexCodec text = .error (.invalidHex text) := by
  rw [hexCodec, hfault]

theorem hexCodec_eq_ok_iff :
    hexCodec text = .ok h ↔ Hex.decode (stripMark text) = .ok h.reversed := by
  cases hdecode : Hex.decode (stripMark text) with
  | error fault =>
    rw [hexCodec_of_fault hdecode]
    simp
  | ok raw =>
    have hbytes : raw = h.reversed ↔ h.bytes = raw.reverse := by
      rw [ScriptHash.reversed, ← List.reverse_eq_iff, eq_comm]
    rw [hexCodec_of_decode hdecode, Except.ok.injEq, hbytes, ← ScriptHash.ofBytes?_eq_some_iff]
    cases ScriptHash.ofBytes? raw.reverse <;> simp

theorem hexCodec_invalidLength_iff {n : Nat} :
    hexCodec text = .error (.invalidLength 20 n) ↔
      n ≠ 20 ∧ ∃ b, b.length = n ∧ Hex.decode (stripMark text) = .ok b := by
  cases hdecode : Hex.decode (stripMark text) with
  | error fault =>
    rw [hexCodec_of_fault hdecode]
    simp
  | ok raw =>
    rw [hexCodec_of_decode hdecode]
    have hraw : (∃ b, b.length = n ∧ Except.ok (ε := Hex.Fault) raw = .ok b) ↔ raw.length = n := by
      simp
    cases hhash : ScriptHash.ofBytes? raw.reverse with
    | none =>
      rw [ScriptHash.ofBytes?_eq_none_iff, List.length_reverse] at hhash
      rw [hraw, Except.error.injEq, AddressError.invalidLength.injEq]
      constructor
      · rintro ⟨-, rfl⟩
        exact ⟨hhash, rfl⟩
      · rintro ⟨-, hlen⟩
        exact ⟨rfl, hlen⟩
    | some hash =>
      have hlen : raw.length = 20 := by
        rw [← List.length_reverse, ← ScriptHash.ofBytes?_eq_some_iff.mp hhash, hash.length_eq]
      rw [hraw]
      constructor
      · intro heq
        cases heq
      · rintro ⟨hne, rfl⟩
        exact absurd hlen hne

theorem hexCodec_invalidHex_iff :
    hexCodec text = .error (.invalidHex text) ↔
      ¬∃ n b, b.length = n ∧ Hex.decode (stripMark text) = .ok b := by
  cases hdecode : Hex.decode (stripMark text) with
  | error fault =>
    rw [hexCodec_of_fault hdecode]
    simp
  | ok raw =>
    rw [hexCodec_of_decode hdecode]
    cases ScriptHash.ofBytes? raw.reverse <;> simp

/-- Addresses, whatever the text. The mark is taken away in front, once. An address of a hash is what
is shown of it, with or without the mark and in either case, and no other text is: a text has a hash
exactly if forty digits are left of it. If it is another even number of digits, the number of bytes
is refused, and all else is refused as it came. Two addresses are of one hash if they are the same
but for the mark and the case. -/
theorem hexCodec_inverts_shown :
    (∀ text h, hexCodec text = .ok h ↔ (stripMark text).toLower = Hex.encode h.reversed) ∧
    (∀ text,
      (text = "0x" ++ stripMark text ∨ stripMark text = text ∧ ∀ rest, text ≠ "0x" ++ rest) ∧
      ((∃ h, hexCodec text = .ok h) ↔
        (stripMark text).length = 40 ∧ ∀ c ∈ (stripMark text).toList, Hex.IsDigit c) ∧
      (∀ n, hexCodec text = .error (.invalidLength 20 n) ↔ n ≠ 20 ∧
        (stripMark text).length = 2 * n ∧ ∀ c ∈ (stripMark text).toList, Hex.IsDigit c) ∧
      (hexCodec text = .error (.invalidHex text) ↔
        ¬∃ n, (stripMark text).length = 2 * n ∧ ∀ c ∈ (stripMark text).toList, Hex.IsDigit c)) ∧
    (∀ h : ScriptHash, hexCodec h.shown = .ok h ∧ hexCodec (Hex.encode h.reversed) = .ok h) ∧
    ∀ text text' h, hexCodec text = .ok h →
      (hexCodec text' = .ok h ↔ (stripMark text').toLower = (stripMark text).toLower) := by
  have hread (text : String) (h : ScriptHash) :
      hexCodec text = .ok h ↔ (stripMark text).toLower = Hex.encode h.reversed := by
    rw [hexCodec_eq_ok_iff, Hex.decode_eq_ok_iff]
  refine ⟨hread, fun text => ⟨stripMark_cases text, ?_, fun n => ?_, ?_⟩, fun h => ⟨?_, ?_⟩, ?_⟩
  · rw [← Hex.exists_decode_iff (n := 20)]
    simp only [hexCodec_eq_ok_iff]
    constructor
    · rintro ⟨h, hdecode⟩
      exact ⟨_, h.length_reversed, hdecode⟩
    · rintro ⟨b, hlen, hdecode⟩
      refine ⟨⟨b.reverse, by rw [List.length_reverse, hlen]⟩, ?_⟩
      rw [ScriptHash.reversed, List.reverse_reverse, hdecode]
  · rw [hexCodec_invalidLength_iff, Hex.exists_decode_iff]
  · rw [hexCodec_invalidHex_iff]
    simp only [Hex.exists_decode_iff]
  · rw [hexCodec_eq_ok_iff, ScriptHash.shown, stripMark_mark, Hex.decode_encoded]
  · have hdigits := (Hex.exists_decode_iff (n := 20)).mp
      ⟨_, h.length_reversed, Hex.decode_encoded h.reversed⟩
    rw [hexCodec_eq_ok_iff, stripMark_of_digits hdigits.2, Hex.decode_encoded]
  · intro text text' h htext
    rw [hread, (hread text h).mp htext]

/-- The mark is not counted, and either case will do. -/
example : hexCodec "0x0aF2" = .error (.invalidLength 20 2) := by decide +kernel

end Address

end ScriptHost

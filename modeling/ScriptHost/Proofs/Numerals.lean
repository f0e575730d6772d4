import ScriptHost.Text.Decimal

/-!
# ScriptHost.Proofs.Numerals

Decimal numbers as texts. A text of digits is read as what they are worth, whatever zeros stand in
front (`digits?_eq_some_iff`). Each number is written in a way of its own (`ofNat_inj`,
`ofInt_inj`), in digits behind at most one minus sign. The numbers that a command takes are the ones
that `Numeral` describes (`word?_eq_some_iff`).
-/

namespace ScriptHost.Text.Decimal

/-! ## Reading -/

/-- What digits are worth behind digits that are worth `high`. -/
def worthFrom (high : Nat) (digits : List Char) : Nat :=
  digits.foldl (fun high c => 10 * high + (c.toNat - 48)) high

/-- A number as it is given to a command: digits, perhaps behind a plus sign, that are worth less
than a word can hold. -/
def Numeral (text : String) (n : UInt64) : Prop :=
  ∃ digits : List Char, digits ≠ [] ∧ (∀ c ∈ digits, c.isDigit = true) ∧
    (text.toList = digits ∨ text.toList = '+' :: digits) ∧ worthFrom 0 digits = n.toNat

theorem digits?_eq_some_iff {high n : Nat} {cs : List Char} :
    digits? high cs = some n ↔ (∀ c ∈ cs, c.isDigit = true) ∧ worthFrom high cs = n := by
  induction cs generalizing high with
  | nil => simp [digits?, worthFrom]
  | cons c cs ih =>
    by_cases hc : c.isDigit = true
    · rw [digits?, if_pos hc, ih, List.forall_mem_cons, and_iff_right hc]
      rfl
    · simp [digits?, hc]

theorem unsigned?_eq_some_iff {n : Nat} {cs : List Char} :
    unsigned? cs = some n ↔ cs ≠ [] ∧ (∀ c ∈ cs, c.isDigit = true) ∧ worthFrom 0 cs = n := by
  cases cs with
  | nil => simp [unsigned?]
  | cons c cs => simp [unsigned?, digits?_eq_some_iff]

theorem fitting_eq_some_iff {m : Nat} {n : UInt64} :
    (if m < UInt64.size then some (UInt64.ofNat m) else none) = some n ↔ m = n.toNat := by
  constructor
  · intro h
    by_cases hlt : m < UInt64.size
    · rw [if_pos hlt, Option.some.injEq] at h
      rw [← h, UInt64.toNat_ofNat_of_lt' hlt]
    · rw [if_neg hlt] at h
      cases h
  · rintro rfl
    rw [if_pos n.toNat_lt, UInt64.ofNat_toNat]

/-- A plus sign in front is passed over. -/
theorem word?_eq_bind {text : String} {cs : List Char}
    (h : text.toList = '+' :: cs ∨ text.toList = cs ∧ ∀ rest, cs ≠ '+' :: rest) :
    word? text = (unsigned? cs).bind fun m =>
      if m < UInt64.size then some (UInt64.ofNat m) else none := by
  unfold word?
  rcases h with hsign | ⟨rfl, hnone⟩
  · simp only [hsign]
    cases unsigned? cs <;> rfl
  · split
    · rename_i rest hsign
      exact absurd hsign (hnone rest)
    · cases unsigned? text.toList <;> rfl

theorem word?_eq_some_iff {text : String} {n : UInt64} :
    word? text = some n ↔ Numeral text n := by
  unfold Numeral
  by_cases hsign : ∃ rest, text.toList = '+' :: rest
  · obtain ⟨rest, hrest⟩ := hsign
    simp only [word?_eq_bind (.inl hrest), Option.bind_eq_some_iff, fitting_eq_some_iff,
      exists_eq_right, unsigned?_eq_some_iff, hrest]
    constructor
    · rintro ⟨hne, hdigits, hworth⟩
      exact ⟨rest, hne, hdigits, .inr rfl, hworth⟩
    · rintro ⟨digits, hne, hdigits, rfl | hsame, hworth⟩
      · exact absurd (hdigits '+' List.mem_cons_self) (by decide)
      · cases hsame
        exact ⟨hne, hdigits, hworth⟩
  · have hnone : ∀ rest, text.toList ≠ '+' :: rest := not_exists.mp hsign
    simp only [word?_eq_bind (.inr ⟨rfl, hnone⟩), Option.bind_eq_some_iff, fitting_eq_some_iff,
      exists_eq_right, unsigned?_eq_some_iff]
    constructor
    · rintro ⟨hne, hdigits, hworth⟩
      exact ⟨text.toList, hne, hdigits, .inl rfl, hworth⟩
    · rintro ⟨digits, hne, hdigits, rfl | hsame, hworth⟩
      · exact ⟨hne, hdigits, hworth⟩
      · exact absurd hsame (hnone digits)

/-! ## Writing -/

theorem isDigit_of_mem_ofNat {n : Nat} {c : Char} (h : c ∈ (ofNat n).toList) :
    c.isDigit = true :=
  (digits?_eq_some_iff.mp (digits?_ofNat n)).1 c h

theorem ofNat_inj {m n : Nat} (h : ofNat m = ofNat n) : m = n := by
  have hm := digits?_ofNat m
  rw [h, digits?_ofNat n] at hm
  exact (Option.some.inj hm).symm

theorem ofNat_ne_empty (n : Nat) : (ofNat n).toList ≠ [] := by
  unfold ofNat
  split
  · decide
  · rename_i hdigits
    rw [String.toList_ofList]
    exact hdigits

theorem mem_ofInt {n : Int} {c : Char} (h : c ∈ (ofInt n).toList) : c = '-' ∨ c.isDigit = true := by
  unfold ofInt at h
  split at h
  · rw [String.toList_append, List.mem_append] at h
    rcases h with h | h
    · exact .inl (by simpa using h)
    · exact .inr (isDigit_of_mem_ofNat h)
  · exact .inr (isDigit_of_mem_ofNat h)

theorem ofInt_inj {m n : Int} (h : ofInt m = ofInt n) : m = n := by
  have unsigned {k l : Nat} : "-" ++ ofNat k ≠ ofNat l := by
    intro heq
    have hmem : '-' ∈ (ofNat l).toList := by
      rw [← heq]
      simp
    exact absurd (isDigit_of_mem_ofNat hmem) (by decide)
  unfold ofInt at h
  split at h <;> split at h
  · have := ofNat_inj (String.append_right_inj _ |>.mp h)
    omega
  · exact absurd h unsigned
  · exact absurd h.symm unsigned
  · have := ofNat_inj h
    omega

end ScriptHost.Text.Decimal

import ScriptHost.Text.Quoted

/-!
# ScriptHost.ErrorDerive.Literal

What a string literal says. Between plain quotes a backslash starts an escape: of one of a few
characters, of a character by its number, or of the end of a line, which is left out with the
blanks after it. Between the quotes of a raw literal everything stands for itself. A literal of
any other kind is no string. A text says, once it is quoted, what it was (`value?_quote`).
-/

namespace ScriptHost.ErrorDerive.Literal

/-- The characters that are written as two. -/
def escape? (c : Char) : Option Char :=
  match c with
  | 'n' => some '\n'
  | 'r' => some '\r'
  | 't' => some '\t'
  | '0' => some '\x00'
  | '\\' => some '\\'
  | '\'' => some '\''
  | '"' => some '"'
  | _ => none

/-- What a hexadecimal digit of either case is worth. -/
def digit? (c : Char) : Option Nat :=
  if '0' ≤ c ∧ c ≤ '9' then some (c.toNat - 48)
  else if 'a' ≤ c ∧ c ≤ 'f' then some (c.toNat - 87)
  else if 'A' ≤ c ∧ c ≤ 'F' then some (c.toNat - 55)
  else none

/-- What digits are worth; low lines may group them. -/
def number? (digits : List Char) : Option Nat :=
  (digits.filter (· != '_')).foldlM (fun high c => (digit? c).map (16 * high + ·)) 0

/-- The character whose number the digits give. -/
def character? (digits : List Char) : Option Char :=
  match number? digits with
  | none => none
  | some n => if n.isValidChar then some (Char.ofNat n) else none

/-- The blanks that are left out with the end of a line. -/
def isMargin (c : Char) : Bool := c = ' ' || c = '\t' || c = '\n' || c = '\r'

/-- What stands at the head of the inside of a literal: the characters that it stands for, and the
number of characters that it takes after the first. -/
def head? (c : Char) (rest : List Char) : Option (List Char × Nat) :=
  match c, rest with
  | '\\', 'x' :: high :: low :: _ => (character? [high, low]).map fun d => ([d], 3)
  | '\\', 'u' :: '\x7b' :: more =>
    let digits := more.takeWhile (· != '\x7d')
    (character? digits).map fun d => ([d], digits.length + 3)
  | '\\', '\n' :: more => some ([], 1 + (more.takeWhile isMargin).length)
  | '\\', '\r' :: more => some ([], 1 + (more.takeWhile isMargin).length)
  | '\\', d :: _ => (escape? d).map fun d => ([d], 1)
  | '\\', [] => none
  | '\r', '\n' :: _ => some (['\n'], 1)
  | c, _ => some ([c], 0)

/-- Reads on after `skip` characters that belong to an escape already. -/
def unescapeFrom : (skip : Nat) → List Char → Option (List Char)
  | _, [] => some []
  | skip + 1, _ :: rest => unescapeFrom skip rest
  | 0, c :: rest =>
    match head? c rest with
    | none => none
    | some (meant, more) => (unescapeFrom more rest).map (meant ++ ·)

/-- What the inside of a literal says. -/
def unescape (inside : List Char) : Option (List Char) := unescapeFrom 0 inside

/-- What a string literal says, none if it is a literal of another kind. -/
def value? : List Char → Option String
  | '"' :: inside => (unescape inside.dropLast).map String.ofList
  | 'r' :: rest =>
    let hashes := (rest.takeWhile (· == '#')).length
    some (String.ofList ((rest.drop (hashes + 1)).take (rest.length - 2 * (hashes + 1))))
  | _ => none

/-! ## What is quoted says what it was -/

theorem unescapeFrom_eq (skip : Nat) (inside : List Char) :
    unescapeFrom skip inside = unescape (inside.drop skip) := by
  induction inside generalizing skip with
  | nil => simp [unescape, unescapeFrom]
  | cons c rest ih =>
    cases skip with
    | zero => rfl
    | succ skip => simpa [unescapeFrom] using ih skip

theorem unescape_cons {c : Char} {rest meant : List Char} {more : Nat}
    (h : head? c rest = some (meant, more)) :
    unescape (c :: rest) = (unescape (rest.drop more)).map (meant ++ ·) := by
  rw [unescape, unescapeFrom, h]
  simp only [unescapeFrom_eq]

theorem digit?_digitChar : ∀ n < 16, digit? n.digitChar = some n := by decide

/-- The digits of a number are neither low lines nor brackets. -/
theorem plain_of_mem_toDigits {n : Nat} {c : Char} (h : c ∈ Nat.toDigits 16 n) :
    c ≠ '_' ∧ c ≠ '\x7d' := by
  induction n using Nat.strongRecOn with
  | ind n ih =>
    rw [Nat.toDigits_eq_if (by decide)] at h
    have hdigit {d : Nat} : d.digitChar ≠ '_' ∧ d.digitChar ≠ '\x7d' :=
      ⟨Nat.digitChar_ne _ rfl, Nat.digitChar_ne _ rfl⟩
    split at h
    · rw [List.mem_singleton.mp h]
      exact hdigit
    · rcases List.mem_append.mp h with h | h
      · exact ih (n / 16) (by omega) h
      · rw [List.mem_singleton.mp h]
        exact hdigit

theorem number?_toDigits (n : Nat) : number? (Nat.toDigits 16 n) = some n := by
  have hfilter : (Nat.toDigits 16 n).filter (· != '_') = Nat.toDigits 16 n := by
    rw [List.filter_eq_self]
    intro c hc
    exact bne_iff_ne.mpr (plain_of_mem_toDigits hc).1
  rw [number?, hfilter]
  clear hfilter
  induction n using Nat.strongRecOn with
  | ind n ih =>
    rw [Nat.toDigits_eq_if (by decide)]
    split
    · rename_i hn
      simp [digit?_digitChar _ hn]
    · have hlow : n % 16 < 16 := Nat.mod_lt _ (by decide)
      rw [List.foldlM_append, ih (n / 16) (by omega)]
      simp [digit?_digitChar _ hlow, Nat.div_add_mod]

theorem character?_toDigits (c : Char) : character? (Nat.toDigits 16 c.toNat) = some c := by
  have hvalid : c.toNat.isValidChar := c.valid
  rw [character?, number?_toDigits]
  simp [hvalid]

theorem unescape_escape {c d : Char} (h : escape? d = some c) (rest : List Char) :
    unescape ('\\' :: d :: rest) = (unescape rest).map (c :: ·) := by
  have hhead : head? '\\' (d :: rest) = some ([c], 1) := by
    unfold escape? at h
    split at h <;> cases h <;> rfl
  exact unescape_cons hhead

theorem unescape_number (c : Char) (rest : List Char) :
    unescape ('\\' :: 'u' :: '\x7b' :: (Nat.toDigits 16 c.toNat ++ '\x7d' :: rest)) =
      (unescape rest).map (c :: ·) := by
  have htake : (Nat.toDigits 16 c.toNat ++ '\x7d' :: rest).takeWhile (· != '\x7d') =
      Nat.toDigits 16 c.toNat := by
    rw [List.takeWhile_append_of_pos]
    · simp
    · intro d hd
      exact bne_iff_ne.mpr (plain_of_mem_toDigits hd).2
  have hhead : head? '\\' ('u' :: '\x7b' :: (Nat.toDigits 16 c.toNat ++ '\x7d' :: rest)) =
      some ([c], (Nat.toDigits 16 c.toNat).length + 3) := by
    simp only [head?, htake, character?_toDigits, Option.map_some]
  rw [unescape_cons hhead]
  simp

theorem unescape_plain {c : Char} (hslash : c ≠ '\\') (hreturn : c ≠ '\r') (rest : List Char) :
    unescape (c :: rest) = (unescape rest).map (c :: ·) := by
  have hhead : head? c rest = some ([c], 0) := by
    unfold head?
    split <;> simp_all
  exact unescape_cons hhead

/-- An escaped character is read as what it was. -/
theorem unescape_escapeChar (c : Char) (rest : List Char) :
    unescape ((Text.escapeChar '"' c).toList ++ rest) = (unescape rest).map (c :: ·) := by
  unfold Text.escapeChar
  split
  · rename_i h
    exact h ▸ unescape_escape rfl rest
  split
  · rename_i h
    exact h ▸ unescape_escape rfl rest
  split
  · rename_i h
    exact h ▸ unescape_escape rfl rest
  split
  · rename_i h
    exact h ▸ unescape_escape rfl rest
  split
  · rename_i h
    have hescape : escape? c = some c := by rcases h with rfl | rfl <;> rfl
    simpa using unescape_escape hescape rest
  split
  · simpa [Text.hexDigits] using unescape_number c rest
  · simpa using unescape_plain (by simp_all) (by simp_all) rest

theorem value?_quote (s : String) : value? (Text.quote s).toList = some s := by
  have hinside (cs : List Char) :
      unescape (cs.flatMap fun c => (Text.escapeChar '"' c).toList) = some cs := by
    induction cs with
    | nil => rfl
    | cons c cs ih =>
      rw [List.flatMap_cons, unescape_escapeChar, ih]
      rfl
  have hquote : (Text.quote s).toList =
      '"' :: ((s.toList.flatMap fun c => (Text.escapeChar '"' c).toList) ++ ['"']) := by
    simp [Text.quote, List.flatMap_map]
  rw [hquote, value?, List.dropLast_concat, hinside, Option.map_some, String.ofList_toList]

end ScriptHost.ErrorDerive.Literal

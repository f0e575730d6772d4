import ScriptHost.ErrorDerive.Token

/-!
# ScriptHost.ErrorDerive.Outline

Source text as a tree of brackets. Whether `<` is a bracket shows only later: it is one if a `>`
closes it before the brackets around it close, and a comparison otherwise; the `>` of an arrow
closes nothing. Reading loses no token (`textAll_ofTokens`).

The arguments between angle brackets are printed with the lifetimes first, as the language wants
them. What follows the name of a macro or the mark of an attribute is not read as a type and is
left as it stands.
-/

namespace ScriptHost.ErrorDerive

inductive Outline
  | leaf (token : Token)
  | group (bracket : Char) (inside : List Outline)
deriving Repr

def closing (bracket : Char) : Char :=
  match bracket with
  | '(' => ')'
  | '[' => ']'
  | '\x7b' => '\x7d'
  | _ => '>'

def isBracket (c : Char) : Bool := c = '(' || c = '[' || c = '\x7b' || c = '<'

namespace Outline

mutual

def text : Outline → List Char
  | leaf token => token.text
  | group bracket inside => bracket :: (textAll inside ++ [closing bracket])

def textAll : List Outline → List Char
  | [] => []
  | x :: rest => x.text ++ textAll rest

end

def isMark (c : Char) : Outline → Bool
  | leaf (.mark d) => c = d
  | _ => false

/-! ## Reading -/

/-- The brackets that are open, innermost first, each with what stands before it, last first. -/
abbrev Enclosing := List (Char × List Outline)

/-- Brackets that are never closed are marks. -/
def unclosed (inside : List Outline) : Enclosing → List Outline
  | [] => inside
  | (bracket, before) :: outer => unclosed (inside ++ leaf (.mark bracket) :: before) outer

/-- Closes the innermost bracket that `c` belongs to; an angle bracket that is still open inside
was a comparison. -/
def close? (c : Char) (inside : List Outline) : Enclosing → Option (List Outline × Enclosing)
  | [] => none
  | (bracket, before) :: outer =>
    if closing bracket = c then some (group bracket inside.reverse :: before, outer)
    else if bracket = '<' then close? c (inside ++ leaf (.mark bracket) :: before) outer
    else none

/-- Whether a `>` would end an arrow. -/
def atArrow (inside : List Outline) : Bool :=
  match inside with
  | x :: _ => x.isMark '-' || x.isMark '='
  | [] => false

/-- Reads on; `inside` holds what has been read since the innermost bracket, last first. -/
def readFrom (inside : List Outline) (outer : Enclosing) : List Token → List Outline
  | [] => (unclosed inside outer).reverse
  | .mark c :: rest =>
    if isBracket c then readFrom [] ((c, inside) :: outer) rest
    else if c = '>' ∧ atArrow inside then readFrom (leaf (.mark c) :: inside) outer rest
    else
      match close? c inside outer with
      | some (inside, outer) => readFrom inside outer rest
      | none => readFrom (leaf (.mark c) :: inside) outer rest
  | t :: rest => readFrom (leaf t :: inside) outer rest

def ofTokens (tokens : List Token) : List Outline := readFrom [] [] tokens

def ofText (text : String) : List Outline := ofTokens (Token.scan text.toList)

/-! ## Arguments -/

/-- One of several things with commas between them. -/
structure Argument where
  parts : List Outline
  /-- Whether a comma stands after it. -/
  comma : Bool
deriving Repr

def argumentsFrom (current : List Outline) : List Outline → List Argument
  | [] => if current.isEmpty then [] else [⟨current.reverse, false⟩]
  | x :: rest =>
    if x.isMark ',' then ⟨current.reverse, true⟩ :: argumentsFrom [] rest
    else argumentsFrom (x :: current) rest

def arguments (parts : List Outline) : List Argument := argumentsFrom [] parts

/-- Puts the commas back; after the last argument there is one only if it had one. -/
def join : List Argument → List Outline
  | [] => []
  | [a] => if a.comma then a.parts ++ [leaf (.mark ',')] else a.parts
  | a :: rest => a.parts ++ leaf (.mark ',') :: join rest

/-- The attributes in front, and what they are put on. -/
def splitAttributes : List Outline → List Outline × List Outline
  | leaf (.mark '#') :: group '[' inside :: rest =>
    let (front, body) := splitAttributes rest
    (leaf (.mark '#') :: group '[' inside :: front, body)
  | parts => ([], parts)

/-- A colon with no bounds after it says nothing. -/
def dropEmptyBounds (parts : List Outline) : List Outline :=
  match parts.getLast? with
  | some x => if x.isMark ':' then parts.dropLast else parts
  | none => parts

namespace Argument

/-- A lifetime, with bounds or without, but not one of the bounds of a type. -/
def isLifetime (a : Argument) : Bool :=
  match (splitAttributes a.parts).2 with
  | leaf (.lifetime _) :: x :: _ => !x.isMark '+'
  | [leaf (.lifetime _)] => true
  | _ => false

end Argument

def lifetimesFirst (arguments : List Argument) : List Argument :=
  arguments.filter (·.isLifetime) ++ arguments.filter fun a => !a.isLifetime

/-! ## The printed form -/

/-- What stands right before a part, as far as it decides how brackets are read. -/
inductive Lead
  | word
  /-- The mark of an attribute, or a macro's name with its mark. -/
  | verbatim
  | other
deriving DecidableEq, Repr

def Lead.after (lead : Lead) (part : Outline) : Lead :=
  match part with
  | leaf (.word _) => .word
  | leaf (.mark '#') => .verbatim
  | leaf (.mark '!') => if lead = .other then .other else .verbatim
  | _ => .other

/-- The inside of angle brackets as it is printed. -/
def arrangeArguments (inside : List Outline) : List Outline :=
  join ((lifetimesFirst (arguments inside)).map fun a =>
    if a.isLifetime then { a with parts := dropEmptyBounds a.parts } else a)

mutual

def arrange (lead : Lead) : Outline → Outline
  | leaf token => leaf token
  | group bracket inside =>
    if bracket = '<' then group bracket (arrangeArguments (arrangeAll .other inside))
    else if lead = .verbatim then group bracket inside
    else group bracket (arrangeAll .other inside)

def arrangeAll (lead : Lead) : List Outline → List Outline
  | [] => []
  | x :: rest => x.arrange lead :: arrangeAll (lead.after x) rest

end

/-- Printed text has no spaces, not even those inside literals. -/
def print (parts : List Outline) : String :=
  String.ofList ((textAll (arrangeAll .other parts)).filter (· != ' '))

/-! ## Nothing is lost -/

theorem textAll_append (xs ys : List Outline) : textAll (xs ++ ys) = textAll xs ++ textAll ys := by
  induction xs with
  | nil => simp [textAll]
  | cons x rest ih => simp [textAll, ih]

/-- The text up to what has been read inside the innermost bracket. -/
def textBefore (inside : List Outline) : Enclosing → List Char
  | [] => textAll inside.reverse
  | (bracket, before) :: outer => textBefore before outer ++ bracket :: textAll inside.reverse

theorem textBefore_append (inside before : List Outline) (outer : Enclosing) :
    textBefore (inside ++ before) outer = textBefore before outer ++ textAll inside.reverse := by
  cases outer with
  | nil => simp [textBefore, textAll_append]
  | cons o rest => simp [textBefore, textAll_append]

theorem textBefore_cons (x : Outline) (inside : List Outline) (outer : Enclosing) :
    textBefore (x :: inside) outer = textBefore inside outer ++ x.text := by
  have h := textBefore_append [x] inside outer
  simpa [textAll] using h

theorem textAll_unclosed (inside : List Outline) (outer : Enclosing) :
    textAll (unclosed inside outer).reverse = textBefore inside outer := by
  induction outer generalizing inside with
  | nil => rfl
  | cons o rest ih =>
    simp only [unclosed, ih, textBefore_append, textBefore_cons, textBefore, text, Token.text]
    simp

theorem textBefore_close {c : Char} {inside inside' : List Outline} {outer outer' : Enclosing}
    (h : close? c inside outer = some (inside', outer')) :
    textBefore inside' outer' = textBefore inside outer ++ [c] := by
  induction outer generalizing inside with
  | nil => simp [close?] at h
  | cons o rest ih =>
    obtain ⟨bracket, before⟩ := o
    simp only [close?] at h
    split at h
    · rename_i hc
      cases h
      simp [textBefore_cons, textBefore, text, hc]
    · split at h
      · rw [ih h]
        simp [textBefore_append, textBefore_cons, textBefore, text, Token.text]
      · simp at h

theorem textAll_readFrom (inside : List Outline) (outer : Enclosing) (tokens : List Token) :
    textAll (readFrom inside outer tokens) =
      textBefore inside outer ++ tokens.flatMap Token.text := by
  fun_induction readFrom inside outer tokens with
  | case1 inside outer => simp [textAll_unclosed]
  | case2 inside outer c rest h ih => simp [ih, textBefore, textAll, Token.text]
  | case3 inside outer c rest _ h ih => simp [ih, textBefore_cons, text, Token.text]
  | case4 inside outer c rest _ _ inside' outer' h ih =>
    simp [ih, textBefore_close h, Token.text]
  | case5 inside outer c rest _ _ h ih => simp [ih, textBefore_cons, text, Token.text]
  | case6 inside outer t rest _ ih => simp [ih, textBefore_cons, text]

/-- The outline has all tokens, in their order. -/
theorem textAll_ofTokens (tokens : List Token) :
    textAll (ofTokens tokens) = tokens.flatMap Token.text := by
  simp [ofTokens, textAll_readFrom, textBefore, textAll]

end Outline

end ScriptHost.ErrorDerive

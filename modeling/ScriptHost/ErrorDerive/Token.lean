import ScriptHost.Text.Blank
import ScriptHost.Text.Quoted

/-!
# ScriptHost.ErrorDerive.Token

The tokens of source text. Blanks and comments are none; a comment that documents what follows, or
what it stands in, stands for the attribute that says the same. A literal is one token whatever it
holds, so a bracket, a comma or the start of a comment inside it counts for nothing. Numbers are
words, and every other character is a mark of its own.
-/

namespace ScriptHost.ErrorDerive

inductive Token
  | word (text : List Char)
  /-- With its quote. -/
  | lifetime (text : List Char)
  | literal (text : List Char)
  | mark (c : Char)
deriving DecidableEq, Repr

namespace Token

def text : Token → List Char
  | word text => text
  | lifetime text => text
  | literal text => text
  | mark c => [c]

/-- Text may also be spaced by the marks that give its direction. -/
def isSpace (c : Char) : Bool := Text.isBlank c || c = '\u200e' || c = '\u200f'

/-- Beyond ASCII, all that is not a blank can stand in a name. -/
def inWord (c : Char) : Bool :=
  c.isAlphanum || c = '_' || (128 ≤ c.toNat && !isSpace c)

/-! ## How far a token goes

Each function counts the characters up to the end of what has been opened, the end included. -/

/-- A backslash takes the next character with it. -/
def quotedLength (mark : Char) : List Char → Nat
  | [] => 0
  | '\\' :: _ :: rest => 2 + quotedLength mark rest
  | c :: rest => if c = mark then 1 else 1 + quotedLength mark rest

/-- A raw literal ends at a quote with as many hashes as stand before its first one. -/
def rawLength (hashes : List Char) : List Char → Nat
  | [] => 0
  | c :: rest =>
    if c = '"' ∧ hashes.isPrefixOf rest then 1 + hashes.length else 1 + rawLength hashes rest

/-- Comments nest; `depth` more are open around this one. -/
def commentLength : (depth : Nat) → List Char → Nat
  | _, [] => 0
  | depth, '/' :: '*' :: rest => 2 + commentLength (depth + 1) rest
  | 0, '*' :: '/' :: _ => 2
  | depth + 1, '*' :: '/' :: rest => 2 + commentLength depth rest
  | depth, _ :: rest => 1 + commentLength depth rest

/-- The length of the raw literal that starts with a word and what follows it, the word not
counted. -/
def rawLength? (word rest : List Char) : Option Nat :=
  if word = ['r'] ∨ word = ['b', 'r'] ∨ word = ['c', 'r'] then
    let hashes := rest.takeWhile (· = '#')
    match rest.drop hashes.length with
    | '"' :: inside => some (hashes.length + 1 + rawLength hashes inside)
    | _ => none
  else none

/-! ## Comments -/

inductive Comment
  | plain
  | documents (content : List Char)
  /-- Documents what it stands in. -/
  | documentsAround (content : List Char)
deriving DecidableEq, Repr

/-- What a comment says that runs to the end of its line; the text starts after the two slashes. -/
def Comment.ofLine (text : List Char) : Comment :=
  let line := if text.getLast? = some '\r' then text.dropLast else text
  match line with
  | '/' :: '/' :: _ => .plain
  | '/' :: content => .documents content
  | '!' :: content => .documentsAround content
  | _ => .plain

/-- What a comment in brackets says. -/
def Comment.ofBlock : List Char → Comment
  | ['*'] => .plain
  | '*' :: '*' :: _ => .plain
  | '*' :: content => .documents content
  | '!' :: content => .documentsAround content
  | _ => .plain

/-- The attribute that holds a documentation. -/
def documentation (content : List Char) : List Token :=
  [mark '[', word "doc".toList, mark '=', literal (Text.quote (String.ofList content)).toList,
    mark ']']

def Comment.tokens : Comment → List Token
  | plain => []
  | documents content => mark '#' :: documentation content
  | documentsAround content => mark '#' :: mark '!' :: documentation content

/-! ## Scanning -/

/-- What stands at the head of a text: its tokens, and the number of characters that they take
after the first. -/
abbrev Head := List Token × Nat

def wordHead (c : Char) (rest : List Char) : Head :=
  let more := rest.takeWhile inWord
  match rawLength? (c :: more) (rest.drop more.length) with
  | some n => ([literal (c :: rest.take (more.length + n))], more.length + n)
  | none => ([word (c :: more)], more.length)

def stringHead (rest : List Char) : Head :=
  let n := quotedLength '"' rest
  ([literal ('"' :: rest.take n)], n)

/-- After a single quote: a character if there is another quote right after it, or a lifetime. -/
def quoteHead (rest : List Char) : Head :=
  match rest with
  | '\\' :: _ :: more =>
    let n := 2 + quotedLength '\'' more
    ([literal ('\'' :: rest.take n)], n)
  | c :: '\'' :: _ => ([literal ['\'', c, '\'']], 2)
  | _ =>
    let name := rest.takeWhile inWord
    if name.isEmpty then ([mark '\''], 0) else ([lifetime ('\'' :: name)], name.length)

def slashHead (rest : List Char) : Head :=
  match rest with
  | '/' :: more =>
    let line := more.takeWhile (· != '\n')
    ((Comment.ofLine line).tokens, 1 + line.length)
  | '*' :: more =>
    let n := commentLength 0 more
    ((Comment.ofBlock (more.take (n - 2))).tokens, 1 + n)
  | _ => ([mark '/'], 0)

def head (c : Char) (rest : List Char) : Head :=
  if isSpace c then ([], 0)
  else if inWord c then wordHead c rest
  else if c = '"' then stringHead rest
  else if c = '\'' then quoteHead rest
  else if c = '/' then slashHead rest
  else ([mark c], 0)

/-- Scans on after `skip` characters that belong to a token already. -/
def scanFrom : (skip : Nat) → List Char → List Token
  | _, [] => []
  | skip + 1, _ :: rest => scanFrom skip rest
  | 0, c :: rest => (head c rest).1 ++ scanFrom (head c rest).2 rest

def scan (text : List Char) : List Token := scanFrom 0 text

theorem scanFrom_eq (skip : Nat) (text : List Char) :
    scanFrom skip text = scan (text.drop skip) := by
  induction text generalizing skip with
  | nil => simp [scan, scanFrom]
  | cons c rest ih =>
    cases skip with
    | zero => rfl
    | succ skip => simpa [scanFrom] using ih skip

/-- A text is its first token and what is left after that. -/
theorem scan_cons (c : Char) (rest : List Char) :
    scan (c :: rest) = (head c rest).1 ++ scan (rest.drop (head c rest).2) := by
  rw [← scanFrom_eq]
  rfl

end Token

end ScriptHost.ErrorDerive

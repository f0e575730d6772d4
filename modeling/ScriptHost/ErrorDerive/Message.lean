/-!
# ScriptHost.ErrorDerive.Message

Message templates. An opening brace starts a placeholder, whose name runs to the next closing
brace or colon or to the end of the message, and is taken as it stands; two opening braces stand
for one that is text. What follows a name, such as a format after a colon, is text again, in which
a brace may start another placeholder. Every message is what its pieces print (`print_scan`).
-/

namespace ScriptHost.ErrorDerive

inductive Piece
  | text (c : Char)
  | escape
  | placeholder (name : List Char)
deriving DecidableEq, Repr

namespace Piece

def print : Piece → List Char
  | text c => [c]
  | escape => ['\x7b', '\x7b']
  | placeholder name => '\x7b' :: name

/-- Whether a character can stand in the name of a placeholder. -/
def inName (c : Char) : Bool := c != '\x7d' && c != ':'

end Piece

namespace Message

def printAll (pieces : List Piece) : List Char := pieces.flatMap Piece.print

theorem length_dropWhile_le {α : Type} (p : α → Bool) (xs : List α) :
    (xs.dropWhile p).length ≤ xs.length := by
  induction xs with
  | nil => simp
  | cons x rest ih =>
    simp only [List.dropWhile_cons]
    split
    · exact Nat.le_succ_of_le ih
    · exact Nat.le_refl _

def scan : List Char → List Piece
  | [] => []
  | '\x7b' :: '\x7b' :: rest => .escape :: scan rest
  | '\x7b' :: rest =>
    .placeholder (rest.takeWhile Piece.inName) :: scan (rest.dropWhile Piece.inName)
  | c :: rest => .text c :: scan rest
termination_by message => message.length
decreasing_by
  · simp only [List.length_cons]
    omega
  · exact Nat.lt_succ_of_le (length_dropWhile_le _ _)
  · exact Nat.lt_succ_self _

theorem print_scan (message : List Char) : printAll (scan message) = message := by
  fun_induction scan message with
  | case1 => rfl
  | case2 rest ih =>
    simp only [printAll, List.flatMap_cons, Piece.print] at ih ⊢
    rw [ih]
    rfl
  | case3 rest _ ih =>
    simp only [printAll, List.flatMap_cons, Piece.print] at ih ⊢
    rw [ih, List.cons_append, List.takeWhile_append_dropWhile]
  | case4 c rest _ _ ih =>
    simp only [printAll, List.flatMap_cons, Piece.print] at ih ⊢
    rw [ih, List.singleton_append]

/-- The names of the placeholders, in order. -/
def names (pieces : List Piece) : List (List Char) :=
  pieces.filterMap fun
    | .placeholder name => some name
    | .text _ | .escape => none

/-- Gives the placeholders new names. -/
def rename (f : List Char → List Char) (pieces : List Piece) : List Piece :=
  pieces.map fun
    | .placeholder name => .placeholder (f name)
    | .text c => .text c
    | .escape => .escape

end Message

end ScriptHost.ErrorDerive

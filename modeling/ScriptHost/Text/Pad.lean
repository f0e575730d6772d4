/-!
# ScriptHost.Text.Pad

Filling a text up to a width, and cutting it down to one. Widths count characters; a text that
is already wide enough is left alone.
-/

namespace ScriptHost.Text

def fill (c : Char) (n : Nat) : String := String.ofList (List.replicate n c)

def padRight (width : Nat) (s : String) : String := s ++ fill ' ' (width - s.length)

def padLeft (width : Nat) (s : String) : String := fill ' ' (width - s.length) ++ s

/-- Fills on both sides; of an odd number of places the extra one goes behind. -/
def center (c : Char) (width : Nat) (s : String) : String :=
  let room := width - s.length
  fill c (room / 2) ++ s ++ fill c (room - room / 2)

def cut (width : Nat) (s : String) : String := String.ofList (s.toList.take width)

end ScriptHost.Text

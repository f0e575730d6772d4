import ScriptHost.Bytes

/-!
# ScriptHost.Item.Integer

The byte form of integers: two's complement, least significant byte first, in as few bytes as
hold the number and its sign, and no byte at all for zero. Reading takes padded forms too. The
bytes of a negative number `n` are the complements of the bytes of `-n - 1`, so that the highest
bit of the last byte is the sign.
-/

namespace ScriptHost.Integer

/-- `n` itself, or `-n - 1` for a negative `n`. -/
def magnitude (n : Int) : Nat := if n < 0 then (-n - 1).toNat else n.toNat

/-- How many bytes hold `n` and its sign. -/
def width (n : Int) : Nat := ((magnitude n).log2 + 1) / 8 + 1

def complement (b : Bytes) : Bytes := b.map (~~~ ·)

def toBytes (n : Int) : Bytes :=
  if n = 0 then []
  else if n < 0 then complement (Bytes.spell (width n) (magnitude n))
  else Bytes.spell (width n) (magnitude n)

/-- The two's-complement value of any byte string. -/
def ofBytes (b : Bytes) : Int :=
  match b.getLast? with
  | none => 0
  | some last =>
    if last < 128 then Bytes.value b.length b
    else -(Bytes.value b.length (complement b) : Int) - 1

end ScriptHost.Integer

import ScriptHost.Text.Unprintable

/-!
# ScriptHost.Text.Quoted

A text between double quotes, or a character between single ones, on one line. The quote, the
backslash and the common controls have an escape of two characters; any other character without a
picture of its own is written as its code point in hexadecimal.
-/

namespace ScriptHost.Text

def hexDigits (n : Nat) : String := String.ofList (Nat.toDigits 16 n)

/-- A character as it is written between quotes of the given kind. -/
def escapeChar (mark c : Char) : String :=
  if c = '\x00' then "\\0"
  else if c = '\t' then "\\t"
  else if c = '\n' then "\\n"
  else if c = '\r' then "\\r"
  else if c = mark ∨ c = '\\' then "\\" ++ String.singleton c
  else if isUnprintable c then "\\u\x7b" ++ hexDigits c.toNat ++ "\x7d"
  else String.singleton c

def quote (s : String) : String := "\"" ++ String.join (s.toList.map (escapeChar '"')) ++ "\""

def quoteChar (c : Char) : String := "'" ++ escapeChar '\'' c ++ "'"

end ScriptHost.Text

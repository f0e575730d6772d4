import ScriptHost.Heap
import ScriptHost.Text.Hex

/-!
# ScriptHost.Codec.Error

What can go wrong when an item is written or read, and the wording of each fault. An error that
stems from another one lists that one among its causes.
-/

namespace ScriptHost

inductive EncodeError
  | unsupportedValue (kind : String)
  | circularReference
  | itemTooLarge (limit : UInt64)
  | heap (e : HeapError)
deriving DecidableEq, Repr

/-- A byte string that is no encoding. -/
inductive FormatError
  | unexpectedEnd (offset : Nat)
  | invalidTag (tag : UInt8) (offset : Nat)
  | nonCanonicalVarInt (offset : Nat)
  | trailingBytes (remaining : Nat)
  | invalidMapKey (kind : String)
deriving DecidableEq, Repr

inductive DecodeError
  | format (e : FormatError)
  | limitExceeded (what : String) (limit actual : UInt64)
  | heap (e : HeapError)
deriving DecidableEq, Repr

def EncodeError.message : EncodeError → String
  | .unsupportedValue kind => kind ++ " items cannot be serialized"
  | .circularReference => "container contains itself"
  | .itemTooLarge limit => "serialized item exceeds " ++ toString limit ++ " bytes"
  | .heap e => "heap error: " ++ e.message

def EncodeError.causes : EncodeError → List String
  | .heap e => e.message :: e.causes
  | .unsupportedValue _ | .circularReference | .itemTooLarge _ => []

def FormatError.message : FormatError → String
  | .unexpectedEnd offset => "unexpected end of input at offset " ++ toString offset
  | .invalidTag tag offset =>
    "invalid type tag 0x" ++ Text.Hex.encode [tag] ++ " at offset " ++ toString offset
  | .nonCanonicalVarInt offset => "non-canonical var-int at offset " ++ toString offset
  | .trailingBytes remaining => toString remaining ++ " trailing bytes after item"
  | .invalidMapKey kind => kind ++ " cannot be used as a map key"

def FormatError.causes : FormatError → List String
  | _ => []

def DecodeError.message : DecodeError → String
  | .format e => "malformed item: " ++ e.message
  | .limitExceeded what limit actual =>
    what ++ " of " ++ toString actual ++ " exceeds limit " ++ toString limit
  | .heap e => "heap error: " ++ e.message

def DecodeError.causes : DecodeError → List String
  | .format e => e.message :: e.causes
  | .limitExceeded .. => []
  | .heap e => e.message :: e.causes

end ScriptHost

import ScriptHost.ScriptHash

/-!
# ScriptHost.Address

Addresses are texts that designate script hashes. What an address looks like is the host's
choice, so a codec is any function from texts to hashes; the one given here reads the form in
which hashes are shown, with or without the leading `0x`.
-/

namespace ScriptHost

inductive AddressError
  | invalidHex (address : String)
  | invalidLength (expected actual : Nat)
deriving DecidableEq, Repr

def AddressError.message : AddressError → String
  | .invalidHex address => "address " ++ address ++ " is not valid hex"
  | .invalidLength expected actual =>
    "address decodes to " ++ toString actual ++ " bytes, expected " ++ toString expected

def AddressError.causes : AddressError → List String
  | _ => []

abbrev AddressCodec := String → Except AddressError ScriptHash

namespace Address

/-- The text after one leading `0x`, if it has one. -/
def stripMark (text : String) : String :=
  match text.toList with
  | '0' :: 'x' :: rest => String.ofList rest
  | _ => text

/-- Hexadecimal in the order of display, the mark `0x` in front being optional. -/
def hexCodec : AddressCodec := fun address =>
  match Text.Hex.decode (stripMark address) with
  | .error _ => .error (.invalidHex address)
  | .ok raw =>
    match ScriptHash.ofBytes? raw.reverse with
    | none => .error (.invalidLength ScriptHash.size raw.length)
    | some hash => .ok hash

end Address

end ScriptHost

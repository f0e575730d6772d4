import ScriptHost.Address
import ScriptHost.Log
import ScriptHost.Table

/-!
# ScriptHost.ScriptRegistry

Scripts by hash. A registry keeps each script under a key, the hexadecimal text of its hash in
the order of display, and lists them in the order of the keys. A hash is given directly or by an
address, and keeps the first script that is registered for it.
-/

namespace ScriptHost

inductive ScriptRegistryError
  | duplicateScript (key : String)
  | missingScript (key : String)
  | invalidAddress (e : AddressError)
deriving DecidableEq, Repr

def ScriptRegistryError.message : ScriptRegistryError → String
  | .duplicateScript key => "script " ++ key ++ " is already registered"
  | .missingScript key => "script " ++ key ++ " not found"
  | .invalidAddress e => "invalid address: " ++ e.message

def ScriptRegistryError.causes : ScriptRegistryError → List String
  | .invalidAddress e => e.message :: e.causes
  | .duplicateScript _ | .missingScript _ => []

/-- Finds a script by the bytes of its hash in wire order. -/
abbrev ScriptTable := Bytes → Option Bytes

inductive ScriptLocator
  | address (text : String)
  | hash (h : ScriptHash)
deriving DecidableEq

structure ScriptRegistry where
  codec : AddressCodec := Address.hexCodec
  scripts : Table Bytes := .empty

namespace ScriptRegistry

def key (hash : Bytes) : String := Text.Hex.encode hash.reverse

theorem key_inj {a b : Bytes} (h : key a = key b) : a = b :=
  List.reverse_inj.mp (Text.Hex.encode_inj h)

theorem key_lt_iff (a b : ScriptHash) :
    key a.bytes < key b.bytes ↔ Bytes.order a.reversed b.reversed = .lt :=
  Text.Hex.encode_lt_iff a.reversed b.reversed

/-- The hash that a locator stands for. -/
def locate (r : ScriptRegistry) : ScriptLocator → Except AddressError ScriptHash
  | .address text => r.codec text
  | .hash h => .ok h

/-- Registers a script and answers with its hash. -/
def add (r : ScriptRegistry) (locator : ScriptLocator) (script : Bytes) :
    Except ScriptRegistryError ScriptHash × ScriptRegistry × List Log.Record :=
  match r.locate locator with
  | .error e => (.error (.invalidAddress e), r, [])
  | .ok hash =>
    if r.scripts.contains (key hash.bytes) then (.error (.duplicateScript (key hash.bytes)), r, [])
    else
      (.ok hash, { r with scripts := r.scripts.insert (key hash.bytes) script },
        [⟨.debug, "registered script " ++ hash.shown⟩])

def get (r : ScriptRegistry) (hash : Bytes) : Except ScriptRegistryError Bytes :=
  match r.scripts.get? (key hash) with
  | none => .error (.missingScript (key hash))
  | some script => .ok script

def contains (r : ScriptRegistry) (hash : Bytes) : Bool := r.scripts.contains (key hash)

def size (r : ScriptRegistry) : Nat := r.scripts.size

/-- The keys and scripts in ascending order of the keys. -/
def toList (r : ScriptRegistry) : List (String × Bytes) := r.scripts.entries

/-- The registry as the engine sees it. -/
def table (r : ScriptRegistry) : ScriptTable := fun hash => (r.get hash).toOption

end ScriptRegistry

end ScriptHost

import ScriptHost.Item.Integer

/-!
# ScriptHost.Item

The values that scripts and syscalls exchange. Byte strings, booleans and integers are stored in
the item itself. Arrays, structs and maps are handles into a heap: two items with one handle are
the same container, and equality of items compares handles, not contents. Arrays and structs
share one space of handles, maps have their own.
-/

namespace ScriptHost

/-- Handle of the element list of an array or struct. -/
structure ArrayRef where
  index : UInt32
deriving DecidableEq, Hashable, Repr

/-- Handle of a map. -/
structure MapRef where
  index : UInt32
deriving DecidableEq, Hashable, Repr

/-- Reference to an object that the host owns. -/
structure HostRef where
  number : UInt64
deriving DecidableEq, Repr

inductive Item
  | bytes (b : Bytes)
  | boolean (v : Bool)
  | integer (n : Int)
  | array (h : ArrayRef)
  | struct (h : ArrayRef)
  | map (h : MapRef)
  | host (r : HostRef)
deriving DecidableEq, Repr

/-- The items that can be keys of a map. -/
inductive Key
  | bytes (b : Bytes)
  | boolean (v : Bool)
  | integer (n : Int)
deriving DecidableEq, Repr

namespace Item

/-- The word for this kind of item in messages. -/
def kindName : Item → String
  | bytes _ => "ByteArray"
  | boolean _ => "Boolean"
  | integer _ => "Integer"
  | array _ => "Array"
  | struct _ => "Struct"
  | map _ => "Map"
  | host _ => "Interop"

def isContainer : Item → Bool
  | array _ | struct _ | map _ => true
  | bytes _ | boolean _ | integer _ | host _ => false

/-- The bytes that stand for a primitive item; true is one byte, false none. -/
def byteForm? : Item → Option Bytes
  | bytes b => some b
  | boolean v => some (if v then [1] else [])
  | integer n => some (Integer.toBytes n)
  | array _ | struct _ | map _ | host _ => none

def key? : Item → Option Key
  | bytes b => some (.bytes b)
  | boolean v => some (.boolean v)
  | integer n => some (.integer n)
  | array _ | struct _ | map _ | host _ => none

end Item

def Key.item : Key → Item
  | .bytes b => .bytes b
  | .boolean v => .boolean v
  | .integer n => .integer n

@[simp] theorem Key.key?_item (k : Key) : k.item.key? = some k := by
  cases k <;> rfl

theorem Item.key?_eq_some_iff {x : Item} {k : Key} : x.key? = some k ↔ x = k.item := by
  constructor
  · intro h
    cases x <;> simp [key?] at h <;> subst h <;> rfl
  · intro h
    rw [h, Key.key?_item]

end ScriptHost

import ScriptHost.Codec.Tag
import ScriptHost.Codec.VarInt
import ScriptHost.Limits
import ScriptHost.Word

/-!
# ScriptHost.Codec.Layout

The nodes of an encoded item as one flat list: a node stands before the nodes inside it, and a
container only says how many there are. Reading the list needs no stack, only a count of the
nodes still to come, whatever the nesting. Since each of those takes a byte at least, input
with fewer bytes left than nodes to come is cut short as soon as that shows. Each step reads a
byte or more (`unread_of_step`), so reading always ends.
-/

namespace ScriptHost

inductive ContainerKind
  | array
  | struct
  | map
deriving DecidableEq, Repr

/-- A node without the nodes inside it. The count of a map is that of its entries. -/
inductive Node
  | leaf (k : Key)
  | container (kind : ContainerKind) (count : UInt64)
deriving DecidableEq, Repr

namespace Node

/-- How many nodes stand directly inside this one, as far as a word can say. -/
def inside : Node → UInt64
  | leaf _ => 0
  | container .array count => count
  | container .struct count => count
  | container .map count => addSaturating count count

/-- The items that the node takes from those already made. -/
def arity : Node → UInt64
  | leaf _ => 0
  | container .array count => count
  | container .struct count => count
  | container .map count => count * 2

def read (limits : Limits) (c : Cursor) : Except DecodeError (Node × Cursor) :=
  match c.byte with
  | .error e => .error (.format e)
  | .ok (tag, c₁) =>
    match Tag.ofByte? tag with
    | some .bytes =>
      match VarBytes.read limits.itemSize c₁ with
      | .error e => .error e
      | .ok (b, c₂) => .ok (leaf (.bytes b), c₂)
    | some .boolean =>
      match c₁.byte with
      | .error e => .error (.format e)
      | .ok (b, c₂) => .ok (leaf (.boolean (b != 0)), c₂)
    | some .integer =>
      match VarBytes.read limits.itemSize c₁ with
      | .error e => .error e
      | .ok (b, c₂) => .ok (leaf (.integer (Integer.ofBytes b)), c₂)
    | some .array =>
      match VarInt.read limits.arraySize "array length" c₁ with
      | .error e => .error e
      | .ok (n, c₂) => .ok (container .array n, c₂)
    | some .struct =>
      match VarInt.read limits.arraySize "array length" c₁ with
      | .error e => .error e
      | .ok (n, c₂) => .ok (container .struct n, c₂)
    | some .map =>
      match VarInt.read limits.arraySize "map size" c₁ with
      | .error e => .error e
      | .ok (n, c₂) => .ok (container .map n, c₂)
    | some .host => .error (.format (.invalidTag tag c.offset))
    | none => .error (.format (.invalidTag tag c.offset))

theorem unread_of_read {limits : Limits} {c c' : Cursor} {node : Node}
    (h : read limits c = .ok (node, c')) : c'.unread < c.unread := by
  unfold read at h
  split at h
  · cases h
  · rename_i tag c₁ htag
    have h₁ := Cursor.unread_of_byte htag
    split at h
    · split at h
      · cases h
      · rename_i b c₂ hb
        cases h
        have h₂ := VarBytes.unread_of_read hb
        omega
    · split at h
      · cases h
      · rename_i b c₂ hb
        cases h
        have h₂ := Cursor.unread_of_byte hb
        omega
    · split at h
      · cases h
      · rename_i b c₂ hb
        cases h
        have h₂ := VarBytes.unread_of_read hb
        omega
    · split at h
      · cases h
      · rename_i n c₂ hn
        cases h
        have h₂ := VarInt.unread_of_read hn
        omega
    · split at h
      · cases h
      · rename_i n c₂ hn
        cases h
        have h₂ := VarInt.unread_of_read hn
        omega
    · split at h
      · cases h
      · rename_i n c₂ hn
        cases h
        have h₂ := VarInt.unread_of_read hn
        omega
    · cases h
    · cases h

end Node

/-- Where reading stands: what is left, how many nodes are to come, and those read, last
first. -/
structure LayoutReader where
  cursor : Cursor
  pending : UInt64 := 1
  nodes : List Node := []

namespace LayoutReader

/-- Reads one of the nodes to come and adds those inside it to the count. -/
def step (limits : Limits) (r : LayoutReader) : Except DecodeError LayoutReader :=
  match Node.read limits r.cursor with
  | .error e => .error e
  | .ok (node, c) =>
    let pending := addSaturating (r.pending - 1) node.inside
    if c.unread < pending.toNat then .error (.format (.unexpectedEnd c.total))
    else .ok { cursor := c, pending := pending, nodes := node :: r.nodes }

theorem unread_of_step {limits : Limits} {r r' : LayoutReader} (h : r.step limits = .ok r') :
    r'.cursor.unread < r.cursor.unread := by
  unfold step at h
  split at h
  · cases h
  · rename_i node c hread
    simp only at h
    split at h
    · cases h
    · cases h
      exact Node.unread_of_read hread

def run (limits : Limits) (r : LayoutReader) : Except DecodeError LayoutReader :=
  if r.pending = 0 then .ok r
  else
    match h : r.step limits with
    | .error e => .error e
    | .ok r' =>
      have := unread_of_step h
      run limits r'
termination_by r.cursor.unread

end LayoutReader

/-- The nodes of the one item that `data` holds, in the order in which they are written. -/
def layout (data : Bytes) (limits : Limits) : Except DecodeError (List Node) :=
  match LayoutReader.run limits { cursor := .ofBytes data } with
  | .error e => .error e
  | .ok r =>
    if r.cursor.unread = 0 then .ok r.nodes.reverse
    else .error (.format (.trailingBytes r.cursor.unread))

end ScriptHost

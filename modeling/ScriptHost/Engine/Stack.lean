import ScriptHost.Engine.Error
import ScriptHost.Item

/-!
# ScriptHost.Engine.Stack

The operand stack that scripts and syscalls share.
-/

namespace ScriptHost

/-- The items, the top one first. -/
structure Stack where
  items : List Item := []
deriving DecidableEq

namespace Stack

def empty : Stack := {}

def push (s : Stack) (x : Item) : Stack := ⟨x :: s.items⟩

def pop (s : Stack) : Except EngineError Item × Stack :=
  match s.items with
  | [] => (.error .stackUnderflow, s)
  | x :: rest => (.ok x, ⟨rest⟩)

/-- The item that lies `depth` places below the top. -/
def peek? (s : Stack) (depth : Nat) : Option Item := s.items[depth]?

def size (s : Stack) : Nat := s.items.length

def isEmpty (s : Stack) : Bool := s.items.isEmpty

/-- The items from the bottom to the top. -/
def toList (s : Stack) : List Item := s.items.reverse

end Stack

end ScriptHost

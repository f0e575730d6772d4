import ScriptHost.ErrorDerive.Item
import ScriptHost.ErrorDerive.Literal
import ScriptHost.ErrorDerive.Outline

/-!
# ScriptHost.ErrorDerive.Attribute

Attributes, and the message that is written as one. Of the attributes on an item or a variant the
first that is named `error` counts, whatever it says.
-/

namespace ScriptHost.ErrorDerive

/-- Whether an attribute is a name alone, or one with arguments or a value. -/
def isAttribute (name : String) (parts : List Outline) : Bool :=
  match parts with
  | [.leaf (.word word)] => word = name.toList
  | .leaf (.word word) :: .group _ _ :: _ => word = name.toList
  | .leaf (.word word) :: x :: _ => word = name.toList && x.isMark '='
  | _ => false

/-- The string that is the only argument of an attribute. -/
def stringArgument? (parts : List Outline) : Option String :=
  match parts with
  | [.leaf (.word _), .group _ [.leaf (.literal literal)]] => Literal.value? literal
  | _ => none

def isMessage (text : String) : Bool := isAttribute "error" (Outline.ofText text)

def MessageAttribute.ofAttributes (attributes : List String) : MessageAttribute :=
  match attributes.find? isMessage with
  | none => .missing
  | some a =>
    match stringArgument? (Outline.ofText a) with
    | none => .malformed
    | some message => .text message

end ScriptHost.ErrorDerive

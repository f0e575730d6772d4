import ScriptHost.ErrorDerive.Item
import ScriptHost.ErrorDerive.Outline

/-!
# ScriptHost.ErrorDerive.Generics

The generic parameters of an item and the predicates on them, as its implementations repeat them:
lifetimes first, without defaults where they are declared, and by their names alone where the type
is applied to them.
-/

namespace ScriptHost.ErrorDerive

namespace Outline.Argument

/-- A parameter without its default. -/
def declaration (param : Argument) : List Outline :=
  let (attributes, body) := splitAttributes param.parts
  attributes ++ dropEmptyBounds (body.takeWhile fun x => !x.isMark '=')

/-- The name of a parameter: what stands before its bounds, without the word `const`. -/
def name (param : Argument) : List Outline :=
  let body := (splitAttributes param.parts).2
  match body.takeWhile fun x => !x.isMark ':' && !x.isMark '=' with
  | leaf (.word word) :: rest => if word = "const".toList then rest else leaf (.word word) :: rest
  | parts => parts

end Outline.Argument

/-- Texts that are written with commas between them. -/
def argumentsOfTexts (texts : List String) : List Outline.Argument :=
  Outline.arguments (Outline.ofText (",".intercalate texts))

namespace Item

def orderedParams (item : Item) : List Outline.Argument :=
  Outline.lifetimesFirst (argumentsOfTexts item.params)

/-- The declared parameters, without defaults. -/
def generics (item : Item) : String :=
  ",".intercalate (item.orderedParams.map fun p => Outline.print p.declaration)

/-- The type that is implemented: the name with the names of its parameters. -/
def selfType (item : Item) : String :=
  let name := Outline.print (Outline.ofText item.name)
  match item.orderedParams with
  | [] => name
  | params =>
    let names := params.map fun p => { p with parts := p.name }
    name ++ "<" ++ Outline.print (Outline.join names) ++ ">"

def whereClause (item : Item) : List String :=
  (argumentsOfTexts item.predicates).map fun p => Outline.print p.parts

end Item

end ScriptHost.ErrorDerive

/-!
# ScriptHost.ErrorDerive.Item

Descriptions of the types for which an error implementation is derived: a struct or an enum with
its generic parameters, its fields and the attributes on them. Names, types, parameters, predicates
and attributes are source text.
-/

namespace ScriptHost.ErrorDerive

/-- What the first `error` attribute of an item or a variant says. -/
inductive MessageAttribute
  | missing
  /-- There is one, but it is not a single string. -/
  | malformed
  | text (message : String)
deriving DecidableEq, Repr

structure Field where
  /-- A field without a name is known by its place. -/
  name : Option String
  type : String
  attributes : List String := []
deriving DecidableEq, Repr

structure Variant where
  name : String
  message : MessageAttribute
  fields : List Field
deriving DecidableEq, Repr

inductive Body
  | enum (variants : List Variant)
  | struct (message : MessageAttribute) (fields : List Field)
  | union
deriving DecidableEq, Repr

structure Item where
  name : String
  params : List String := []
  predicates : List String := []
  body : Body
deriving DecidableEq, Repr

end ScriptHost.ErrorDerive

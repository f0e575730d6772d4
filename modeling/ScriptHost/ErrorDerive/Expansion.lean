import ScriptHost.ErrorDerive.Attribute
import ScriptHost.ErrorDerive.Generics
import ScriptHost.ErrorDerive.Message

/-!
# ScriptHost.ErrorDerive.Expansion

The implementations that are derived for an error type: one that shows it by its messages, one
that names its source, and a conversion for each variant made from its source. A message mentions
a field by its name or its place; the field is then bound to a local name, and the placeholder is
renamed to that. Fields that no placeholder mentions are not bound. The first problem in the order
of the text refuses the whole item.
-/

namespace ScriptHost.ErrorDerive

inductive CompileError
  | missingMessage
  | malformedMessage
  | fromNeedsOneField
  | unionUnsupported
deriving DecidableEq, Repr

def CompileError.message : CompileError → String
  | .missingMessage =>
    "missing #[error(\"...\")] attribute; every error variant needs a display message"
  | .malformedMessage =>
    "expected a string literal, e.g. #[error(\"invalid tag: \x7b0\x7d\")]"
  | .fromNeedsOneField => "#[from] requires the variant to have exactly one field"
  | .unionUnsupported => "Error derive does not support unions"

/-! ## Fields -/

/-- A field as the derived code sees it. -/
structure Slot where
  /-- How the type knows the field: by its name or by its place. -/
  member : String
  /-- The local name that the field is bound to. -/
  binding : String
  type : String
  isFrom : Bool
  isSource : Bool
deriving DecidableEq, Repr

def hasAttribute (field : Field) (name : String) : Bool :=
  field.attributes.any fun a => isAttribute name (Outline.ofText a)

/-- A field that is to be converted from is a source as well. -/
def Slot.ofField (place : Nat) (field : Field) : Slot :=
  let isFrom := hasAttribute field "from"
  { member := field.name.getD (toString place)
    binding := field.name.getD ("field" ++ toString place)
    type := Outline.print (Outline.ofText field.type)
    isFrom := isFrom
    isSource := isFrom || hasAttribute field "source" }

def slots (fields : List Field) : List Slot :=
  fields.mapIdx Slot.ofField

/-! ## Messages -/

/-- The local name for a placeholder; one that is no field's keeps its name. -/
def renamed (slots : List Slot) (name : List Char) : List Char :=
  match slots.find? fun s => s.member.toList = name with
  | none => name
  | some s => s.binding.toList

/-- The fields less those that share the name of one before them. -/
def firsts : List Slot → List Slot
  | [] => []
  | s :: rest => s :: (firsts rest).filter fun t => t.member ≠ s.member

/-- A message with its placeholders renamed, and the fields that it mentions; of fields with one
name it mentions the first. -/
structure Template where
  format : String
  mentioned : List Slot
deriving DecidableEq, Repr

def Template.ofMessage (message : String) (slots : List Slot) : Template :=
  let pieces := Message.scan message.toList
  { format := String.ofList (Message.printAll (Message.rename (renamed slots) pieces))
    mentioned := (firsts slots).filter fun s => (Message.names pieces).contains s.member.toList }

/-! ## Implementations -/

/-- The local name of the formatter that every arm writes to. -/
def formatter : String := "f"

/-- How one variant, or a struct, is shown. -/
structure Arm where
  variant : Option String
  template : Template
deriving DecidableEq, Repr

/-- The local names that an arm binds fields to; each is an argument of the format as well. -/
def Arm.locals (arm : Arm) : List String := arm.template.mentioned.map (·.binding)

/-- A field with the name it is bound to; one that is bound to its own name is written short. -/
def Slot.isShort (s : Slot) : Bool := s.member = s.binding

inductive Implementation
  | display (arms : List Arm)
  /-- The field that is the source of each variant that has one. -/
  | error (sources : List (Option String × String))
  | conversion (type variant member : String)
deriving DecidableEq, Repr

def messageOf : MessageAttribute → Except CompileError String
  | .missing => .error .missingMessage
  | .malformed => .error .malformedMessage
  | .text message => .ok message

def sourceOf (variant : Option String) (slots : List Slot) : List (Option String × String) :=
  match slots.find? (·.isSource) with
  | none => []
  | some s => [(variant, s.member)]

/-- The conversion into a variant, which must have no other field. -/
def conversionOf (variant : String) (slots : List Slot) :
    Except CompileError (List Implementation) :=
  match slots.find? (·.isFrom) with
  | none => .ok []
  | some s =>
    if slots.length = 1 then .ok [.conversion s.type variant s.member]
    else .error .fromNeedsOneField

structure VariantCode where
  arm : Arm
  source : List (Option String × String)
  conversion : List Implementation
deriving DecidableEq, Repr

def VariantCode.ofVariant (v : Variant) : Except CompileError VariantCode :=
  match messageOf v.message with
  | .error e => .error e
  | .ok message =>
    match conversionOf v.name (slots v.fields) with
    | .error e => .error e
    | .ok conversion =>
      .ok {
        arm := ⟨some v.name, .ofMessage message (slots v.fields)⟩
        source := sourceOf (some v.name) (slots v.fields)
        conversion := conversion }

def variantCodes : List Variant → Except CompileError (List VariantCode)
  | [] => .ok []
  | v :: rest =>
    match VariantCode.ofVariant v with
    | .error e => .error e
    | .ok code =>
      match variantCodes rest with
      | .error e => .error e
      | .ok codes => .ok (code :: codes)

def expand (item : Item) : Except CompileError (List Implementation) :=
  match item.body with
  | .enum variants =>
    match variantCodes variants with
    | .error e => .error e
    | .ok codes =>
      .ok (.display (codes.map (·.arm)) :: .error (codes.flatMap (·.source)) ::
        codes.flatMap (·.conversion))
  | .struct attr fields =>
    match messageOf attr with
    | .error e => .error e
    | .ok message =>
      .ok [.display [⟨none, .ofMessage message (slots fields)⟩],
        .error (sourceOf none (slots fields))]
  | .union => .error .unionUnsupported

end ScriptHost.ErrorDerive

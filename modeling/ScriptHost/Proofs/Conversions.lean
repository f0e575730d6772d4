import ScriptHost.Proofs.Derivation

/-!
# ScriptHost.Proofs.Conversions

The conversions that are derived, beside the fields that are marked for one. Each marked field of
an enum has its conversion, into the variant of which it is the only field. A struct has no
conversion, so a field of a struct that is marked has none.
-/

namespace ScriptHost.ErrorDerive

/-! ## Marks -/

/-- The fields of a part that are to be converted from, with the variant that they stand in. -/
def Part.marked (p : Part) : List (Option String × Slot) :=
  ((slots p.fields).filter (·.isFrom)).map (p.variant, ·)

def Item.marked (item : Item) : List (Option String × Slot) := item.parts.flatMap Part.marked

/-- The conversion takes the type of the field, and makes the variant of it. -/
inductive Converts : Option String × Slot → Implementation → Prop
  | mk (variant : String) (s : Slot) :
      Converts (some variant, s) (.conversion s.type variant s.member)

def Implementation.isConversion : Implementation → Bool
  | conversion .. => true
  | display _ | error _ => false

def conversions (implementations : List Implementation) : List Implementation :=
  implementations.filter Implementation.isConversion

theorem conversions_implementationsOf {parts : List Part} {codes : List VariantCode}
    (h : List.Forall₂ Part.Codes parts codes) :
    conversions (implementationsOf codes) = parts.flatMap Part.conversions := by
  have hall : (parts.flatMap Part.conversions).filter Implementation.isConversion =
      parts.flatMap Part.conversions := by
    rw [List.filter_eq_self]
    intro c hc
    obtain ⟨p, -, hc⟩ := List.mem_flatMap.mp hc
    obtain ⟨type, variant, member, rfl⟩ := exists_of_mem_conversions hc
    rfl
  rw [← hall, ← flatMap_conversion h]
  rfl

/-! ## Variants -/

theorem Part.converts {p : Part} (h : p.variant.isSome) :
    List.Forall₂ Converts p.marked p.conversions := by
  obtain ⟨variant, hvariant⟩ := Option.isSome_iff_exists.mp h
  simp only [marked, conversions, hvariant, conversionsInto]
  induction (slots p.fields).filter (·.isFrom) with
  | nil => exact .nil
  | cons s rest ih => exact .cons (.mk variant s) ih

theorem converts_parts {parts : List Part} (h : ∀ p ∈ parts, p.variant.isSome) :
    List.Forall₂ Converts (parts.flatMap Part.marked) (parts.flatMap Part.conversions) := by
  induction parts with
  | nil => exact .nil
  | cons p rest ih =>
    rw [List.forall_mem_cons] at h
    rw [List.flatMap_cons, List.flatMap_cons]
    exact List.rel_append (Part.converts h.1) (ih h.2)

/-- A field that a variant is made from stands alone. -/
theorem Part.slots_eq_of_isFrom {p : Part} (hp : ∀ e, ¬p.Problem e) (hvariant : p.variant.isSome)
    {s : Slot} (hs : s ∈ slots p.fields) (hfrom : s.isFrom) : slots p.fields = [s] := by
  have hlength : p.fields.length = 1 := by
    by_contra hlength
    have hmarked := (exists_isFrom_iff p.fields).mp ⟨s, hs, hfrom⟩
    obtain ⟨e, hproblem⟩ := exists_problem_iff.mpr (.inr ⟨hvariant, hmarked, hlength⟩)
    exact hp e hproblem
  rw [← length_slots, List.length_eq_one_iff] at hlength
  obtain ⟨t, ht⟩ := hlength
  rw [ht, List.mem_singleton] at hs
  rw [ht, hs]

/-! ## Structs -/

theorem Part.marked_eq_nil_iff {p : Part} :
    p.marked = [] ↔ ∀ f ∈ p.fields, ¬hasAttribute f "from" := by
  have hmarked := (exists_isFrom_iff p.fields).not
  simp only [not_exists, not_and] at hmarked
  rw [← hmarked, marked, List.map_eq_nil_iff, List.filter_eq_nil_iff]

theorem Item.isSome_variant {item : Item} (h : ∀ message fields, item.body ≠ .struct message fields)
    {p : Part} (hp : p ∈ item.parts) : p.variant.isSome := by
  unfold parts at hp
  split at hp
  · obtain ⟨v, -, rfl⟩ := List.mem_map.mp hp
    rfl
  · rename_i hbody
    exact absurd hbody (h _ _)
  · cases hp

/-- The conversions that are derived for an item are those of its marked fields, one for each and
in their order, unless it is a struct with a marked field: for a struct no conversion is derived.
A field that a variant is made from is the only one there. -/
theorem conversions_match_marks_iff {item : Item} {implementations : List Implementation}
    (h : expand item = .ok implementations) :
    (List.Forall₂ Converts item.marked (conversions implementations) ↔
      ∀ message fields, item.body = .struct message fields →
        ∀ f ∈ fields, ¬hasAttribute f "from") ∧
    (∀ message fields, item.body = .struct message fields → conversions implementations = []) ∧
    ∀ p ∈ item.parts, p.variant.isSome → ∀ s ∈ slots p.fields, s.isFrom → slots p.fields = [s] := by
  obtain ⟨hnones, codes, hcodes, rfl⟩ := exists_codes h
  rw [conversions_implementationsOf hcodes, Item.marked]
  have hstruct (message : MessageAttribute) (fields : List Field)
      (hbody : item.body = .struct message fields) : item.parts.flatMap Part.conversions = [] := by
    rw [Item.parts_of_struct hbody]
    rfl
  refine ⟨⟨?_, ?_⟩, hstruct, ?_⟩
  · intro hforall message fields hbody
    rw [hstruct message fields hbody, List.forall₂_nil_right_iff, Item.parts_of_struct hbody,
      List.flatMap_singleton] at hforall
    exact Part.marked_eq_nil_iff.mp hforall
  · intro hmarks
    by_cases hbody : ∃ message fields, item.body = .struct message fields
    · obtain ⟨message, fields, hbody⟩ := hbody
      rw [hstruct message fields hbody, List.forall₂_nil_right_iff, Item.parts_of_struct hbody,
        List.flatMap_singleton]
      exact Part.marked_eq_nil_iff.mpr (hmarks message fields hbody)
    · refine converts_parts fun p hp => Item.isSome_variant ?_ hp
      intro message fields hstruct
      exact hbody ⟨message, fields, hstruct⟩
  · intro p hp hvariant s
    exact Part.slots_eq_of_isFrom (hnones p hp) hvariant

def loadError : Item where
  name := "LoadError"
  body := .enum [
    ⟨"Missing", .text "script \x7b0\x7d not found", [⟨none, "String", []⟩]⟩,
    ⟨"Format", .text "malformed input: \x7b0\x7d", [⟨none, "FormatError", ["from"]⟩]⟩]

def loadErrorCode : List Implementation :=
  [.display [
      ⟨some "Missing", "script \x7bfield0\x7d not found", [⟨"0", "field0", "String", false, false⟩]⟩,
      ⟨some "Format", "malformed input: \x7bfield0\x7d",
        [⟨"0", "field0", "FormatError", true, true⟩]⟩],
    .error [(some "Format", "0")],
    .conversion "FormatError" "Format" "0"]

theorem conversions_match_marks_loadError :
    expand loadError = .ok loadErrorCode ∧
      List.Forall₂ Converts loadError.marked (conversions loadErrorCode) := by
  have hexpand : expand loadError = .ok loadErrorCode := by decide +kernel
  exact ⟨hexpand, (conversions_match_marks_iff hexpand).1.mpr nofun⟩

def wrapped : Item where
  name := "Wrapped"
  body := .struct (.text "wrapped: \x7b0\x7d") [⟨none, "LowerError", ["from"]⟩]

def wrappedCode : List Implementation :=
  [.display [⟨none, "wrapped: \x7bfield0\x7d", [⟨"0", "field0", "LowerError", true, true⟩]⟩],
    .error [(none, "0")]]

/-- A field of a struct is marked, the struct is accepted, and nothing converts the field. -/
theorem wrapped_not_converted :
    expand wrapped = .ok wrappedCode ∧
      ¬List.Forall₂ Converts wrapped.marked (conversions wrappedCode) := by
  refine ⟨by decide +kernel, ?_⟩
  intro h
  have hmarked : wrapped.marked.length = 1 := by decide +kernel
  have hlength : wrapped.marked.length = (conversions wrappedCode).length := h.length_eq
  rw [hmarked] at hlength
  cases hlength

end ScriptHost.ErrorDerive

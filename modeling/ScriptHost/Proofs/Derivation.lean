import Mathlib.Data.List.Forall2
import Mathlib.Data.List.Nodup
import ScriptHost.ErrorDerive.Expansion

/-!
# ScriptHost.Proofs.Derivation

What is derived for an item, and when it is refused. An enum is shown variant by variant and a
struct as a whole; these are the parts of an item (`Item.parts`). A part has a problem or else code
of its own (`Variant.problem_or_code`), and an item is refused for the problem of its first part
that has one, or has the code of all its parts (`Item.problem_or_codes`).
-/

namespace ScriptHost.ErrorDerive

/-! ## The first that is so -/

section First

variable {α : Type} {P : α → Prop} {xs before : List α} {x y : α}

/-- The first member of a list of which something holds, with those that stand before it. -/
inductive IsFirst (P : α → Prop) : List α → List α → α → Prop
  | head {x : α} {xs : List α} : P x → IsFirst P (x :: xs) [] x
  | tail {y x : α} {xs before : List α} :
      ¬P y → IsFirst P xs before x → IsFirst P (y :: xs) (y :: before) x

theorem IsFirst.mem (h : IsFirst P xs before x) : x ∈ xs := by
  induction h with
  | head _ => exact List.mem_cons_self
  | tail _ _ ih => exact List.mem_cons_of_mem _ ih

theorem IsFirst.holds (h : IsFirst P xs before x) : P x := by
  induction h with
  | head hx => exact hx
  | tail _ _ ih => exact ih

theorem isFirst_cons_iff : IsFirst P (y :: xs) before x ↔
    P y ∧ before = [] ∧ x = y ∨ ¬P y ∧ ∃ before', before = y :: before' ∧ IsFirst P xs before' x := by
  constructor
  · intro h
    cases h with
    | head hx => exact .inl ⟨hx, rfl, rfl⟩
    | tail hy h => exact .inr ⟨hy, _, rfl, h⟩
  · rintro (⟨hy, rfl, rfl⟩ | ⟨hy, before', rfl, h⟩)
    · exact .head hy
    · exact .tail hy h

theorem IsFirst.unique {before' : List α} {x' : α} (h : IsFirst P xs before x)
    (h' : IsFirst P xs before' x') : before = before' ∧ x = x' := by
  induction h generalizing before' with
  | head hx =>
    cases h' with
    | head _ => exact ⟨rfl, rfl⟩
    | tail hx' _ => exact absurd hx hx'
  | tail hy _ ih =>
    cases h' with
    | head hy' => exact absurd hy' hy
    | tail _ h' =>
      obtain ⟨rfl, rfl⟩ := ih h'
      exact ⟨rfl, rfl⟩

theorem find?_eq_some_iff (p : α → Bool) :
    xs.find? p = some x ↔ ∃ before, IsFirst (fun y => p y = true) xs before x := by
  constructor
  · intro h
    induction xs with
    | nil => cases h
    | cons y xs ih =>
      rw [List.find?_cons] at h
      split at h
      · rename_i hy
        cases h
        exact ⟨[], .head hy⟩
      · rename_i hy
        obtain ⟨before, hfirst⟩ := ih h
        exact ⟨y :: before, .tail (Bool.not_eq_true _ ▸ hy) hfirst⟩
  · rintro ⟨before, h⟩
    induction h with
    | head hx => exact List.find?_cons_of_pos hx
    | tail hy _ ih => rw [List.find?_cons_of_neg hy, ih]

end First

/-! ## Attributes -/

/-- The text is an attribute whose only argument is a string. -/
def SingleString (text message : String) : Prop :=
  ∃ name bracket literal,
    Outline.ofText text = [.leaf (.word name), .group bracket [.leaf (.literal literal)]] ∧
      Literal.value? literal = some message

/-- What attributes say of the message; the first of those named `error` decides. -/
inductive MessageAttribute.SaidBy (attributes : List String) : MessageAttribute → Prop
  | missing : (∀ a ∈ attributes, ¬isMessage a) → SaidBy attributes .missing
  | malformed {before : List String} {a : String} :
      IsFirst (fun a => isMessage a = true) attributes before a →
      (∀ message, ¬SingleString a message) → SaidBy attributes .malformed
  | text {before : List String} {a message : String} :
      IsFirst (fun a => isMessage a = true) attributes before a →
      SingleString a message → SaidBy attributes (.text message)

theorem stringArgument?_eq_some_iff {text message : String} :
    stringArgument? (Outline.ofText text) = some message ↔ SingleString text message := by
  unfold SingleString
  generalize Outline.ofText text = parts
  constructor
  · intro h
    unfold stringArgument? at h
    split at h
    · exact ⟨_, _, _, rfl, h⟩
    · cases h
  · rintro ⟨name, bracket, literal, rfl, h⟩
    exact h

theorem MessageAttribute.saidBy_ofAttributes (attributes : List String) :
    (ofAttributes attributes).SaidBy attributes := by
  unfold ofAttributes
  split
  · rename_i hfind
    exact .missing fun a ha => List.find?_eq_none.mp hfind a ha
  · rename_i a hfind
    obtain ⟨before, hfirst⟩ := (find?_eq_some_iff isMessage).mp hfind
    split
    · rename_i hnone
      refine .malformed hfirst ?_
      intro message hmessage
      rw [stringArgument?_eq_some_iff.mpr hmessage] at hnone
      cases hnone
    · rename_i message hsome
      exact .text hfirst (stringArgument?_eq_some_iff.mp hsome)

theorem MessageAttribute.ofAttributes_of_saidBy {attributes : List String} {m : MessageAttribute}
    (h : m.SaidBy attributes) : ofAttributes attributes = m := by
  cases h with
  | missing hall => rw [ofAttributes, List.find?_eq_none.mpr hall]
  | malformed hfirst hstring =>
    have hnone : stringArgument? (Outline.ofText _) = none :=
      Option.eq_none_iff_forall_ne_some.mpr fun message hmessage =>
        hstring message (stringArgument?_eq_some_iff.mp hmessage)
    simp only [ofAttributes, (find?_eq_some_iff isMessage).mpr ⟨_, hfirst⟩, hnone]
  | text hfirst hstring =>
    simp only [ofAttributes, (find?_eq_some_iff isMessage).mpr ⟨_, hfirst⟩,
      stringArgument?_eq_some_iff.mpr hstring]

theorem MessageAttribute.ofAttributes_eq_iff {attributes : List String} {m : MessageAttribute} :
    ofAttributes attributes = m ↔ m.SaidBy attributes := by
  constructor
  · intro h
    exact h ▸ saidBy_ofAttributes attributes
  · exact ofAttributes_of_saidBy

/-! ## Parts -/

/-- What one arm shows: a variant, or a struct as a whole. -/
structure Part where
  variant : Option String
  message : MessageAttribute
  fields : List Field

def Variant.part (v : Variant) : Part := ⟨some v.name, v.message, v.fields⟩

def Item.parts (item : Item) : List Part :=
  match item.body with
  | .enum variants => variants.map Variant.part
  | .struct message fields => [⟨none, message, fields⟩]
  | .union => []

theorem Item.parts_of_enum {item : Item} {variants : List Variant}
    (h : item.body = .enum variants) : item.parts = variants.map Variant.part := by
  rw [parts, h]

theorem Item.parts_of_struct {item : Item} {message : MessageAttribute} {fields : List Field}
    (h : item.body = .struct message fields) : item.parts = [⟨none, message, fields⟩] := by
  rw [parts, h]

/-- What is wrong with a part. Without a message nothing else is looked at, and only a variant is
to be made from a field. -/
inductive Part.Problem (p : Part) : CompileError → Prop
  | missing : p.message = .missing → Problem p .missingMessage
  | malformed : p.message = .malformed → Problem p .malformedMessage
  | crowded {message variant : String} :
      p.message = .text message → p.variant = some variant →
      (∃ f ∈ p.fields, hasAttribute f "from") → p.fields.length ≠ 1 →
      Problem p .fromNeedsOneField

theorem Part.Problem.unique {p : Part} {e e' : CompileError} (h : p.Problem e)
    (h' : p.Problem e') : e = e' := by
  cases h <;> cases h' <;> simp_all

/-- The conversions into a variant: one from each field that is marked for it. -/
def conversionsInto (variant : String) (fields : List Field) : List Implementation :=
  ((slots fields).filter (·.isFrom)).map fun s => .conversion s.type variant s.member

def Part.conversions (p : Part) : List Implementation :=
  match p.variant with
  | none => []
  | some variant => conversionsInto variant p.fields

theorem exists_of_mem_conversions {p : Part} {c : Implementation} (h : c ∈ p.conversions) :
    ∃ type variant member, c = .conversion type variant member := by
  unfold Part.conversions at h
  split at h
  · cases h
  · obtain ⟨s, -, rfl⟩ := List.mem_map.mp h
    exact ⟨_, _, _, rfl⟩

/-- The code of a part. -/
structure Part.Codes (p : Part) (code : VariantCode) : Prop where
  arm : ∃ message, p.message = .text message ∧
    code.arm = ⟨p.variant, .ofMessage message (slots p.fields)⟩
  source : code.source = sourceOf p.variant (slots p.fields)
  conversion : code.conversion = p.conversions

theorem length_slots (fields : List Field) : (slots fields).length = fields.length :=
  List.length_mapIdx

theorem exists_isFrom_iff (fields : List Field) :
    (∃ s ∈ slots fields, s.isFrom) ↔ ∃ f ∈ fields, hasAttribute f "from" := by
  constructor
  · rintro ⟨s, hs, hfrom⟩
    obtain ⟨i, hi, rfl⟩ := List.mem_mapIdx.mp hs
    exact ⟨fields[i], List.getElem_mem hi, hfrom⟩
  · rintro ⟨f, hf, hfrom⟩
    obtain ⟨i, hi, rfl⟩ := List.mem_iff_getElem.mp hf
    exact ⟨_, List.mem_mapIdx.mpr ⟨i, hi, rfl⟩, hfrom⟩

/-- A conversion is refused if the field for it has others beside it. -/
theorem conversionOf_cases (variant : String) (fields : List Field) :
    (((∃ f ∈ fields, hasAttribute f "from") ∧ fields.length ≠ 1) ∧
        conversionOf variant (slots fields) = .error .fromNeedsOneField) ∨
      ((∃ f ∈ fields, hasAttribute f "from") → fields.length = 1) ∧
        conversionOf variant (slots fields) = .ok (conversionsInto variant fields) := by
  rw [← exists_isFrom_iff, ← length_slots fields, conversionOf, conversionsInto]
  cases hfind : (slots fields).find? (·.isFrom) with
  | none =>
    rw [List.find?_eq_none] at hfind
    have hnone : (slots fields).filter (·.isFrom) = [] := List.filter_eq_nil_iff.mpr hfind
    refine .inr ⟨?_, by rw [hnone]; rfl⟩
    rintro ⟨s, hs, hfrom⟩
    exact absurd hfrom (hfind s hs)
  | some s =>
    have hs : s ∈ slots fields := List.mem_of_find?_eq_some hfind
    have hfrom : s.isFrom := List.find?_some hfind
    by_cases hone : (slots fields).length = 1
    · refine .inr ⟨fun _ => hone, ?_⟩
      obtain ⟨t, ht⟩ := List.length_eq_one_iff.mp hone
      rw [ht, List.mem_singleton] at hs
      subst hs
      simp [ht, hfrom]
    · exact .inl ⟨⟨⟨s, hs, hfrom⟩, hone⟩, if_neg hone⟩

theorem Variant.problem_or_code (v : Variant) :
    (∃ e, v.part.Problem e ∧ VariantCode.ofVariant v = .error e) ∨
      (∀ e, ¬v.part.Problem e) ∧
        ∃ code, v.part.Codes code ∧ VariantCode.ofVariant v = .ok code := by
  cases hmessage : v.message with
  | missing => exact .inl ⟨_, .missing hmessage, by rw [VariantCode.ofVariant, hmessage]; rfl⟩
  | malformed => exact .inl ⟨_, .malformed hmessage, by rw [VariantCode.ofVariant, hmessage]; rfl⟩
  | text message =>
    rw [VariantCode.ofVariant, hmessage, messageOf]
    rcases conversionOf_cases v.name v.fields with ⟨⟨hfrom, hlength⟩, herror⟩ | ⟨hone, hok⟩
    · exact .inl ⟨_, .crowded hmessage rfl hfrom hlength, by rw [herror]⟩
    · refine .inr ⟨?_, _, ⟨⟨message, hmessage, rfl⟩, rfl, rfl⟩, by rw [hok]⟩
      intro e hproblem
      cases hproblem with
      | missing h => cases hmessage.symm.trans h
      | malformed h => cases hmessage.symm.trans h
      | crowded _ _ hfrom hlength => exact hlength (hone hfrom)

/-! ## Items -/

/-- Why an item is refused: it is a union, or for the first of its parts that has a problem. -/
inductive Item.FirstProblem (item : Item) : CompileError → Prop
  | union : item.body = .union → FirstProblem item .unionUnsupported
  | part {before : List Part} {p : Part} {e : CompileError} :
      IsFirst (fun p => ∃ e, p.Problem e) item.parts before p → p.Problem e → FirstProblem item e

theorem Item.FirstProblem.unique {item : Item} {e e' : CompileError} (h : item.FirstProblem e)
    (h' : item.FirstProblem e') : e = e' := by
  have hunion {before : List Part} {p : Part} (hbody : item.body = .union) :
      ¬IsFirst (fun p => ∃ e, p.Problem e) item.parts before p := by
    intro hfirst
    have hmem := hfirst.mem
    simp [Item.parts, hbody] at hmem
  cases h with
  | union hbody =>
    cases h' with
    | union _ => rfl
    | part hfirst _ => exact absurd hfirst (hunion hbody)
  | part hfirst hproblem =>
    cases h' with
    | union hbody => exact absurd hfirst (hunion hbody)
    | part hfirst' hproblem' =>
      obtain ⟨rfl, rfl⟩ := hfirst.unique hfirst'
      exact hproblem.unique hproblem'

/-- What the parts of an item are made into. -/
def implementationsOf (codes : List VariantCode) : List Implementation :=
  .display (codes.map (·.arm)) :: .error (codes.flatMap (·.source)) ::
    codes.flatMap (·.conversion)

theorem variantCodes_cases (variants : List Variant) :
    (∃ before p e, IsFirst (fun p => ∃ e, p.Problem e) (variants.map Variant.part) before p ∧
        p.Problem e ∧ variantCodes variants = .error e) ∨
      ∃ codes, List.Forall₂ Part.Codes (variants.map Variant.part) codes ∧
        (∀ p ∈ variants.map Variant.part, ∀ e, ¬p.Problem e) ∧
        variantCodes variants = .ok codes := by
  induction variants with
  | nil => exact .inr ⟨[], .nil, by simp, rfl⟩
  | cons v rest ih =>
    rw [variantCodes, List.map_cons]
    rcases v.problem_or_code with ⟨e, hproblem, herror⟩ | ⟨hnone, code, hcode, hok⟩
    · exact .inl ⟨[], v.part, e, .head ⟨e, hproblem⟩, hproblem, by rw [herror]⟩
    · have hv : ¬∃ e, v.part.Problem e := not_exists.mpr hnone
      rcases ih with ⟨before, p, e, hfirst, hproblem, herror⟩ | ⟨codes, hcodes, hnones, hoks⟩
      · exact .inl ⟨_, p, e, .tail hv hfirst, hproblem, by rw [hok, herror]⟩
      · refine .inr ⟨code :: codes, .cons hcode hcodes, ?_, by rw [hok, hoks]⟩
        exact List.forall_mem_cons.mpr ⟨hnone, hnones⟩

/-- An item is refused, or has the code of all its parts. -/
theorem Item.problem_or_codes (item : Item) :
    (∃ e, item.FirstProblem e ∧ expand item = .error e) ∨
      item.body ≠ .union ∧ (∀ p ∈ item.parts, ∀ e, ¬p.Problem e) ∧
        ∃ codes, List.Forall₂ Part.Codes item.parts codes ∧
          expand item = .ok (implementationsOf codes) := by
  cases hbody : item.body with
  | enum variants =>
    have hparts := parts_of_enum hbody
    rcases variantCodes_cases variants with
      ⟨before, p, e, hfirst, hproblem, herror⟩ | ⟨codes, hcodes, hnones, hok⟩
    · exact .inl ⟨e, .part (hparts ▸ hfirst) hproblem, by simp only [expand, hbody, herror]⟩
    · refine .inr ⟨nofun, hparts ▸ hnones, codes, hparts ▸ hcodes, ?_⟩
      simp only [expand, hbody, hok, implementationsOf]
  | struct message fields =>
    have hparts := parts_of_struct hbody
    have hfirst {e : CompileError} (h : Part.Problem ⟨none, message, fields⟩ e) :
        item.FirstProblem e := by
      have hfirst : IsFirst (fun p => ∃ e, p.Problem e) item.parts [] ⟨none, message, fields⟩ := by
        rw [hparts]
        exact .head ⟨e, h⟩
      exact .part hfirst h
    cases message with
    | missing => exact .inl ⟨_, hfirst (.missing rfl), by rw [expand, hbody]; rfl⟩
    | malformed => exact .inl ⟨_, hfirst (.malformed rfl), by rw [expand, hbody]; rfl⟩
    | text message =>
      let code : VariantCode :=
        ⟨⟨none, .ofMessage message (slots fields)⟩, sourceOf none (slots fields), []⟩
      have hcode : Part.Codes ⟨none, .text message, fields⟩ code := ⟨⟨message, rfl, rfl⟩, rfl, rfl⟩
      rw [hparts]
      refine .inr ⟨nofun, ?_, [code], .cons hcode .nil, ?_⟩
      · intro p hp e hproblem
        rw [List.mem_singleton.mp hp] at hproblem
        cases hproblem with
        | missing h => cases h
        | malformed h => cases h
        | crowded _ h => cases h
      · simp [expand, hbody, implementationsOf, messageOf, code]
  | union => exact .inl ⟨_, .union hbody, by rw [expand, hbody]⟩

theorem expand_eq_error_iff {item : Item} {e : CompileError} :
    expand item = .error e ↔ item.FirstProblem e := by
  rcases item.problem_or_codes with ⟨e', hfirst, herror⟩ | ⟨hunion, hnones, codes, -, hok⟩
  · rw [herror]
    constructor
    · intro h
      cases h
      exact hfirst
    · intro h
      rw [hfirst.unique h]
  · rw [hok]
    refine ⟨nofun, ?_⟩
    intro h
    cases h with
    | union hbody => exact absurd hbody hunion
    | part hfirst' hproblem => exact absurd hproblem (hnones _ hfirst'.mem _)

theorem exists_codes {item : Item} {implementations : List Implementation}
    (h : expand item = .ok implementations) :
    (∀ p ∈ item.parts, ∀ e, ¬p.Problem e) ∧
      ∃ codes, List.Forall₂ Part.Codes item.parts codes ∧
        implementations = implementationsOf codes := by
  rcases item.problem_or_codes with ⟨e, -, herror⟩ | ⟨-, hnones, codes, hcodes, hok⟩
  · cases herror.symm.trans h
  · cases hok.symm.trans h
    exact ⟨hnones, codes, hcodes, rfl⟩

/-! ## Refusals -/

/-- An item is refused if it is a union, or has a part without a message, or a variant that is to
be made from a field and has not exactly one. -/
def Item.Refusable (item : Item) : Prop :=
  match item.body with
  | .union => True
  | .struct message _ => ∀ text, message ≠ .text text
  | .enum variants => ∃ v ∈ variants, (∀ text, v.message ≠ .text text) ∨
      (∃ f ∈ v.fields, hasAttribute f "from") ∧ v.fields.length ≠ 1

theorem Part.exists_problem_iff {p : Part} :
    (∃ e, p.Problem e) ↔ (∀ text, p.message ≠ .text text) ∨
      p.variant.isSome ∧ (∃ f ∈ p.fields, hasAttribute f "from") ∧ p.fields.length ≠ 1 := by
  constructor
  · rintro ⟨e, hproblem⟩
    cases hproblem with
    | missing h => exact .inl fun text => by simp [h]
    | malformed h => exact .inl fun text => by simp [h]
    | crowded _ hvariant hfrom hlength => exact .inr ⟨by simp [hvariant], hfrom, hlength⟩
  · intro h
    cases hmessage : p.message with
    | missing => exact ⟨_, .missing hmessage⟩
    | malformed => exact ⟨_, .malformed hmessage⟩
    | text message =>
      rcases h with h | ⟨hvariant, hfrom, hlength⟩
      · exact absurd hmessage (h message)
      · obtain ⟨variant, hvariant⟩ := Option.isSome_iff_exists.mp hvariant
        exact ⟨_, .crowded hmessage hvariant hfrom hlength⟩

theorem exists_isFirst {α : Type} {P : α → Prop} {xs : List α} (h : ∃ x ∈ xs, P x) :
    ∃ before x, IsFirst P xs before x := by
  induction xs with
  | nil => simp at h
  | cons y xs ih =>
    by_cases hy : P y
    · exact ⟨[], y, .head hy⟩
    · obtain ⟨before, x, hfirst⟩ := ih (by simpa [hy] using h)
      exact ⟨y :: before, x, .tail hy hfirst⟩

theorem Item.exists_firstProblem_iff {item : Item} :
    (∃ e, item.FirstProblem e) ↔ item.Refusable := by
  have hparts : (∃ e, item.FirstProblem e) ↔
      item.body = .union ∨ ∃ p ∈ item.parts, ∃ e, p.Problem e := by
    constructor
    · rintro ⟨e, hproblem⟩
      cases hproblem with
      | union hbody => exact .inl hbody
      | part hfirst hproblem => exact .inr ⟨_, hfirst.mem, _, hproblem⟩
    · rintro (hbody | h)
      · exact ⟨_, .union hbody⟩
      · obtain ⟨before, p, hfirst⟩ := exists_isFirst h
        obtain ⟨e, hproblem⟩ := hfirst.holds
        exact ⟨e, .part hfirst hproblem⟩
  rw [hparts]
  simp only [Part.exists_problem_iff, parts, Refusable]
  cases item.body with
  | enum variants => simp [Variant.part]
  | struct message fields => simp
  | union => simp

/-! ## Sources -/

/-- The field is the source of the part that it stands in, or is to be converted from. -/
def Field.IsMarked (f : Field) : Prop := hasAttribute f "from" ∨ hasAttribute f "source"

instance (f : Field) : Decidable f.IsMarked := inferInstanceAs (Decidable (_ ∨ _))

/-- The first field that is marked, as the type knows it: by its name or by its place. -/
def Part.FirstMarked (p : Part) (member : String) : Prop :=
  ∃ before f, IsFirst Field.IsMarked p.fields before f ∧
    member = f.name.getD (toString before.length)

theorem isSource_ofField {place : Nat} {f : Field} :
    (Slot.ofField place f).isSource ↔ f.IsMarked := by
  simp [Slot.ofField, Field.IsMarked]

/-- The places count from that of the first field, here `n`. -/
theorem find?_source_iff {fields : List Field} {n : Nat} {s : Slot} :
    (fields.mapIdx fun i f => Slot.ofField (i + n) f).find? (·.isSource) = some s ↔
      ∃ before f, IsFirst Field.IsMarked fields before f ∧
        s = Slot.ofField (before.length + n) f := by
  induction fields generalizing n with
  | nil =>
    refine ⟨nofun, ?_⟩
    rintro ⟨before, f, hfirst, -⟩
    cases hfirst
  | cons f fields ih =>
    have hplace (i : Nat) : i + 1 + n = i + (n + 1) := by omega
    rw [List.mapIdx_cons, List.find?_cons]
    simp only [isFirst_cons_iff, hplace]
    by_cases hf : f.IsMarked
    · rw [isSource_ofField.mpr hf]
      constructor
      · intro h
        cases h
        exact ⟨[], f, .inl ⟨hf, rfl, rfl⟩, rfl⟩
      · rintro ⟨before, g, ⟨-, rfl, rfl⟩ | ⟨hnot, -⟩, rfl⟩
        · rfl
        · exact absurd hf hnot
    · rw [Bool.eq_false_iff.mpr (isSource_ofField.not.mpr hf)]
      constructor
      · intro h
        obtain ⟨before, g, hfirst, rfl⟩ := ih.mp h
        exact ⟨f :: before, g, .inr ⟨hf, before, rfl, hfirst⟩, by rw [List.length_cons, hplace]⟩
      · rintro ⟨before, g, ⟨hmarked, -⟩ | ⟨-, before', rfl, hfirst⟩, rfl⟩
        · exact absurd hmarked hf
        · exact ih.mpr ⟨before', g, hfirst, by rw [List.length_cons, hplace]⟩

theorem mem_sourceOf_iff {p : Part} {variant : Option String} {member : String} :
    (variant, member) ∈ sourceOf p.variant (slots p.fields) ↔
      p.variant = variant ∧ p.FirstMarked member := by
  have hfind (s : Slot) : (slots p.fields).find? (·.isSource) = some s ↔
      ∃ before f, IsFirst Field.IsMarked p.fields before f ∧ s = Slot.ofField before.length f :=
    find?_source_iff (n := 0)
  rw [sourceOf, Part.FirstMarked]
  cases hsource : (slots p.fields).find? (·.isSource) with
  | none =>
    refine ⟨nofun, ?_⟩
    rintro ⟨-, before, f, hfirst, -⟩
    cases hsource.symm.trans ((hfind _).mpr ⟨before, f, hfirst, rfl⟩)
  | some s =>
    obtain ⟨before, f, hfirst, rfl⟩ := (hfind s).mp hsource
    rw [List.mem_singleton, Prod.mk.injEq]
    constructor
    · rintro ⟨rfl, rfl⟩
      exact ⟨rfl, before, f, hfirst, rfl⟩
    · rintro ⟨rfl, before', f', hfirst', rfl⟩
      obtain ⟨rfl, rfl⟩ := hfirst.unique hfirst'
      exact ⟨rfl, rfl⟩

theorem Part.FirstMarked.unique {p : Part} {m m' : String} (h : p.FirstMarked m)
    (h' : p.FirstMarked m') : m = m' := by
  obtain ⟨before, f, hfirst, rfl⟩ := h
  obtain ⟨before', f', hfirst', rfl⟩ := h'
  obtain ⟨rfl, rfl⟩ := hfirst.unique hfirst'
  rfl

/-- A pair is found by its key if the key has no other value. -/
theorem lookup_eq_some_iff_mem {α β : Type} [BEq α] [LawfulBEq α] {pairs : List (α × β)} {k : α}
    (h : ∀ b b', (k, b) ∈ pairs → (k, b') ∈ pairs → b = b') {b : β} :
    pairs.lookup k = some b ↔ (k, b) ∈ pairs := by
  have hmem {b : β} (hb : pairs.lookup k = some b) : (k, b) ∈ pairs := by
    obtain ⟨before, after, rfl, -⟩ := List.lookup_eq_some_iff.mp hb
    exact List.mem_append_right before List.mem_cons_self
  refine ⟨hmem, ?_⟩
  intro hb
  cases hlookup : pairs.lookup k with
  | none => simpa using List.lookup_eq_none_iff.mp hlookup _ hb
  | some b' => rw [h b b' hb (hmem hlookup)]

section Accepted

variable {parts : List Part} {codes : List VariantCode}

theorem forall₂_arms (h : List.Forall₂ Part.Codes parts codes) :
    List.Forall₂ (fun p arm => ∃ message, p.message = .text message ∧
      arm = ⟨p.variant, .ofMessage message (slots p.fields)⟩) parts (codes.map (·.arm)) :=
  List.forall₂_map_right_iff.mpr (h.imp fun _ _ hcode => hcode.arm)

theorem mem_sources_iff (h : List.Forall₂ Part.Codes parts codes) {variant : Option String}
    {member : String} :
    (variant, member) ∈ codes.flatMap (·.source) ↔
      ∃ p ∈ parts, p.variant = variant ∧ p.FirstMarked member := by
  induction h with
  | nil => simp
  | cons hcode _ ih =>
    rw [List.flatMap_cons, List.mem_append, hcode.source, mem_sourceOf_iff, ih]
    simp

theorem flatMap_conversion (h : List.Forall₂ Part.Codes parts codes) :
    codes.flatMap (·.conversion) = parts.flatMap Part.conversions := by
  induction h with
  | nil => rfl
  | cons hcode _ ih => rw [List.flatMap_cons, List.flatMap_cons, hcode.conversion, ih]

/-- The source of a value is the first marked field of its variant. -/
theorem lookup_sources_iff (h : List.Forall₂ Part.Codes parts codes)
    (hnames : (parts.map (·.variant)).Nodup) {p : Part} (hp : p ∈ parts) {member : String} :
    (codes.flatMap (·.source)).lookup p.variant = some member ↔ p.FirstMarked member := by
  have hsame {q : Part} (hq : q ∈ parts) (hvariant : q.variant = p.variant) : q = p :=
    List.inj_on_of_nodup_map hnames hq hp hvariant
  have hmem {m : String} : (p.variant, m) ∈ codes.flatMap (·.source) ↔ p.FirstMarked m := by
    rw [mem_sources_iff h]
    constructor
    · rintro ⟨q, hq, hvariant, hfirst⟩
      exact hsame hq hvariant ▸ hfirst
    · intro hfirst
      exact ⟨p, hp, rfl, hfirst⟩
  rw [lookup_eq_some_iff_mem, hmem]
  intro m m' hm hm'
  exact (hmem.mp hm).unique (hmem.mp hm')

end Accepted

/-- What attributes say of the message is what the first of them named `error` says. An item is
refused exactly if it is a union, has a part without a message, or has a variant that is to be made
from a field beside others; the problem of the first such part is reported. Any other item is shown
by an arm for each part, in their order, and the source of each part that has a marked field is the
first of them. -/
theorem expand_refuses_or_shows (item : Item) :
    (∀ attributes message, MessageAttribute.ofAttributes attributes = message ↔
      message.SaidBy attributes) ∧
    ((∃ e, expand item = .error e) ↔ item.Refusable) ∧
    (∀ e, expand item = .error e ↔ item.FirstProblem e) ∧
    ∀ implementations, expand item = .ok implementations →
      ∃ arms sources conversions,
        implementations = .display arms :: .error sources :: conversions ∧
        (∀ c ∈ conversions, ∃ type variant member, c = .conversion type variant member) ∧
        List.Forall₂ (fun p arm => ∃ message, p.message = .text message ∧
          arm = ⟨p.variant, .ofMessage message (slots p.fields)⟩) item.parts arms ∧
        (∀ variant member, (variant, member) ∈ sources ↔
          ∃ p ∈ item.parts, p.variant = variant ∧ p.FirstMarked member) ∧
        ((item.parts.map (·.variant)).Nodup → ∀ p ∈ item.parts, ∀ member,
          sources.lookup p.variant = some member ↔ p.FirstMarked member) := by
  refine ⟨fun _ _ => MessageAttribute.ofAttributes_eq_iff, ?_, fun e => expand_eq_error_iff, ?_⟩
  · simp only [expand_eq_error_iff, Item.exists_firstProblem_iff]
  · intro implementations h
    obtain ⟨-, codes, hcodes, rfl⟩ := exists_codes h
    refine ⟨_, _, _, rfl, ?_, forall₂_arms hcodes, fun _ _ => mem_sources_iff hcodes,
      fun hnames p hp _ => lookup_sources_iff hcodes hnames hp⟩
    intro c hc
    rw [flatMap_conversion hcodes, List.mem_flatMap] at hc
    obtain ⟨p, -, hc⟩ := hc
    exact exists_of_mem_conversions hc

def failedRead : Variant :=
  ⟨"Failed", .text "failed: \x7b0\x7d",
    [⟨none, "u8", []⟩, ⟨none, "IoError", ["source"]⟩, ⟨none, "IoError", ["source"]⟩]⟩

def readError : Item where
  name := "ReadError"
  body := .enum [⟨"Closed", .text "closed", []⟩, failedRead]

def readErrorCode : List Implementation :=
  [.display [⟨some "Closed", "closed", []⟩,
      ⟨some "Failed", "failed: \x7bfield0\x7d", [⟨"0", "field0", "u8", false, false⟩]⟩],
    .error [(some "Failed", "1")]]

theorem expand_refuses_or_shows_readError :
    ∃ arms sources conversions, readErrorCode = .display arms :: .error sources :: conversions ∧
      expand readError = .ok readErrorCode ∧ sources.lookup (some "Failed") = some "1" := by
  have hexpand : expand readError = .ok readErrorCode := by decide +kernel
  obtain ⟨arms, sources, conversions, heq, -, -, -, hlookup⟩ :=
    (expand_refuses_or_shows readError).2.2.2 readErrorCode hexpand
  have hfirst : failedRead.part.FirstMarked "1" :=
    ⟨_, _, .tail (by decide +kernel) (.head (by decide +kernel)), rfl⟩
  have hmem : failedRead.part ∈ readError.parts := .tail _ (.head _)
  exact ⟨arms, sources, conversions, heq, hexpand,
    (hlookup (by decide +kernel) failedRead.part hmem "1").mpr hfirst⟩

end ScriptHost.ErrorDerive

import ScriptHost.Proofs.Placeholders

/-!
# ScriptHost.Proofs.Formatter

Which arms hide the formatter that they write to. A field that a message mentions is bound to its
own name if it has one, and every arm writes to a formatter of a fixed name. The formatter is
hidden exactly by the arms whose message mentions a field of that name; the names given to fields
that are known by their places never are the formatter's.
-/

namespace ScriptHost.ErrorDerive

/-- An identifier for the formatter. Written raw it is the same one. -/
def IsFormatter (name : String) : Prop := name = formatter ∨ name = "r#" ++ formatter

instance (name : String) : Decidable (IsFormatter name) := inferInstanceAs (Decidable (_ ∨ _))

/-- A field is bound to the name of the formatter. -/
def Arm.Shadows (arm : Arm) : Prop := ∃ name ∈ arm.locals, IsFormatter name

/-- The message mentions a field that has the name of the formatter. -/
def Part.MentionsFormatter (p : Part) : Prop :=
  ∃ message, p.message = .text message ∧ ∃ f ∈ p.fields, ∃ name, f.name = some name ∧
    IsFormatter name ∧ name.toList ∈ Message.names (Message.scan message.toList)

/-! ## Names -/

theorem not_isFormatter_place (place : Nat) : ¬IsFormatter (toString place) := by
  intro h
  have hmem : 'f' ∈ (toString place).toList := by
    rcases h with h | h <;>
    · rw [h]
      decide
  cases isDigit_of_mem_place hmem

theorem not_isFormatter_field (place : Nat) : ¬IsFormatter ("field" ++ toString place) := by
  rintro (h | h) <;>
  · have hlist := congrArg String.toList h
    simp [formatter] at hlist

section Slots

variable {fields : List Field} {s : Slot}

theorem isFormatter_binding_iff (hs : s ∈ slots fields) :
    IsFormatter s.binding ↔ IsFormatter s.member := by
  rcases binding_cases hs with hbinding | ⟨place, -, hmember, hbinding⟩
  · rw [hbinding]
  · rw [hmember, hbinding]
    exact iff_of_false (not_isFormatter_field place) (not_isFormatter_place place)

/-- No place is written as the formatter is, so the field has a name of its own. -/
theorem exists_isFormatter_iff {P : String → Prop} :
    (∃ s ∈ slots fields, IsFormatter s.member ∧ P s.member) ↔
      ∃ f ∈ fields, ∃ name, f.name = some name ∧ IsFormatter name ∧ P name := by
  constructor
  · rintro ⟨s, hs, hformatter, hp⟩
    obtain ⟨i, hi, rfl⟩ := List.mem_mapIdx.mp hs
    refine ⟨fields[i], List.getElem_mem hi, ?_⟩
    cases hname : fields[i].name with
    | some name =>
      simp only [Slot.ofField, hname, Option.getD_some] at hformatter hp
      exact ⟨name, rfl, hformatter, hp⟩
    | none =>
      simp only [Slot.ofField, hname, Option.getD_none] at hformatter
      exact absurd hformatter (not_isFormatter_place i)
  · rintro ⟨f, hf, name, hname, h⟩
    obtain ⟨i, hi, rfl⟩ := List.mem_iff_getElem.mp hf
    refine ⟨_, List.mem_mapIdx.mpr ⟨i, hi, rfl⟩, ?_⟩
    simpa [Slot.ofField, hname] using h

end Slots

/-- Each name has a first field. -/
theorem exists_mem_firsts_iff {slots' : List Slot} {P : String → Prop} :
    (∃ s ∈ firsts slots', P s.member) ↔ ∃ s ∈ slots', P s.member := by
  induction slots' with
  | nil => rfl
  | cons first rest ih =>
    by_cases hfirst : P first.member
    · exact iff_of_true ⟨first, List.mem_cons_self, hfirst⟩ ⟨first, List.mem_cons_self, hfirst⟩
    · have hne {s : Slot} (hs : P s.member) : s.member ≠ first.member :=
        fun heq => hfirst (heq ▸ hs)
      simp only [firsts, List.exists_mem_cons_iff, hfirst, false_or, List.mem_filter, ← ih]
      constructor
      · rintro ⟨s, ⟨hs, -⟩, hp⟩
        exact ⟨s, hs, hp⟩
      · rintro ⟨s, hs, hp⟩
        exact ⟨s, ⟨hs, decide_eq_true (hne hp)⟩, hp⟩

theorem mem_of_mem_firsts {slots' : List Slot} {s : Slot} (hs : s ∈ firsts slots') :
    s ∈ slots' := by
  induction slots' with
  | nil => exact hs
  | cons first rest ih =>
    rw [firsts, List.mem_cons, List.mem_filter] at hs
    rcases hs with rfl | ⟨hs, -⟩
    · exact List.mem_cons_self
    · exact List.mem_cons_of_mem first (ih hs)

/-! ## Arms -/

theorem forall_mem_iff_of_forall₂ {α β : Type} {P : α → Prop} {Q : β → Prop} {xs : List α}
    {ys : List β} (h : List.Forall₂ (fun x y => P x ↔ Q y) xs ys) :
    (∀ x ∈ xs, P x) ↔ ∀ y ∈ ys, Q y := by
  induction h with
  | nil => simp
  | cons hhead _ ih => rw [List.forall_mem_cons, List.forall_mem_cons, hhead, ih]

/-- A field that is bound was the first of its name, and is bound to the formatter's if it has it. -/
theorem shadows_ofMessage_iff {variant : Option String} {message : String} {fields : List Field} :
    Arm.Shadows ⟨variant, .ofMessage message (slots fields)⟩ ↔
      ∃ s ∈ firsts (slots fields), IsFormatter s.member ∧
        s.member.toList ∈ Message.names (Message.scan message.toList) := by
  constructor
  · rintro ⟨binding, hbinding, hformatter⟩
    obtain ⟨s, hs, rfl⟩ := List.mem_map.mp hbinding
    obtain ⟨hfirst, hmention⟩ := mem_mentioned_iff.mp hs
    have hmember := (isFormatter_binding_iff (mem_of_mem_firsts hfirst)).mp hformatter
    exact ⟨s, hfirst, hmember, hmention⟩
  · rintro ⟨s, hfirst, hmember, hmention⟩
    have hformatter := (isFormatter_binding_iff (mem_of_mem_firsts hfirst)).mpr hmember
    have hs := mem_mentioned_iff.mpr ⟨hfirst, hmention⟩
    exact ⟨s.binding, List.mem_map_of_mem hs, hformatter⟩

theorem mentionsFormatter_iff {p : Part} {message : String} (hmessage : p.message = .text message) :
    p.MentionsFormatter ↔ ∃ s ∈ slots p.fields, IsFormatter s.member ∧
      s.member.toList ∈ Message.names (Message.scan message.toList) := by
  rw [exists_isFormatter_iff (P := fun name =>
    name.toList ∈ Message.names (Message.scan message.toList))]
  constructor
  · rintro ⟨message', hmessage', h⟩
    cases hmessage.symm.trans hmessage'
    exact h
  · intro h
    exact ⟨message, hmessage, h⟩

theorem shadows_iff {p : Part} {message : String} (hmessage : p.message = .text message) :
    Arm.Shadows ⟨p.variant, .ofMessage message (slots p.fields)⟩ ↔ p.MentionsFormatter := by
  rw [shadows_ofMessage_iff, mentionsFormatter_iff hmessage]
  exact exists_mem_firsts_iff (P := fun name =>
    IsFormatter name ∧ name.toList ∈ Message.names (Message.scan message.toList))

/-- An arm hides the formatter exactly if its message mentions a field of that name. So no arm of
an item does exactly if no message of it mentions such a field. -/
theorem arms_shadow_formatter_iff {item : Item} {implementations : List Implementation}
    (h : expand item = .ok implementations) :
    ∃ arms rest, implementations = .display arms :: rest ∧
      List.Forall₂ (fun p arm => arm.variant = p.variant ∧ (arm.Shadows ↔ p.MentionsFormatter))
        item.parts arms ∧
      ((∀ arm ∈ arms, ¬arm.Shadows) ↔ ∀ p ∈ item.parts, ¬p.MentionsFormatter) := by
  obtain ⟨-, codes, hcodes, rfl⟩ := exists_codes h
  have harms : List.Forall₂
      (fun p arm => arm.variant = p.variant ∧ (arm.Shadows ↔ p.MentionsFormatter))
      item.parts (codes.map (·.arm)) := by
    refine (forall₂_arms hcodes).imp ?_
    rintro p arm ⟨message, hmessage, rfl⟩
    exact ⟨rfl, shadows_iff hmessage⟩
  refine ⟨_, _, rfl, harms, (forall_mem_iff_of_forall₂ (harms.imp ?_)).symm⟩
  intro p arm ⟨_, hshadows⟩
  exact hshadows.symm.not

/-- The field of that name is not mentioned. -/
def retryError : Item where
  name := "RetryError"
  body := .enum [⟨"Failed", .text "failed: \x7bfield\x7d",
    [⟨some "f", "Formula", []⟩, ⟨some "field", "u8", []⟩]⟩]

def retryArms : List Arm :=
  [⟨some "Failed", "failed: \x7bfield\x7d", [⟨"field", "field", "u8", false, false⟩]⟩]

theorem arms_shadow_formatter_retryError :
    expand retryError = .ok [.display retryArms, .error []] ∧ ∀ arm ∈ retryArms, ¬arm.Shadows := by
  have hexpand : expand retryError = .ok [.display retryArms, .error []] := by decide +kernel
  obtain ⟨arms, rest, heq, -, hnone⟩ := arms_shadow_formatter_iff hexpand
  cases heq
  refine ⟨hexpand, hnone.mpr ?_⟩
  rintro p hp ⟨message, hmessage, f, hf, name, hname, hformatter, hmention⟩
  have hnames : Message.names (Message.scan "failed: \x7bfield\x7d".toList) = ["field".toList] := by
    decide +kernel
  rw [List.mem_singleton.mp hp] at hmessage
  cases hmessage
  rw [hnames, List.mem_singleton, String.toList_inj] at hmention
  subst hmention
  exact absurd hformatter (by decide)

/-- The message is written to the field and not to the formatter. -/
def failure : Item where
  name := "Failure"
  body := .enum [⟨"Failed", .text "failed: \x7bf\x7d", [⟨some "f", "u8", []⟩]⟩]

def failureArm : Arm := ⟨some "Failed", "failed: \x7bf\x7d", [⟨"f", "f", "u8", false, false⟩]⟩

theorem failure_shadows_formatter :
    expand failure = .ok [.display [failureArm], .error []] ∧ formatter ∈ failureArm.locals :=
  ⟨by decide +kernel, by decide⟩

end ScriptHost.ErrorDerive

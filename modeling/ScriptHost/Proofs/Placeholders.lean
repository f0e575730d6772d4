import ScriptHost.Proofs.Derivation

/-!
# ScriptHost.Proofs.Placeholders

What becomes of the placeholders of a message. Scanning a message gives pieces of which no two
could be read as one (`tidy_scan`), and such pieces are what scanning gives of their text
(`scan_printAll`). New names for placeholders leave pieces tidy if they could stand where the old
ones do (`Tidy.rename`), so the text with the new names has the pieces of the message, renamed.
-/

namespace ScriptHost.ErrorDerive

namespace Message

/-! ## Tidy pieces -/

/-- The text can stand as the name of a placeholder. -/
structure IsName (name : List Char) : Prop where
  inName : ∀ c ∈ name, Piece.inName c
  not_escape : name.head? ≠ some '\x7b'

/-- A name ends before these pieces: they start with the mark that ends one, or there are none. -/
def EndsName (pieces : List Piece) : Prop :=
  ∀ piece ∈ pieces.head?, ∃ c, piece = .text c ∧ Piece.inName c = false

/-- Pieces that are what scanning gives of their text. -/
inductive Tidy : List Piece → Prop
  | nil : Tidy []
  | text {c : Char} {rest : List Piece} : c ≠ '\x7b' → Tidy rest → Tidy (.text c :: rest)
  | escape {rest : List Piece} : Tidy rest → Tidy (.escape :: rest)
  | placeholder {name : List Char} {rest : List Piece} :
      IsName name → EndsName rest → Tidy rest → Tidy (.placeholder name :: rest)

theorem EndsName.stops {pieces : List Piece} (h : EndsName pieces) :
    ∀ c ∈ (printAll pieces).head?, Piece.inName c = false := by
  cases pieces with
  | nil => simp [printAll]
  | cons piece rest =>
    obtain ⟨c, rfl, hc⟩ := h piece rfl
    simpa [printAll, Piece.print] using hc

theorem scan_open {rest : List Char} (h : rest.head? ≠ some '\x7b') :
    scan ('\x7b' :: rest) =
      .placeholder (rest.takeWhile Piece.inName) :: scan (rest.dropWhile Piece.inName) := by
  rw [scan]
  intro more hmore
  simp [hmore] at h

/-- A name is read up to its end. -/
theorem takeWhile_name {name rest : List Char} (hname : ∀ c ∈ name, Piece.inName c)
    (hrest : ∀ c ∈ rest.head?, Piece.inName c = false) :
    (name ++ rest).takeWhile Piece.inName = name ∧
      (name ++ rest).dropWhile Piece.inName = rest := by
  rw [List.takeWhile_append_of_pos hname, List.dropWhile_append_of_pos hname]
  cases rest with
  | nil => simp
  | cons c rest =>
    have hc : Piece.inName c = false := hrest c rfl
    simp [hc]

theorem scan_printAll {pieces : List Piece} (h : Tidy pieces) : scan (printAll pieces) = pieces := by
  induction h with
  | nil => rw [printAll, List.flatMap_nil, scan]
  | @text c rest hc _ ih =>
    have hprint : printAll (.text c :: rest) = c :: printAll rest := rfl
    rw [hprint, scan, ih]
    all_goals simp [hc]
  | @escape rest _ ih =>
    have hprint : printAll (.escape :: rest) = '\x7b' :: '\x7b' :: printAll rest := rfl
    rw [hprint, scan, ih]
  | @placeholder name rest hname hends _ ih =>
    have hprint : printAll (.placeholder name :: rest) = '\x7b' :: (name ++ printAll rest) := rfl
    obtain ⟨htake, hdrop⟩ := takeWhile_name hname.inName hends.stops
    have hopen : (name ++ printAll rest).head? ≠ some '\x7b' := by
      cases name with
      | nil =>
        intro hhead
        exact absurd (hends.stops _ hhead) (by decide)
      | cons c name => exact hname.not_escape
    rw [hprint, scan_open hopen, htake, hdrop, ih]

theorem isName_takeWhile {rest : List Char} (h : rest.head? ≠ some '\x7b') :
    IsName (rest.takeWhile Piece.inName) where
  inName := List.all_eq_true.mp List.all_takeWhile
  not_escape := by
    cases rest with
    | nil => simp
    | cons c rest =>
      by_cases hc : Piece.inName c
      · simpa [hc] using h
      · simp [hc]

/-- What is left after a name starts with a mark that ends names. -/
theorem endsName_scan {rest : List Char} (h : ∀ c ∈ rest.head?, Piece.inName c = false) :
    EndsName (scan rest) := by
  intro piece hpiece
  cases rest with
  | nil => simp [scan] at hpiece
  | cons c rest =>
    have hc : Piece.inName c = false := h c rfl
    have hopen : c ≠ '\x7b' := by
      rintro rfl
      cases hc
    rw [scan] at hpiece
    · cases hpiece
      exact ⟨c, rfl, hc⟩
    all_goals simp [hopen]

theorem tidy_scan (message : List Char) : Tidy (scan message) := by
  fun_induction scan message with
  | case1 => exact .nil
  | case2 rest ih => exact .escape ih
  | case3 rest hopen ih =>
    have hhead : rest.head? ≠ some '\x7b' := by
      intro hhead
      obtain ⟨more, rfl⟩ := List.head?_eq_some_iff.mp hhead
      exact hopen more rfl
    refine .placeholder (isName_takeWhile hhead) (endsName_scan ?_) ih
    intro c hc
    have hnot := List.head?_dropWhile_not Piece.inName rest
    rw [hc] at hnot
    exact hnot
  | case4 c rest _ hc ih => exact .text hc ih

theorem Tidy.rename {pieces : List Piece} {f : List Char → List Char}
    (hf : ∀ name, IsName name → IsName (f name)) (h : Tidy pieces) : Tidy (rename f pieces) := by
  induction h with
  | nil => exact .nil
  | text hc _ ih => exact .text hc ih
  | escape _ ih => exact .escape ih
  | @placeholder name rest hname hends _ ih =>
    refine .placeholder (hf name hname) ?_ ih
    intro piece hpiece
    cases rest with
    | nil => cases hpiece
    | cons first rest =>
      obtain ⟨c, rfl, hc⟩ := hends first rfl
      cases hpiece
      exact ⟨c, rfl, hc⟩

/-- Scanned again, the text with the new names has the pieces of the message, renamed. -/
theorem scan_rename {f : List Char → List Char} (hf : ∀ name, IsName name → IsName (f name))
    (message : List Char) : scan (printAll (rename f (scan message))) = rename f (scan message) :=
  scan_printAll ((tidy_scan message).rename hf)

theorem names_rename (f : List Char → List Char) (pieces : List Piece) :
    names (rename f pieces) = (names pieces).map f := by
  induction pieces with
  | nil => rfl
  | cons piece rest ih =>
    cases piece with
    | text c => exact ih
    | escape => exact ih
    | placeholder name => exact congrArg (f name :: ·) ih

theorem rename_id {f : List Char → List Char} (hf : ∀ name, f name = name) (pieces : List Piece) :
    rename f pieces = pieces := by
  rw [rename, List.map_congr_left (g := id), List.map_id]
  intro piece _
  cases piece <;> simp [hf]

end Message

/-! ## Fields -/

section Slots

variable {fields : List Field} {slots' : List Slot} {s : Slot} {name : List Char}

/-- A field is bound to its name, or known by its place. -/
theorem binding_cases (hs : s ∈ slots fields) :
    s.binding = s.member ∨
      ∃ place < fields.length, s.member = toString place ∧ s.binding = "field" ++ toString place := by
  obtain ⟨i, hi, rfl⟩ := List.mem_mapIdx.mp hs
  cases hname : fields[i].name with
  | some name => exact .inl (by simp [Slot.ofField, hname])
  | none => exact .inr ⟨i, hi, by simp [Slot.ofField, hname]⟩

theorem isDigit_of_mem_place {place : Nat} {c : Char} (hc : c ∈ (toString place).toList) :
    c.isDigit := by
  rw [Nat.toString_eq_repr, Nat.repr, String.toList_ofList] at hc
  exact Nat.isDigit_of_mem_toDigits (by decide) (by decide) hc

theorem isName_field (place : Nat) : Message.IsName ("field" ++ toString place).toList where
  inName := by
    intro c hc
    rw [String.toList_append, List.mem_append] at hc
    rcases hc with hc | hc
    · have hfield : "field".toList.all Piece.inName := by decide
      exact List.all_eq_true.mp hfield c hc
    · have hdigit := isDigit_of_mem_place hc
      refine Bool.and_eq_true_iff.mpr ⟨bne_iff_ne.mpr ?_, bne_iff_ne.mpr ?_⟩ <;>
      · rintro rfl
        cases hdigit
  not_escape := by simp

theorem renamed_cases (slots' : List Slot) (name : List Char) :
    (∀ s ∈ slots', s.member.toList ≠ name) ∧ renamed slots' name = name ∨
      ∃ s ∈ slots', s.member.toList = name ∧ renamed slots' name = s.binding.toList := by
  unfold renamed
  split
  · rename_i hfind
    exact .inl ⟨by simpa using hfind, rfl⟩
  · rename_i s hfind
    have hname := List.find?_some hfind
    exact .inr ⟨s, List.mem_of_find?_eq_some hfind, by simpa using hname, rfl⟩

theorem renamed_of_other (h : ∀ s ∈ slots', s.member.toList ≠ name) : renamed slots' name = name := by
  rcases renamed_cases slots' name with ⟨-, heq⟩ | ⟨s, hs, hmember, -⟩
  · exact heq
  · exact absurd hmember (h s hs)

theorem isName_renamed (hname : Message.IsName name) :
    Message.IsName (renamed (slots fields) name) := by
  rcases renamed_cases (slots fields) name with ⟨-, heq⟩ | ⟨s, hs, hmember, heq⟩
  · rw [heq]
    exact hname
  · rw [heq]
    rcases binding_cases hs with hbinding | ⟨place, -, -, hbinding⟩
    · rw [hbinding, hmember]
      exact hname
    · rw [hbinding]
      exact isName_field place

theorem renamed_member (hnames : (slots'.map (·.member)).Nodup) (hs : s ∈ slots') :
    renamed slots' s.member.toList = s.binding.toList := by
  rcases renamed_cases slots' s.member.toList with ⟨hnone, -⟩ | ⟨t, ht, hmember, heq⟩
  · exact absurd rfl (hnone s hs)
  · rw [heq, List.inj_on_of_nodup_map hnames ht hs (String.toList_inj.mp hmember)]

theorem firsts_eq_self (hnames : (slots'.map (·.member)).Nodup) : firsts slots' = slots' := by
  induction slots' with
  | nil => rfl
  | cons s rest ih =>
    rw [List.map_cons, List.nodup_cons] at hnames
    rw [firsts, ih hnames.2, List.filter_eq_self.mpr]
    intro t ht
    have hne : t.member ≠ s.member := fun heq => hnames.1 (heq ▸ List.mem_map_of_mem ht)
    exact decide_eq_true hne

/-- A name that a field has of its own is left as it is. -/
theorem renamed_of_named (h : ∀ f ∈ fields, f.name.isSome) (name : List Char) :
    renamed (slots fields) name = name := by
  rcases renamed_cases (slots fields) name with ⟨-, heq⟩ | ⟨s, hs, hmember, heq⟩
  · exact heq
  · obtain ⟨i, hi, rfl⟩ := List.mem_mapIdx.mp hs
    obtain ⟨own, hown⟩ := Option.isSome_iff_exists.mp (h _ (List.getElem_mem hi))
    rw [heq, ← hmember]
    simp [Slot.ofField, hown]

/-- Of fields that are known by their places, the places are what is replaced. -/
theorem renamed_of_unnamed (hnames : ((slots fields).map (·.member)).Nodup)
    (h : ∀ f ∈ fields, f.name = none) :
    (∀ place < fields.length,
      renamed (slots fields) (toString place).toList = ("field" ++ toString place).toList) ∧
    ∀ name, (∀ place < fields.length, name ≠ (toString place).toList) →
      renamed (slots fields) name = name := by
  have hfield (i : Nat) (hi : i < fields.length) : (Slot.ofField i fields[i]).member = toString i ∧
      (Slot.ofField i fields[i]).binding = "field" ++ toString i := by
    simp [Slot.ofField, h _ (List.getElem_mem hi)]
  constructor
  · intro place hplace
    obtain ⟨hmember, hbinding⟩ := hfield place hplace
    rw [← hbinding, ← hmember]
    exact renamed_member hnames (List.mem_mapIdx.mpr ⟨place, hplace, rfl⟩)
  · intro name hname
    refine renamed_of_other fun s hs hmember => ?_
    obtain ⟨place, hplace, rfl⟩ := List.mem_mapIdx.mp hs
    exact hname place hplace (by rw [← hmember, (hfield place hplace).1])

end Slots

/-! ## Templates -/

section Templates

variable {message : String} {fields : List Field}

theorem scan_format : Message.scan (Template.ofMessage message (slots fields)).format.toList =
    Message.rename (renamed (slots fields)) (Message.scan message.toList) := by
  rw [Template.ofMessage, String.toList_ofList]
  exact Message.scan_rename (fun _ => isName_renamed) message.toList

theorem format_of_named (h : ∀ f ∈ fields, f.name.isSome) :
    (Template.ofMessage message (slots fields)).format = message := by
  rw [Template.ofMessage, Message.rename_id (renamed_of_named h), Message.print_scan,
    String.ofList_toList]

theorem mem_mentioned_iff {slots' : List Slot} {s : Slot} :
    s ∈ (Template.ofMessage message slots').mentioned ↔
      s ∈ firsts slots' ∧ s.member.toList ∈ Message.names (Message.scan message.toList) := by
  simp [Template.ofMessage]

theorem mentioned_eq_filter {slots' : List Slot} (hnames : (slots'.map (·.member)).Nodup) :
    (Template.ofMessage message slots').mentioned =
      slots'.filter (fun s => s.member.toList ∈ Message.names (Message.scan message.toList)) := by
  simp only [Template.ofMessage, firsts_eq_self hnames, List.contains_eq_mem]

/-- A field that is bound is an argument that the format names. -/
theorem binding_mem_names (hnames : ((slots fields).map (·.member)).Nodup) {s : Slot}
    (hs : s ∈ (Template.ofMessage message (slots fields)).mentioned) :
    s.binding.toList ∈
      Message.names (Message.scan (Template.ofMessage message (slots fields)).format.toList) := by
  obtain ⟨hfirst, hmention⟩ := mem_mentioned_iff.mp hs
  rw [firsts_eq_self hnames] at hfirst
  rw [scan_format, Message.names_rename, ← renamed_member hnames hfirst]
  exact List.mem_map_of_mem hmention

end Templates

/-- Of a message only the names of fields are changed: scanned again, it has its pieces with each
such name replaced by the local name of the field. So it stays as it is if the fields have names of
their own, and of fields known by their places exactly the decimal numbers of the places are
replaced. The fields that are bound, and passed on in their order, are those that a placeholder
names; each of them is named by a placeholder of the result, and each placeholder that is replaced
has its field among them. -/
theorem ofMessage_renames_and_binds (message : String) (fields : List Field)
    (hnames : ((slots fields).map (·.member)).Nodup) :
    let template := Template.ofMessage message (slots fields)
    let pieces := Message.scan message.toList
    Message.scan template.format.toList = Message.rename (renamed (slots fields)) pieces ∧
    (∀ s ∈ slots fields, renamed (slots fields) s.member.toList = s.binding.toList) ∧
    (∀ name, (∀ s ∈ slots fields, s.member.toList ≠ name) → renamed (slots fields) name = name) ∧
    ((∀ f ∈ fields, f.name.isSome) → template.format = message) ∧
    ((∀ f ∈ fields, f.name = none) →
      (∀ place < fields.length, renamed (slots fields) (toString place).toList =
        ("field" ++ toString place).toList) ∧
      ∀ name, (∀ place < fields.length, name ≠ (toString place).toList) →
        renamed (slots fields) name = name) ∧
    template.mentioned =
      (slots fields).filter (fun s => s.member.toList ∈ Message.names pieces) ∧
    (∀ s ∈ template.mentioned,
      s.binding.toList ∈ Message.names (Message.scan template.format.toList)) ∧
    (∀ name ∈ Message.names pieces, renamed (slots fields) name ≠ name →
      ∃ s ∈ template.mentioned, s.member.toList = name ∧
        renamed (slots fields) name = s.binding.toList) ∧
    ∀ item implementations, expand item = .ok implementations →
      ∃ arms rest, implementations = .display arms :: rest ∧
        List.Forall₂ (fun p arm => p.message = .text message → p.fields = fields →
          arm.template = template ∧ arm.locals = template.mentioned.map (·.binding))
          item.parts arms := by
  intro template pieces
  refine ⟨scan_format, fun _ => renamed_member hnames, fun _ => renamed_of_other, format_of_named,
    renamed_of_unnamed hnames, mentioned_eq_filter hnames, fun _ => binding_mem_names hnames, ?_, ?_⟩
  · intro name hname hchanged
    rcases renamed_cases (slots fields) name with ⟨-, heq⟩ | ⟨s, hs, hmember, heq⟩
    · exact absurd heq hchanged
    · refine ⟨s, mem_mentioned_iff.mpr ⟨?_, hmember ▸ hname⟩, hmember, heq⟩
      rw [firsts_eq_self hnames]
      exact hs
  · intro item implementations h
    obtain ⟨-, codes, hcodes, rfl⟩ := exists_codes h
    refine ⟨_, _, rfl, (forall₂_arms hcodes).imp ?_⟩
    rintro p arm ⟨text, htext, rfl⟩ hmessage rfl
    cases htext.symm.trans hmessage
    exact ⟨rfl, rfl⟩

def twoPlaces : List Field := [⟨none, "u8", []⟩, ⟨none, "u16", []⟩]

def ratio : String := "\x7b1:?\x7d of \x7b01\x7d, \x7b\x7b0\x7d"

def ratioTemplate : Template :=
  ⟨"\x7bfield1:?\x7d of \x7b01\x7d, \x7b\x7b0\x7d", [⟨"1", "field1", "u16", false, false⟩]⟩

theorem ofMessage_renames_and_binds_twoPlaces :
    Template.ofMessage ratio (slots twoPlaces) = ratioTemplate ∧
      Message.scan ratioTemplate.format.toList =
        Message.rename (renamed (slots twoPlaces)) (Message.scan ratio.toList) := by
  have htemplate : Template.ofMessage ratio (slots twoPlaces) = ratioTemplate := by decide +kernel
  have hscan := (ofMessage_renames_and_binds ratio twoPlaces (by decide +kernel)).1
  rw [htemplate] at hscan
  exact ⟨htemplate, hscan⟩

end ScriptHost.ErrorDerive

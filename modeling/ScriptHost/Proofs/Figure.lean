import Mathlib.Algebra.Ring.Nat
import ScriptHost.Codec.Layout
import ScriptHost.Heap.Tree
import ScriptHost.Proofs.Hexadecimal
import ScriptHost.Proofs.Numerals

/-!
# ScriptHost.Proofs.Figure

What an item looks like when all of it is drawn. A `Figure` is a finite tree of values; a node in
a map stands under a key, which is no node of its own. `lines` writes a figure by recursion: the
line of the node, then the lines of the nodes inside it, one level deeper. That text can be read
back: a line tells its node and how many nodes are inside (`line_inj`), so the lines in front of a
text tell a figure and leave the others (`flatMap_lines_inj`), and no two figures have one text
(`text_inj`).
-/

namespace ScriptHost

open Text

/-- A value as it is drawn: a leaf, perhaps a reference of the host, or a container around other
figures; in a map, each has its key for a label. -/
inductive Figure
  | leaf (label : Option Key) (value : Key ⊕ HostRef)
  | container (label : Option Key) (kind : ContainerKind) (parts : List Figure)

namespace Figure

def label : Figure → Option Key
  | leaf label _ | container label _ _ => label

/-- The figures directly inside this one. -/
def parts : Figure → List Figure
  | leaf _ _ => []
  | container _ _ parts => parts

/-- Induction on a list of figures along their nodes: what is inside the first figure comes before
the other figures. -/
theorem forestInduct {motive : List Figure → Prop} (nil : motive [])
    (cons : ∀ f fs, motive f.parts → motive fs → motive (f :: fs)) (fs : List Figure) :
    motive fs :=
  match fs with
  | [] => nil
  | .leaf label value :: fs => cons (.leaf label value) fs nil (forestInduct nil cons fs)
  | .container label kind parts :: fs =>
    cons (.container label kind parts) fs (forestInduct nil cons parts) (forestInduct nil cons fs)

/-- The number of nodes. -/
def size : Figure → Nat
  | leaf _ _ => 1
  | container _ _ parts => 1 + (parts.map size).sum

theorem size_eq (f : Figure) : f.size = 1 + (f.parts.map size).sum := by
  cases f with
  | leaf label value => simp [size, parts]
  | container label kind parts => rw [size, Figure.parts]

/-! ## The recursive text -/

/-- What stands in front of a node: its key, if it has one. -/
def heading : Option Key → String
  | none => ""
  | some k => k.shown ++ " => "

/-- The word for a node of this kind. -/
def word : Figure → String
  | leaf _ (.inl (.bytes _)) => "ByteArray"
  | leaf _ (.inl (.boolean _)) => "Boolean"
  | leaf _ (.inl (.integer _)) => "Integer"
  | leaf _ (.inr _) => "Interop"
  | container _ .array _ => "Array"
  | container _ .struct _ => "Struct"
  | container _ .map _ => "Map"

/-- The value of a leaf, or how many nodes are directly inside a container. -/
def detail : Figure → String
  | leaf _ (.inl k) => k.shown
  | leaf _ (.inr r) => "#" ++ Decimal.ofNat r.number.toNat
  | container _ _ parts => "(" ++ Decimal.ofNat parts.length ++ ")"

/-- The line of the node itself, two blanks further to the right for each level. -/
def line (depth : Nat) (f : Figure) : String :=
  Branch.indent depth ++ (heading f.label ++ (f.word ++ (" " ++ f.detail)))

/-- The line of the node, and behind it the lines of all that is inside. -/
def lines : Figure → Nat → List String
  | leaf label value, depth => [(leaf label value).line depth]
  | container label kind parts, depth =>
    (container label kind parts).line depth :: parts.flatMap fun p => p.lines (depth + 1)

/-- The lines of the whole figure, each ended. -/
def text (f : Figure) : String := String.join ((f.lines 0).map (· ++ "\n"))

theorem lines_eq (f : Figure) (depth : Nat) :
    f.lines depth = f.line depth :: f.parts.flatMap fun p => p.lines (depth + 1) := by
  cases f with
  | leaf label value => rw [lines, parts, List.flatMap_nil]
  | container label kind parts => rw [lines, Figure.parts]

/-- There is one line for each node. -/
theorem length_flatMap_lines (fs : List Figure) (depth : Nat) :
    (fs.flatMap fun f => f.lines depth).length = (fs.map size).sum := by
  induction fs using forestInduct generalizing depth with
  | nil => rfl
  | cons f fs ihparts ihfs =>
    rw [List.flatMap_cons, List.length_append, ihfs, lines_eq, List.length_cons, ihparts,
      List.map_cons, List.sum_cons, size_eq, Nat.add_comm 1]

/-! ## The characters of a line -/

theorem toNat_of_isDigit {c : Char} (h : c.isDigit = true) : 48 ≤ c.toNat ∧ c.toNat ≤ 57 := by
  simp only [Char.isDigit, Bool.and_eq_true, decide_eq_true_eq, ge_iff_le,
    UInt32.le_iff_toNat_le] at h
  exact h

theorem toNat_of_mem_encode {b : Bytes} {c : Char} (h : c ∈ (Hex.encode b).toList) :
    48 ≤ c.toNat ∧ c.toNat ≤ 57 ∨ 97 ≤ c.toNat ∧ c.toNat ≤ 102 := by
  rw [Hex.encode, String.toList_ofList, Hex.digits_eq_map] at h
  obtain ⟨n, hn, rfl⟩ := List.mem_map.mp h
  have hlt := Hex.lt_of_mem_nibbles hn
  rw [Hex.toNat_digit hlt]
  simp only [UInt8.lt_iff_toNat_lt, UInt8.reduceToNat] at hlt ⊢
  split <;> omega

/-- In the text of a key there are neither blanks nor capitals. -/
theorem toNat_of_mem_shown {k : Key} {c : Char} (h : c ∈ k.shown.toList) :
    32 < c.toNat ∧ ¬(65 ≤ c.toNat ∧ c.toNat ≤ 90) := by
  cases k with
  | bytes b =>
    rw [Key.shown, String.toList_append, List.mem_append] at h
    rcases h with h | h
    · revert c
      simp
    · have := toNat_of_mem_encode h
      omega
  | boolean v =>
    revert c
    cases v <;> simp [Key.shown]
  | integer n =>
    rcases Decimal.mem_ofInt h with rfl | hdigit
    · decide
    · have := toNat_of_isDigit hdigit
      omega

theorem shown_ne_nil (k : Key) : k.shown.toList ≠ [] := by
  cases k with
  | bytes b => simp [Key.shown]
  | boolean v => cases v <;> decide
  | integer n =>
    rw [Key.shown, Decimal.ofInt]
    split
    · simp
    · exact Decimal.ofNat_ne_empty _

theorem shown_inj {k l : Key} (h : k.shown = l.shown) : k = l := by
  -- There are no letters in a number.
  have lettered {n : Int} {text : String} (htext : 'x' ∈ text.toList ∨ 'e' ∈ text.toList) :
      Decimal.ofInt n ≠ text := by
    rintro rfl
    rcases htext with hmem | hmem <;> exact absurd (Decimal.mem_ofInt hmem) (by decide)
  have bytes (b : Bytes) : 'x' ∈ ((Key.bytes b).shown).toList := by simp [Key.shown]
  have boolean (v : Bool) : 'e' ∈ ((Key.boolean v).shown).toList := by cases v <;> decide
  have apart (b : Bytes) (v : Bool) : (Key.bytes b).shown ≠ (Key.boolean v).shown := by
    intro heq
    have hmem := bytes b
    rw [heq] at hmem
    revert hmem
    cases v <;> decide
  cases k with
  | bytes b =>
    cases l with
    | bytes b' => rw [Hex.encode_inj (String.append_right_inj _ |>.mp h)]
    | boolean v => exact absurd h (apart b v)
    | integer n => exact absurd h.symm (lettered (.inl (bytes b)))
  | boolean v =>
    cases l with
    | bytes b => exact absurd h.symm (apart b v)
    | boolean v' =>
      revert h
      cases v <;> cases v' <;> decide
    | integer n => exact absurd h.symm (lettered (.inr (boolean v)))
  | integer n =>
    cases l with
    | bytes b => exact absurd h (lettered (.inl (bytes b)))
    | boolean v => exact absurd h (lettered (.inr (boolean v)))
    | integer n' => rw [Decimal.ofInt_inj h]

/-- Characters that leave a mark: among them there are neither blanks nor ends of lines. -/
def Inked (cs : List Char) : Prop := ∀ c ∈ cs, 32 < c.toNat

theorem Inked.not_mem {cs : List Char} {a : Char} (h : Inked cs) (ha : a.toNat ≤ 32) : a ∉ cs :=
  fun hm => absurd (h a hm) (Nat.not_lt.mpr ha)

theorem inked_shown (k : Key) : Inked k.shown.toList :=
  fun _ hc => (toNat_of_mem_shown hc).1

theorem inked_detail (f : Figure) : Inked f.detail.toList := by
  have number (n : Nat) : Inked (Decimal.ofNat n).toList := by
    intro c hc
    have := toNat_of_isDigit (Decimal.isDigit_of_mem_ofNat hc)
    omega
  have mark : Inked "#()".toList := by simp [Inked]
  intro c h
  cases f with
  | leaf label value =>
    cases value with
    | inl k => exact inked_shown k c h
    | inr r =>
      simp only [detail, String.toList_append, List.mem_append] at h
      rcases h with h | h
      · exact mark c (by simp_all)
      · exact number _ c h
  | container label kind parts =>
    simp only [detail, String.toList_append, List.mem_append] at h
    rcases h with (h | h) | h
    · exact mark c (by simp_all)
    · exact number _ c h
    · exact mark c (by simp_all)

/-- All the words for nodes. -/
def words : List String :=
  ["ByteArray", "Boolean", "Integer", "Interop", "Array", "Struct", "Map"]

theorem word_mem_words (f : Figure) : f.word ∈ words := by
  rcases f with ⟨label, (_ | _ | _) | r⟩ | ⟨label, _ | _ | _, parts⟩ <;> simp [word, words]

theorem inked_word (f : Figure) : Inked f.word.toList := by
  have all : ∀ w ∈ words, Inked w.toList := by simp [words, Inked]
  exact all f.word f.word_mem_words

/-- The word for a node begins with a capital. -/
theorem word_eq_cons (f : Figure) :
    ∃ c cs, f.word.toList = c :: cs ∧ 65 ≤ c.toNat ∧ c.toNat ≤ 90 := by
  have all : ∀ w ∈ words, ∃ c cs, w.toList = c :: cs ∧ 65 ≤ c.toNat ∧ c.toNat ≤ 90 := by
    simp [words]
  exact all f.word f.word_mem_words

/-! ## Reading a line -/

variable {α : Type}

/-- Two lists are cut in the same way where they first hold the same member. -/
theorem cut_inj {a : α} {xs ys xs' ys' : List α} (hx : a ∉ xs) (hy : a ∉ ys)
    (h : xs ++ a :: xs' = ys ++ a :: ys') : xs = ys ∧ xs' = ys' := by
  induction xs generalizing ys with
  | nil =>
    cases ys with
    | nil => exact ⟨rfl, (List.cons.inj h).2⟩
    | cons y ys =>
      obtain ⟨rfl, _⟩ := List.cons.inj h
      exact absurd List.mem_cons_self hy
  | cons x xs ih =>
    cases ys with
    | nil =>
      obtain ⟨rfl, _⟩ := List.cons.inj h
      exact absurd List.mem_cons_self hx
    | cons y ys =>
      obtain ⟨rfl, htail⟩ := List.cons.inj h
      obtain ⟨rfl, hrest⟩ := ih (fun hm => hx (List.mem_cons_of_mem _ hm))
        (fun hm => hy (List.mem_cons_of_mem _ hm)) htail
      exact ⟨rfl, hrest⟩

/-- What stands in a line behind the indentation. -/
theorem toList_line (depth : Nat) (f : Figure) :
    (f.line depth).toList = List.replicate (2 * depth) ' ' ++
      ((heading f.label).toList ++ (f.word.toList ++ ' ' :: f.detail.toList)) := by
  simp [line, Branch.indent]

theorem toList_heading_none : (heading none).toList = [] := rfl

theorem toList_heading_some (k : Key) :
    (heading (some k)).toList = k.shown.toList ++ ' ' :: "=> ".toList := by
  simp [heading]

/-- What stands in front of the first blank is told from what stands behind it. -/
theorem Inked.cut_inj {xs ys xs' ys' : List Char} (hx : Inked xs) (hy : Inked ys)
    (h : xs ++ ' ' :: xs' = ys ++ ' ' :: ys') : xs = ys ∧ xs' = ys' :=
  Figure.cut_inj (hx.not_mem (by decide)) (hy.not_mem (by decide)) h

/-- A line with a key in front does not begin with a capital, as one without does. -/
theorem word_append_ne (f : Figure) (k : Key) (xs ys : List Char) :
    f.word.toList ++ xs ≠ k.shown.toList ++ ys := by
  intro heq
  obtain ⟨c, cs, hc, hcapital⟩ := f.word_eq_cons
  obtain ⟨d, ds, hd⟩ := List.exists_cons_of_ne_nil (shown_ne_nil k)
  rw [hc, hd] at heq
  obtain ⟨rfl, _⟩ := List.cons.inj heq
  exact (toNat_of_mem_shown (hd ▸ List.mem_cons_self)).2 hcapital

theorem word_detail_inj {f g : Figure}
    (h : f.word.toList ++ ' ' :: f.detail.toList = g.word.toList ++ ' ' :: g.detail.toList) :
    f.word = g.word ∧ f.detail = g.detail := by
  obtain ⟨hword, hdetail⟩ := f.inked_word.cut_inj g.inked_word h
  exact ⟨String.toList_inj.mp hword, String.toList_inj.mp hdetail⟩

/-- A line tells the key, the kind, and the value or the count. -/
theorem line_inj {f g : Figure} {depth : Nat} (h : f.line depth = g.line depth) :
    f.label = g.label ∧ f.word = g.word ∧ f.detail = g.detail := by
  have hlist := congrArg String.toList h
  rw [toList_line, toList_line, List.append_cancel_left_eq] at hlist
  cases hf : f.label with
  | none =>
    rw [hf, toList_heading_none, List.nil_append] at hlist
    cases hg : g.label with
    | none =>
      rw [hg, toList_heading_none, List.nil_append] at hlist
      exact ⟨rfl, word_detail_inj hlist⟩
    | some k =>
      rw [hg, toList_heading_some, List.append_assoc] at hlist
      exact absurd hlist (word_append_ne f k _ _)
  | some k =>
    rw [hf, toList_heading_some, List.append_assoc, List.cons_append] at hlist
    cases hg : g.label with
    | none =>
      rw [hg, toList_heading_none, List.nil_append] at hlist
      exact absurd hlist.symm (word_append_ne g k _ _)
    | some l =>
      rw [hg, toList_heading_some, List.append_assoc, List.cons_append] at hlist
      obtain ⟨hshown, hrest⟩ := (inked_shown k).cut_inj (inked_shown l) hlist
      exact ⟨congrArg some (shown_inj (String.toList_inj.mp hshown)),
        word_detail_inj (List.append_cancel_left hrest)⟩

/-! ## Reading a text -/

theorem word_leaf_ne (label label' : Option Key) (value : Key ⊕ HostRef) (kind : ContainerKind)
    (parts : List Figure) : (leaf label value).word ≠ (container label' kind parts).word := by
  rcases value with (_ | _ | _) | _ <;> cases kind <;> simp [word]

theorem length_parts_eq {f g : Figure} (hword : f.word = g.word) (hdetail : f.detail = g.detail) :
    f.parts.length = g.parts.length := by
  cases f with
  | leaf label value =>
    cases g with
    | leaf label' value' => rfl
    | container label' kind' parts' => exact absurd hword (word_leaf_ne _ _ _ _ _)
  | container label kind parts =>
    cases g with
    | leaf label' value' => exact absurd hword.symm (word_leaf_ne _ _ _ _ _)
    | container label' kind' parts' =>
      simp only [detail, String.append_assoc, String.append_right_inj, String.append_left_inj]
        at hdetail
      exact Decimal.ofNat_inj hdetail

/-- What a node says of itself and what is inside it make the figure. -/
theorem eq_of_told {f g : Figure} (hlabel : f.label = g.label) (hword : f.word = g.word)
    (hdetail : f.detail = g.detail) (hparts : f.parts = g.parts) : f = g := by
  cases f with
  | leaf label value =>
    cases g with
    | leaf label' value' =>
      obtain rfl : label = label' := hlabel
      cases value with
      | inl k =>
        cases value' with
        | inl l => rw [shown_inj (show k.shown = l.shown from hdetail)]
        | inr r => cases k <;> simp [word] at hword
      | inr r =>
        cases value' with
        | inl l => cases l <;> simp [word] at hword
        | inr r' =>
          have hnumber : r.number.toNat = r'.number.toNat :=
            Decimal.ofNat_inj (String.append_right_inj _ |>.mp hdetail)
          obtain ⟨number⟩ := r
          obtain ⟨number'⟩ := r'
          obtain rfl : number = number' := UInt64.toNat_inj.mp hnumber
          rfl
    | container label' kind' parts' => exact absurd hword (word_leaf_ne _ _ _ _ _)
  | container label kind parts =>
    cases g with
    | leaf label' value' => exact absurd hword.symm (word_leaf_ne _ _ _ _ _)
    | container label' kind' parts' =>
      obtain rfl : label = label' := hlabel
      obtain rfl : parts = parts' := hparts
      have hkind : kind = kind' := by
        cases kind <;> cases kind' <;> simp [word] at hword ⊢
      rw [hkind]

/-- As many figures, one after the other, are told from the lines in front. -/
theorem flatMap_lines_inj {fs gs : List Figure} {depth : Nat} {rest rest' : List String}
    (hlen : fs.length = gs.length)
    (h : fs.flatMap (fun f => f.lines depth) ++ rest = gs.flatMap (fun g => g.lines depth) ++ rest') :
    fs = gs ∧ rest = rest' := by
  induction fs using forestInduct generalizing gs depth rest rest' with
  | nil =>
    rw [List.eq_nil_of_length_eq_zero hlen.symm] at h ⊢
    exact ⟨rfl, h⟩
  | cons f fs ihparts ihfs =>
    obtain ⟨g, gs, rfl⟩ := List.exists_cons_of_length_eq_add_one hlen.symm
    simp only [List.flatMap_cons, lines_eq f, lines_eq g, List.cons_append, List.append_assoc,
      List.cons.injEq] at h
    obtain ⟨hline, h⟩ := h
    obtain ⟨hlabel, hword, hdetail⟩ := line_inj hline
    obtain ⟨hparts, h⟩ := ihparts (length_parts_eq hword hdetail) h
    obtain ⟨rfl, hrest⟩ := ihfs (by simpa using hlen) h
    exact ⟨by rw [eq_of_told hlabel hword hdetail hparts], hrest⟩

theorem newline_not_mem_line (depth : Nat) (f : Figure) : '\n' ∉ (f.line depth).toList := by
  have hheading : '\n' ∉ (heading f.label).toList := by
    cases f.label with
    | none => simp [toList_heading_none]
    | some k =>
      rw [toList_heading_some, List.mem_append, not_or]
      exact ⟨(inked_shown k).not_mem (by decide), by decide⟩
  have hword : '\n' ∉ f.word.toList := f.inked_word.not_mem (by decide)
  have hdetail : '\n' ∉ f.detail.toList := f.inked_detail.not_mem (by decide)
  simp [toList_line, hheading, hword, hdetail]

theorem newline_not_mem_lines (fs : List Figure) (depth : Nat) :
    ∀ l ∈ fs.flatMap (fun f => f.lines depth), '\n' ∉ l.toList := by
  induction fs using forestInduct generalizing depth with
  | nil => simp
  | cons f fs ihparts ihfs =>
    intro l hl
    rw [List.flatMap_cons, lines_eq, List.cons_append, List.mem_cons, List.mem_append] at hl
    rcases hl with rfl | hl | hl
    · exact newline_not_mem_line depth f
    · exact ihparts _ l hl
    · exact ihfs _ l hl

theorem count_ended {ls : List String} (h : ∀ l ∈ ls, '\n' ∉ l.toList) :
    (String.join (ls.map (· ++ "\n"))).toList.count '\n' = ls.length := by
  induction ls with
  | nil => rfl
  | cons l ls ih =>
    have hl : l.toList.count '\n' = 0 := List.count_eq_zero.mpr (h l List.mem_cons_self)
    have hrest := ih fun m hm => h m (List.mem_cons_of_mem _ hm)
    rw [List.map_cons, String.join_cons, String.toList_append, String.toList_append,
      List.count_append, List.count_append, hl, hrest, List.length_cons, Nat.add_comm]
    rfl

/-- Lines can be told from the text that ends each of them. -/
theorem ended_inj {ls ms : List String} (hls : ∀ l ∈ ls, '\n' ∉ l.toList)
    (hms : ∀ m ∈ ms, '\n' ∉ m.toList)
    (h : String.join (ls.map (· ++ "\n")) = String.join (ms.map (· ++ "\n"))) : ls = ms := by
  have hlist := congrArg String.toList h
  simp only [String.toList_join, List.flatMap_map, String.toList_append] at hlist
  clear h
  induction ls generalizing ms with
  | nil =>
    cases ms with
    | nil => rfl
    | cons m ms => simp at hlist
  | cons l ls ih =>
    cases ms with
    | nil => simp at hlist
    | cons m ms =>
      rw [List.flatMap_cons, List.flatMap_cons, List.append_assoc, List.append_assoc] at hlist
      obtain ⟨hl, hrest⟩ := cut_inj (hls l List.mem_cons_self) (hms m List.mem_cons_self) hlist
      rw [String.toList_inj.mp hl, ih (fun l hl => hls l (List.mem_cons_of_mem _ hl))
        (fun m hm => hms m (List.mem_cons_of_mem _ hm)) hrest]

/-- A text has as many lines as the figure has nodes. -/
theorem count_text (f : Figure) : f.text.toList.count '\n' = f.size := by
  have hall := newline_not_mem_lines [f] 0
  have hlen := length_flatMap_lines [f] 0
  rw [List.flatMap_singleton] at hall hlen
  rw [text, count_ended hall, hlen]
  simp

theorem text_inj {f g : Figure} (h : f.text = g.text) : f = g := by
  have hlines : [f].flatMap (fun f => f.lines 0) = [g].flatMap (fun g => g.lines 0) := by
    refine ended_inj (newline_not_mem_lines [f] 0) (newline_not_mem_lines [g] 0) ?_
    simpa [text] using h
  have hsame : [f] = [g] ∧ ([] : List String) = [] := flatMap_lines_inj rfl (by rw [hlines])
  exact List.singleton_inj.mp hsame.1

end Figure

end ScriptHost

import ScriptHost.Proofs.Decoding
import ScriptHost.Proofs.Indentation
import ScriptHost.Proofs.Places

/-!
# ScriptHost.Proofs.Drawing

Drawing an item draws its figure. `Depicts` says of which figure an item is the root, when all of
its handles are followed; there is one if that comes to an end and no handle is bad
(`exists_depicts`). Drawing keeps a list of branches. It takes the foremost, writes its line and puts
the branches inside it in front of the others, so what is written for branches side by side is the
lines of their figures (`draw_figures`). It never takes a branch for endless, since the containers
around a branch are all different (`Nested`), and there are only so many.
-/

namespace ScriptHost

/-- What a leaf holds; a container is none. -/
def Item.leaf? : Item → Option (Key ⊕ HostRef)
  | bytes b => some (.inl (.bytes b))
  | boolean v => some (.inl (.boolean v))
  | integer n => some (.inl (.integer n))
  | host r => some (.inr r)
  | array _ | struct _ | map _ => none

namespace Heap

/-- Handles can be followed from the item: none is bad, and nothing is come by again inside
itself. -/
structure Grounded (heap : Heap) (x : Item) : Prop where
  whole : heap.Whole x
  acyclic : ∀ y, heap.Reaches x y → ¬heap.Cyclic y

/-- Following all handles from the item gives the figure. In a map, each value has its key for a
label. -/
inductive Depicts (heap : Heap) : Option Key → Item → Figure → Prop
  | leaf {label : Option Key} {x : Item} {value : Key ⊕ HostRef} :
      x.leaf? = some value → heap.Depicts label x (.leaf label value)
  | array {label : Option Key} {h : ArrayRef} {xs : List Item} {fs : List Figure} :
      heap.items h = .ok xs → List.Forall₂ (heap.Depicts none) xs fs →
      heap.Depicts label (.array h) (.container label .array fs)
  | struct {label : Option Key} {h : ArrayRef} {xs : List Item} {fs : List Figure} :
      heap.items h = .ok xs → List.Forall₂ (heap.Depicts none) xs fs →
      heap.Depicts label (.struct h) (.container label .struct fs)
  | map {label : Option Key} {h : MapRef} {es : Entries} {fs : List Figure} :
      heap.entries h = .ok es →
      List.Forall₂ (fun e f => heap.Depicts (some e.1) e.2 f) es.pairs fs →
      heap.Depicts label (.map h) (.container label .map fs)

variable {heap : Heap} {x y : Item}

theorem Grounded.of_holds (h : heap.Grounded x) (hy : heap.Holds x y) : heap.Grounded y where
  whole := h.whole.of_holds hy
  acyclic := fun z hz => h.acyclic z (.head hy hz)

theorem Unfolds.grounded {t : Content} (h : heap.Unfolds x t) : heap.Grounded x :=
  ⟨h.unfoldable.resolves, h.unfoldable.acyclic⟩

theorem exists_depicts (h : heap.Grounded x) (label : Option Key) :
    ∃ f, heap.Depicts label x f := by
  refine acyclicInduct (motive := fun y => ∀ label, ∃ f, heap.Depicts label y f) h.acyclic ?_
    .refl label
  intro y hy ih label
  have hres : heap.Resolves y := h.whole y hy
  cases y with
  | bytes b => exact ⟨_, .leaf rfl⟩
  | boolean v => exact ⟨_, .leaf rfl⟩
  | integer n => exact ⟨_, .leaf rfl⟩
  | host r => exact ⟨_, .leaf rfl⟩
  | array a =>
    obtain ⟨xs, hxs⟩ := hres
    obtain ⟨fs, hfs⟩ := exists_forall₂ fun z hz => ih z (.array hxs hz) none
    exact ⟨_, .array hxs hfs⟩
  | struct a =>
    obtain ⟨xs, hxs⟩ := hres
    obtain ⟨fs, hfs⟩ := exists_forall₂ fun z hz => ih z (.struct hxs hz) none
    exact ⟨_, .struct hxs hfs⟩
  | map m =>
    obtain ⟨es, hes⟩ := hres
    obtain ⟨fs, hfs⟩ := exists_forall₂ fun (e : Key × Item) (he : e ∈ es.pairs) =>
      ih e.2 (.map hes (List.mem_map_of_mem he)) (some e.1)
    exact ⟨_, .map hes hfs⟩

/-! ## The containers around a branch -/

/-- The item stands inside `depth` containers of the heap, all of them different. -/
def Nested (heap : Heap) (depth : Nat) (x : Item) : Prop :=
  ∃ around : List (ArrayRef ⊕ MapRef), around.Nodup ∧ around.length = depth ∧
    ∀ s ∈ around, heap.Has s ∧ ∃ y, y.slot? = some s ∧ heap.Contains y x

theorem nested_zero (heap : Heap) (x : Item) : heap.Nested 0 x :=
  ⟨[], List.nodup_nil, rfl, by simp⟩

theorem Nested.inside {depth : Nat} (h : heap.Nested depth x) (hx : heap.Grounded x)
    (hy : heap.Holds x y) : heap.Nested (depth + 1) y := by
  obtain ⟨around, hnodup, hlen, hall⟩ := h
  obtain ⟨s, hs⟩ := exists_slot?_of_holds hy
  have hhas : heap.Has s := resolves_iff.mp hx.whole.resolves s hs
  refine ⟨s :: around, List.nodup_cons.mpr ⟨?_, hnodup⟩, by rw [List.length_cons, hlen], ?_⟩
  · -- A container around `x` at the place of `x` would make a cycle.
    intro hmem
    obtain ⟨_, z, hz, hzx⟩ := hall s hmem
    exact hx.acyclic x .refl ⟨x, hzx.congr (hs.trans hz.symm), rfl⟩
  · intro s' hs'
    rcases List.mem_cons.mp hs' with rfl | hs'
    · exact ⟨hhas, x, hs, .single hy⟩
    · obtain ⟨hhas', z, hz, hzx⟩ := hall s' hs'
      exact ⟨hhas', z, hz, hzx.tail hy⟩

/-- The number of a place among all, those of maps behind the others. -/
def placeNumber (heap : Heap) : ArrayRef ⊕ MapRef → Nat
  | .inl a => a.index.toNat
  | .inr m => heap.arrays.size + m.index.toNat

theorem placeNumber_lt {s : ArrayRef ⊕ MapRef} (h : heap.Has s) :
    heap.placeNumber s < heap.size := by
  cases s <;> simp only [Has, placeNumber, size] at h ⊢ <;> omega

theorem placeNumber_inj {s s' : ArrayRef ⊕ MapRef} (h : heap.Has s) (h' : heap.Has s')
    (heq : heap.placeNumber s = heap.placeNumber s') : s = s' := by
  rcases s with a | m <;> rcases s' with b | n <;> simp only [Has, placeNumber] at h h' heq
  · rw [Sum.inl.injEq, ArrayRef.mk.injEq, ← UInt32.toNat_inj]
    exact heq
  · omega
  · omega
  · rw [Sum.inr.injEq, MapRef.mk.injEq, ← UInt32.toNat_inj]
    omega

theorem Nested.le_size {depth : Nat} (h : heap.Nested depth x) : depth ≤ heap.size := by
  obtain ⟨around, hnodup, rfl, hall⟩ := h
  have hnumbers : (around.map heap.placeNumber).Nodup := by
    refine List.Nodup.map_on ?_ hnodup
    intro s hs s' hs'
    exact placeNumber_inj (hall s hs).1 (hall s' hs').1
  have hrange : around.map heap.placeNumber ⊆ List.range heap.size := by
    intro n hn
    obtain ⟨s, hs, rfl⟩ := List.mem_map.mp hn
    exact List.mem_range.mpr (placeNumber_lt (hall s hs).1)
  simpa using hnumbers.length_le_of_subset hrange

/-! ## Drawing -/

variable {b : Branch} {f : Figure} {fs : List Figure} {depth : Nat}

theorem Depicts.caption_eq {label : Option Key} (h : heap.Depicts label x f) :
    Branch.caption f.parts.length x = f.word ++ (" " ++ f.detail) := by
  cases h with
  | leaf hleaf =>
    cases x <;> cases hleaf <;>
      simp [Branch.caption, Figure.word, Figure.detail, Key.shown, ← String.toList_inj]
  | array _ _ =>
    simp [Branch.caption, Figure.word, Figure.detail, Figure.parts, Item.kindName,
      ← String.toList_inj]
  | struct _ _ =>
    simp [Branch.caption, Figure.word, Figure.detail, Figure.parts, Item.kindName,
      ← String.toList_inj]
  | map _ _ =>
    simp [Branch.caption, Figure.word, Figure.detail, Figure.parts, Item.kindName,
      ← String.toList_inj]

theorem Depicts.label_eq {label : Option Key} (h : heap.Depicts label x f) : f.label = label := by
  cases h <;> rfl

theorem Depicts.line_eq (h : heap.Depicts b.label b.item f) :
    b.line f.parts.length = f.line b.depth := by
  obtain ⟨depth, label, x⟩ := b
  rw [Branch.line, Figure.line, h.label_eq, ← h.caption_eq]
  cases label with
  | none => simp [Figure.heading]
  | some k => simp [Figure.heading, String.append_assoc]

/-- The branch lies at that level, and the figure is that of its item. -/
structure Shows (heap : Heap) (depth : Nat) (b : Branch) (f : Figure) : Prop where
  depth_eq : b.depth = depth
  depicts : heap.Depicts b.label b.item f
  grounded : heap.Grounded b.item
  nested : heap.Nested depth b.item

theorem Shows.of_holds (h : heap.Shows depth b f) {label : Option Key} {g : Figure}
    (hy : heap.Holds b.item y) (hg : heap.Depicts label y g) :
    heap.Shows (depth + 1) ⟨b.depth + 1, label, y⟩ g :=
  ⟨congrArg (· + 1) h.depth_eq, hg, h.grounded.of_holds hy, h.nested.inside h.grounded hy⟩

/-- The branches inside one show the figures inside its own. -/
theorem Shows.inside (h : heap.Shows depth b f) :
    ∃ bs, b.inside heap = .ok bs ∧ List.Forall₂ (heap.Shows (depth + 1)) bs f.parts := by
  obtain ⟨level, label, x⟩ := b
  cases h.depicts with
  | leaf hleaf => exact ⟨[], by cases x <;> cases hleaf <;> rfl, .nil⟩
  | @array _ _ xs _ hxs hfs =>
    refine ⟨xs.map fun y => ⟨level + 1, none, y⟩, by simp only [Branch.inside, hxs], ?_⟩
    exact List.forall₂_map_left_iff.mpr
      (forall₂_imp_of_mem hfs fun y hy g _ hg => h.of_holds (.array hxs hy) hg)
  | @struct _ _ xs _ hxs hfs =>
    refine ⟨xs.map fun y => ⟨level + 1, none, y⟩, by simp only [Branch.inside, hxs], ?_⟩
    exact List.forall₂_map_left_iff.mpr
      (forall₂_imp_of_mem hfs fun y hy g _ hg => h.of_holds (.struct hxs hy) hg)
  | @map _ _ es _ hes hfs =>
    refine ⟨es.pairs.map fun e => ⟨level + 1, some e.1, e.2⟩, by simp only [Branch.inside, hes], ?_⟩
    exact List.forall₂_map_left_iff.mpr
      (forall₂_imp_of_mem hfs fun e he g _ hg => h.of_holds (.map hes (List.mem_map_of_mem he)) hg)

/-- Drawing goes through the branches in front, and writes the lines of the figures that they
show. -/
theorem draw_figures {bs : List Branch} (h : List.Forall₂ (heap.Shows depth) bs fs)
    (rest : List Branch) (drawn : List String) :
    Branch.draw heap (bs ++ rest) drawn =
      Branch.draw heap rest ((fs.flatMap fun f => f.lines depth).reverse ++ drawn) := by
  induction fs using Figure.forestInduct generalizing depth bs rest drawn with
  | nil =>
    cases h
    rfl
  | cons f fs ihparts ihfs =>
    cases h with
    | @cons b _ bs _ hb hbs =>
      obtain ⟨parts, hinside, hparts⟩ := hb.inside
      have hdepth : ¬heap.size < b.depth := by
        rw [hb.depth_eq]
        exact Nat.not_lt.mpr hb.nested.le_size
      have hline : b.line parts.length = f.line depth := by
        rw [hparts.length_eq, hb.depicts.line_eq, hb.depth_eq]
      rw [List.cons_append, Branch.draw, dif_neg hdepth]
      split
      · rename_i e herror
        rw [hinside] at herror
        cases herror
      · rename_i bs' hbs'
        rw [hinside] at hbs'
        cases hbs'
        rw [ihparts hparts, ihfs hbs, hline, List.flatMap_cons, f.lines_eq depth]
        simp

theorem tree_eq_text (h : heap.Grounded x) (hf : heap.Depicts none x f) :
    heap.tree x = .ok f.text := by
  have hroot : List.Forall₂ (heap.Shows 0) [⟨0, none, x⟩] [f] :=
    .cons ⟨rfl, hf, h, nested_zero heap x⟩ .nil
  have hdraw := draw_figures hroot [] []
  rw [List.append_nil, List.append_nil, List.flatMap_singleton, Branch.draw, List.reverse_reverse]
    at hdraw
  rw [tree, treeLines, hdraw]
  rfl

theorem grounded_of_decode {start : Heap} {data : Bytes} {limits : Limits}
    (hsize : data.length < UInt64.size) (h : decode start data limits = (.ok x, heap)) :
    heap.Grounded x := by
  obtain ⟨t, -, ht, -⟩ := decode_ok hsize h
  exact ht.grounded

end Heap

/-- An item from which handles can be followed to the end, as from every item that has been decoded,
is drawn, and the text is the recursive one of its figure: the line of the item, then what is drawn
of the items inside it, one level deeper. There is one line for each node, and each stands for a
node with as many nodes directly inside it as there are lines directly below; that number is in
the line if the node is a container. -/
theorem tree_follows_value (heap : Heap) (x : Item)
    (h : heap.Grounded x ∨ ∃ start data limits, data.length < UInt64.size ∧
      decode start data limits = (.ok x, heap)) :
    (∃! f, heap.Depicts none x f) ∧
      ∀ f, heap.Depicts none x f →
        heap.tree x = .ok f.text ∧
        (∀ line ∈ f.lines 0, '\n' ∉ line.toList) ∧ f.text.toList.count '\n' = f.size ∧
        ∀ before line after, f.lines 0 = before ++ line :: after →
          ∃ g : Figure, line = g.line (Figure.depthOf line) ∧
            g.parts.length = Figure.countBelow (Figure.depthOf line) after := by
  have hground : heap.Grounded x := by
    rcases h with hground | ⟨start, data, limits, hsize, hdecode⟩
    · exact hground
    · exact Heap.grounded_of_decode hsize hdecode
  refine ⟨?_, ?_⟩
  · obtain ⟨f, hf⟩ := Heap.exists_depicts hground none
    refine ⟨f, hf, fun g hg => ?_⟩
    -- No two figures have the text of the tree.
    have htext := Heap.tree_eq_text hground hg
    rw [Heap.tree_eq_text hground hf] at htext
    exact Figure.text_inj (Except.ok.inj htext).symm
  · intro f hf
    have hlines : [f].flatMap (fun f => f.lines 0) = f.lines 0 := List.flatMap_singleton ..
    refine ⟨Heap.tree_eq_text hground hf, ?_, f.count_text, ?_⟩
    · exact hlines ▸ Figure.newline_not_mem_lines [f] 0
    · intro before line after hsplit
      rw [← hlines] at hsplit
      have hrest : ∀ l ∈ ([] : List String).head?, Figure.depthOf l ≤ 0 := by simp
      obtain ⟨g, hline, hcount⟩ := Figure.lines_below hrest hsplit
      exact ⟨g, hline, by rwa [List.append_nil] at hcount⟩

/-- An array of a number, a byte string and a map. -/
def arrayOfThree : Bytes :=
  [0x80, 0x03, 0x02, 0x01, 0x01, 0x00, 0x01, 0xab, 0x82, 0x01, 0x01, 0x01, 0x02, 0x01, 0xff]

def arrayOfThreeHeap : Heap where
  arrays := #[[.integer 1, .bytes [0xab], .map ⟨0⟩]]
  maps := #[Entries.empty.insert (.boolean true) (.integer (-1))]

def arrayOfThreeFigure : Figure :=
  .container none .array [.leaf none (.inl (.integer 1)), .leaf none (.inl (.bytes [0xab])),
    .container none .map [.leaf (some (.boolean true)) (.inl (.integer (-1)))]]

theorem tree_follows_value_arrayOfThree :
    decode .empty arrayOfThree {} = (.ok (.array ⟨0⟩), arrayOfThreeHeap) ∧
      arrayOfThreeHeap.tree (.array ⟨0⟩) = .ok ("Array (3)\n" ++ "  Integer 1\n" ++
        "  ByteArray 0xab\n" ++ "  Map (1)\n" ++ "    true => Integer -1\n") ∧
      arrayOfThreeFigure.text.toList.count '\n' = 5 := by
  have hdecode : decode .empty arrayOfThree {} = (.ok (.array ⟨0⟩), arrayOfThreeHeap) := by
    decide +kernel
  have hfigure : arrayOfThreeHeap.Depicts none (.array ⟨0⟩) arrayOfThreeFigure :=
    .array rfl (.cons (.leaf rfl) (.cons (.leaf rfl)
      (.cons (.map rfl (.cons (.leaf rfl) .nil)) .nil)))
  obtain ⟨-, htree⟩ := tree_follows_value arrayOfThreeHeap (.array ⟨0⟩)
    (.inr ⟨.empty, arrayOfThree, {}, by decide, hdecode⟩)
  obtain ⟨htext, -, hcount, -⟩ := htree _ hfigure
  refine ⟨hdecode, ?_, ?_⟩
  · have hlines : arrayOfThreeFigure.lines 0 = ["Array (3)", "  Integer 1", "  ByteArray 0xab",
        "  Map (1)", "    true => Integer -1"] := by
      simp only [arrayOfThreeFigure, Figure.lines, List.flatMap_cons, List.flatMap_nil,
        List.append_nil, List.cons_append, List.nil_append]
      decide +kernel
    rw [htext, Figure.text, hlines]
    rfl
  · rw [hcount]
    simp [arrayOfThreeFigure, Figure.size]

end ScriptHost

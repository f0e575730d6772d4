import ScriptHost.Proofs.Drawing
import ScriptHost.Proofs.Relocation
import ScriptHost.Proofs.SameContent

/-!
# ScriptHost.Proofs.SameTree

The drawn text tells the content. Having one figure is a bisimulation (`Bisimilar.of_depicts`), and
an item has the figure of every item with the same content, however their containers are shared
(`Bisimilar.depicts`); since no two figures have one text, items have the same text exactly if they
have the same content (`tree_eq_iff`). That holds for all that has been decoded into a heap, for a
later decoding leaves everything in its place (`grounded_of_mem_decodeAll`).
-/

namespace ScriptHost

/-- Induction on figures: what holds inside of a figure goes over to it. -/
theorem Figure.induct {motive : Figure → Prop}
    (step : ∀ f, (∀ p ∈ f.parts, motive p) → motive f) (f : Figure) : motive f := by
  have forest : ∀ fs : List Figure, ∀ p ∈ fs, motive p := by
    intro fs
    induction fs using Figure.forestInduct with
    | nil => simp
    | cons f fs ihparts ihfs => exact List.forall_mem_cons.mpr ⟨step f ihparts, ihfs⟩
  exact forest [f] f List.mem_cons_self

namespace Heap

variable {heap : Heap} {a b : Item} {f : Figure}

/-- Figures with the keys in front: the keys of the entries, and the values drawn. -/
theorem forall₂_pairs_iff {es : List (Key × Item)} {fs : List Figure} :
    List.Forall₂ (fun e f => heap.Depicts (some e.1) e.2 f) es fs ↔
      (es.map (·.1)).map some = fs.map Figure.label ∧
        List.Forall₂ (fun x f => heap.Depicts f.label x f) (es.map (·.2)) fs := by
  induction es generalizing fs with
  | nil => cases fs <;> simp
  | cons e es ih =>
    cases fs with
    | nil => simp
    | cons f fs =>
      have hlabel : heap.Depicts (some e.1) e.2 f ↔
          some e.1 = f.label ∧ heap.Depicts f.label e.2 f := by
        constructor
        · intro h
          exact ⟨h.label_eq.symm, h.label_eq.symm ▸ h⟩
        · rintro ⟨heq, h⟩
          exact heq ▸ h
      simp only [List.forall₂_cons, List.map_cons, List.cons.injEq, ih, hlabel, and_and_and_comm]

/-- Items with one figure have the same content. -/
theorem Bisimilar.of_depicts {label : Option Key} (ha : heap.Depicts label a f)
    (hb : heap.Depicts label b f) : heap.Bisimilar a b := by
  refine ⟨fun x y => ∃ l g, heap.Depicts l x g ∧ heap.Depicts l y g, ?_, label, f, ha, hb⟩
  rintro x y ⟨l, g, hx, hy⟩
  have related {l : Figure → Option Key} {xs ys : List Item} {fs : List Figure}
      (hxs : List.Forall₂ (fun x f => heap.Depicts (l f) x f) xs fs)
      (hys : List.Forall₂ (fun y f => heap.Depicts (l f) y f) ys fs) :
      List.Forall₂ (fun x y => ∃ l g, heap.Depicts l x g ∧ heap.Depicts l y g) xs ys :=
    (forall₂_comp hxs hys.flip).imp fun _ _ ⟨f, hx, hy⟩ => ⟨l f, f, hx, hy⟩
  cases hx with
  | leaf hleaf =>
    cases hy with
    | leaf hleaf' =>
      obtain rfl : x = y := by
        cases x <;> cases hleaf <;> cases y <;> cases hleaf' <;> rfl
      exact .same (by cases x <;> first | rfl | cases hleaf)
  | array hxs hfs =>
    cases hy with
    | array hys hgs => exact .array hxs hys (related hfs hgs)
  | struct hxs hfs =>
    cases hy with
    | struct hys hgs => exact .struct hxs hys (related hfs hgs)
  | map hxs hfs =>
    cases hy with
    | map hys hgs =>
      obtain ⟨hkeys, hvalues⟩ := forall₂_pairs_iff.mp hfs
      obtain ⟨hkeys', hvalues'⟩ := forall₂_pairs_iff.mp hgs
      have hsame := (List.map_injective_iff.mpr (Option.some_injective Key))
        (hkeys.trans hkeys'.symm)
      exact .map hxs hys hsame (related hvalues hvalues')

/-- A figure of an item is one of every item with the same content, whatever the two share. -/
theorem Bisimilar.depicts {label : Option Key} (h : heap.Bisimilar a b)
    (ha : heap.Depicts label a f) : heap.Depicts label b f := by
  obtain ⟨R, hR, hab⟩ := h
  induction f using Figure.induct generalizing a b label with
  | step f ih =>
    have along {l : Figure → Option Key} {xs ys : List Item} (hxy : List.Forall₂ R xs ys)
        (hxs : List.Forall₂ (fun x p => heap.Depicts (l p) x p) xs f.parts) :
        List.Forall₂ (fun y p => heap.Depicts (l p) y p) ys f.parts :=
      forall₂_imp_of_mem (forall₂_comp hxy.flip hxs) fun _ _ p hp ⟨_, hr, hx⟩ => ih p hp hx hr
    cases hR a b hab with
    | same _ => exact ha
    | array hxs hys hall =>
      cases ha with
      | leaf hleaf => cases hleaf
      | array hxs' hfs =>
        rw [hxs] at hxs'
        cases hxs'
        exact .array hys (along hall hfs)
    | struct hxs hys hall =>
      cases ha with
      | leaf hleaf => cases hleaf
      | struct hxs' hfs =>
        rw [hxs] at hxs'
        cases hxs'
        exact .struct hys (along hall hfs)
    | map hxs hys hkeys hall =>
      cases ha with
      | leaf hleaf => cases hleaf
      | map hxs' hfs =>
        rw [hxs] at hxs'
        cases hxs'
        obtain ⟨hlabels, hvalues⟩ := forall₂_pairs_iff.mp hfs
        rw [← Entries.keys, hkeys] at hlabels
        exact .map hys (forall₂_pairs_iff.mpr ⟨hlabels, along hall hvalues⟩)

theorem tree_eq_iff (ha : heap.Grounded a) (hb : heap.Grounded b) :
    ∃ ta tb, heap.tree a = .ok ta ∧ heap.tree b = .ok tb ∧
      (ta = tb ↔ heap.sameContent a b = .ok true) := by
  obtain ⟨f, hf⟩ := exists_depicts ha none
  obtain ⟨g, hg⟩ := exists_depicts hb none
  refine ⟨f.text, g.text, tree_eq_text ha hf, tree_eq_text hb hg, ?_⟩
  rw [sameContent_iff]
  constructor
  · intro htext
    obtain rfl := Figure.text_inj htext
    exact .of_depicts hf hg
  · intro h
    have htext := tree_eq_text hb hg
    rw [tree_eq_text hb (h.depicts hf)] at htext
    exact Except.ok.inj htext

end Heap

/-! ## Decoding into one heap -/

/-- Decodings one after the other into one heap: what they return, and the heap in the end. -/
def decodeAll (heap : Heap) : List (Bytes × Limits) → List (Except DecodeError Item) × Heap
  | [] => ([], heap)
  | (data, limits) :: calls =>
    let (result, heap) := decode heap data limits
    let (results, heap) := decodeAll heap calls
    (result :: results, heap)

/-- Decoding leaves what was in the heap in its place, whether it succeeds or not. -/
theorem extends_decode (heap : Heap) {data : Bytes} (hsize : data.length < UInt64.size)
    (limits : Limits) : heap.Extends (decode heap data limits).2 := by
  cases h : decode heap data limits with
  | mk result heap' =>
    cases result with
    | error e =>
      rw [heap_of_decode_error h]
      exact .refl heap
    | ok x =>
      obtain ⟨_, _, _, hgrows⟩ := decode_ok hsize h
      exact hgrows.keeps

theorem extends_decodeAll {calls : List (Bytes × Limits)} (heap : Heap)
    (hsize : ∀ call ∈ calls, call.1.length < UInt64.size) :
    heap.Extends (decodeAll heap calls).2 := by
  induction calls generalizing heap with
  | nil => exact .refl heap
  | cons call calls ih =>
    obtain ⟨hcall, hcalls⟩ := List.forall_mem_cons.mp hsize
    exact (extends_decode heap hcall call.2).trans (ih _ hcalls)

theorem grounded_of_mem_decodeAll {heap : Heap} {calls : List (Bytes × Limits)} {x : Item}
    (hsize : ∀ call ∈ calls, call.1.length < UInt64.size)
    (hx : .ok x ∈ (decodeAll heap calls).1) : (decodeAll heap calls).2.Grounded x := by
  induction calls generalizing heap with
  | nil => cases hx
  | cons call calls ih =>
    obtain ⟨hcall, hcalls⟩ := List.forall_mem_cons.mp hsize
    rcases List.mem_cons.mp hx with hfirst | hlater
    · have hdecode : decode heap call.1 call.2 = (.ok x, (decode heap call.1 call.2).2) :=
        Prod.ext hfirst.symm rfl
      obtain ⟨t, _, ht, _⟩ := decode_ok hcall hdecode
      exact (ht.extend (extends_decodeAll _ hcalls)).grounded
    · exact ih hcalls hlater

/-- Of items that were decoded into one heap, by any calls, the drawn texts are the same exactly if
the contents are. -/
theorem tree_determines_content (start : Heap) (calls : List (Bytes × Limits))
    (hsize : ∀ call ∈ calls, call.1.length < UInt64.size) :
    let (results, heap) := decodeAll start calls
    ∀ a b, .ok a ∈ results → .ok b ∈ results →
      ∃ ta tb, heap.tree a = .ok ta ∧ heap.tree b = .ok tb ∧
        (ta = tb ↔ heap.sameContent a b = .ok true) := by
  intro a b ha hb
  exact Heap.tree_eq_iff (grounded_of_mem_decodeAll hsize ha) (grounded_of_mem_decodeAll hsize hb)

/-- Three arrays of one number, in the second with a byte to spare. -/
def threeArrays : List (Bytes × Limits) :=
  [([0x80, 0x01, 0x02, 0x01, 0x01], {}), ([0x80, 0x01, 0x02, 0x02, 0x01, 0x00], {}),
    ([0x80, 0x01, 0x02, 0x01, 0x02], {})]

def threeArraysHeap : Heap where
  arrays := #[[.integer 1], [.integer 1], [.integer 2]]

theorem tree_determines_content_threeArrays :
    (decodeAll .empty threeArrays).2 = threeArraysHeap ∧
      threeArraysHeap.tree (.array ⟨0⟩) = .ok "Array (1)\n  Integer 1\n" ∧
      threeArraysHeap.tree (.array ⟨1⟩) = .ok "Array (1)\n  Integer 1\n" ∧
      threeArraysHeap.tree (.array ⟨2⟩) = .ok "Array (1)\n  Integer 2\n" ∧
      threeArraysHeap.sameContent (.array ⟨0⟩) (.array ⟨1⟩) = .ok true ∧
      threeArraysHeap.sameContent (.array ⟨0⟩) (.array ⟨2⟩) ≠ .ok true := by
  have hrun : decodeAll .empty threeArrays =
      ([.ok (.array ⟨0⟩), .ok (.array ⟨1⟩), .ok (.array ⟨2⟩)], threeArraysHeap) := by
    decide +kernel
  have h0 : threeArraysHeap.tree (.array ⟨0⟩) = .ok "Array (1)\n  Integer 1\n" := by
    decide +kernel
  have h1 : threeArraysHeap.tree (.array ⟨1⟩) = .ok "Array (1)\n  Integer 1\n" := by
    decide +kernel
  have h2 : threeArraysHeap.tree (.array ⟨2⟩) = .ok "Array (1)\n  Integer 2\n" := by
    decide +kernel
  have htrees := tree_determines_content .empty threeArrays (by decide)
  rw [hrun] at htrees
  refine ⟨congrArg Prod.snd hrun, h0, h1, h2, ?_, ?_⟩
  · obtain ⟨ta, tb, ha, hb, hsame⟩ := htrees (.array ⟨0⟩) (.array ⟨1⟩) (by simp) (by simp)
    cases h0.symm.trans ha
    cases h1.symm.trans hb
    exact hsame.mp rfl
  · obtain ⟨ta, tb, ha, hb, hsame⟩ := htrees (.array ⟨0⟩) (.array ⟨2⟩) (by simp) (by simp)
    cases h0.symm.trans ha
    cases h2.symm.trans hb
    exact fun h => absurd (hsame.mpr h) (by decide)

end ScriptHost

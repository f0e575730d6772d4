import Mathlib.Data.Finite.Sum
import Mathlib.Data.Fintype.EquivFin
import Mathlib.Data.List.Forall2
import Mathlib.Logic.Relation
import Mathlib.Order.WellFounded
import ScriptHost.Proofs.Content

/-!
# ScriptHost.Proofs.Unfolding

What an item in a heap stands for. `Unfolds x t` says that following all handles from `x` gives
the finite content `t`. An item has at most one unfolding (`Unfolds.unique`), and it has one
exactly when nothing that it reaches is a dangling handle, a host reference or a container that
reaches itself (`exists_unfolds_iff`). Arrays and structs share one space of handles, so a
container is named by its `slot?`, not by the item that refers to it.
-/

namespace ScriptHost

/-! ## Lists that are related member by member -/

section Members

variable {α β : Type} {R S : α → β → Prop}

theorem forall₂_imp_of_mem {xs : List α} {ys : List β} (h : List.Forall₂ R xs ys)
    (himp : ∀ x ∈ xs, ∀ y ∈ ys, R x y → S x y) : List.Forall₂ S xs ys := by
  induction h with
  | nil => exact .nil
  | cons hr _ ih =>
    refine .cons (himp _ List.mem_cons_self _ List.mem_cons_self hr) (ih fun x hx y hy => ?_)
    exact himp x (List.mem_cons_of_mem _ hx) y (List.mem_cons_of_mem _ hy)

theorem forall₂_unique_of_mem {xs : List α} {ys zs : List β} (hy : List.Forall₂ R xs ys)
    (hz : List.Forall₂ R xs zs) (h : ∀ y ∈ ys, ∀ x z, R x y → R x z → y = z) : ys = zs := by
  induction hy generalizing zs with
  | nil => cases hz; rfl
  | cons hr _ ih =>
    cases hz with
    | cons hr' hz' =>
      rw [h _ List.mem_cons_self _ _ hr hr', ih hz' fun y hy => h y (List.mem_cons_of_mem _ hy)]

theorem exists_of_mem_left {xs : List α} {ys : List β} (h : List.Forall₂ R xs ys) {x : α}
    (hx : x ∈ xs) : ∃ y ∈ ys, R x y := by
  induction h with
  | nil => cases hx
  | cons hr _ ih =>
    rcases List.mem_cons.mp hx with rfl | hx
    · exact ⟨_, List.mem_cons_self, hr⟩
    · obtain ⟨y, hy, hr⟩ := ih hx
      exact ⟨y, List.mem_cons_of_mem _ hy, hr⟩

theorem exists_of_mem_right {xs : List α} {ys : List β} (h : List.Forall₂ R xs ys) {y : β}
    (hy : y ∈ ys) : ∃ x ∈ xs, R x y := by
  obtain ⟨x, hx, hr⟩ := exists_of_mem_left h.flip hy
  exact ⟨x, hx, hr⟩

theorem exists_forall₂ {xs : List α} (h : ∀ x ∈ xs, ∃ y, R x y) : ∃ ys, List.Forall₂ R xs ys := by
  induction xs with
  | nil => exact ⟨[], .nil⟩
  | cons x xs ih =>
    obtain ⟨y, hy⟩ := h x List.mem_cons_self
    obtain ⟨ys, hys⟩ := ih fun x hx => h x (List.mem_cons_of_mem _ hx)
    exact ⟨y :: ys, .cons hy hys⟩

theorem forall₂_comp {γ : Type} {T : β → γ → Prop} {xs : List α} {ys : List β} {zs : List γ}
    (h : List.Forall₂ R xs ys) (h' : List.Forall₂ T ys zs) :
    List.Forall₂ (Relation.Comp R T) xs zs := by
  induction h generalizing zs with
  | nil =>
    cases h'
    exact .nil
  | cons hr _ ih =>
    cases h' with
    | cons ht h' => exact .cons ⟨_, hr, ht⟩ (ih h')

theorem forall₂_append_split {xs₁ xs₂ : List α} {ys : List β}
    (h : List.Forall₂ R (xs₁ ++ xs₂) ys) :
    ∃ ys₁ ys₂, ys = ys₁ ++ ys₂ ∧ List.Forall₂ R xs₁ ys₁ ∧ List.Forall₂ R xs₂ ys₂ := by
  induction xs₁ generalizing ys with
  | nil => exact ⟨[], ys, rfl, .nil, h⟩
  | cons x xs₁ ih =>
    cases h with
    | cons hr h =>
      obtain ⟨ys₁, ys₂, rfl, h₁, h₂⟩ := ih h
      exact ⟨_ :: ys₁, ys₂, rfl, .cons hr h₁, h₂⟩

end Members

/-- The place of a container in the heap. -/
def Item.slot? : Item → Option (ArrayRef ⊕ MapRef)
  | array h | struct h => some (.inl h)
  | map h => some (.inr h)
  | bytes _ | boolean _ | integer _ | host _ => none

theorem slot?_of_key? {x : Item} {k : Key} (h : x.key? = some k) : x.slot? = none := by
  cases x <;> first | rfl | cases h

namespace Heap

/-! ## What lies inside what -/

/-- `y` stands directly inside the container `x`. -/
inductive Holds (heap : Heap) : Item → Item → Prop
  | array {h : ArrayRef} {xs : List Item} {y : Item} :
      heap.items h = .ok xs → y ∈ xs → heap.Holds (.array h) y
  | struct {h : ArrayRef} {xs : List Item} {y : Item} :
      heap.items h = .ok xs → y ∈ xs → heap.Holds (.struct h) y
  | map {h : MapRef} {es : Entries} {y : Item} :
      heap.entries h = .ok es → y ∈ es.values → heap.Holds (.map h) y

/-- `y` is `x` or stands somewhere inside it. -/
def Reaches (heap : Heap) : Item → Item → Prop := Relation.ReflTransGen heap.Holds

/-- `y` stands somewhere inside `x`. -/
def Contains (heap : Heap) : Item → Item → Prop := Relation.TransGen heap.Holds

/-- The handle of a container is good; an item of another kind has none. -/
def Resolves (heap : Heap) : Item → Prop
  | .array h | .struct h => ∃ xs, heap.items h = .ok xs
  | .map h => ∃ es, heap.entries h = .ok es
  | .bytes _ | .boolean _ | .integer _ | .host _ => True

/-- Every handle that the item reaches is good. -/
def Whole (heap : Heap) (x : Item) : Prop := ∀ y, heap.Reaches x y → heap.Resolves y

/-- A container that stands somewhere inside itself, perhaps as a struct inside an array. -/
def Cyclic (heap : Heap) (x : Item) : Prop := ∃ y, heap.Contains x y ∧ y.slot? = x.slot?

/-- How many elements or entries a container has. -/
def count (heap : Heap) : Item → Except HeapError Nat
  | .array h | .struct h => (heap.items h).map List.length
  | .map h => (heap.entries h).map Entries.size
  | .bytes _ | .boolean _ | .integer _ | .host _ => .ok 0

theorem Whole.resolves {heap : Heap} {x : Item} (h : heap.Whole x) : heap.Resolves x :=
  h x .refl

theorem Whole.of_holds {heap : Heap} {x y : Item} (h : heap.Whole x) (hy : heap.Holds x y) :
    heap.Whole y :=
  fun z hz => h z (.head hy hz)

/-! ## Unfolding -/

/-- Following all handles from the item gives the content. -/
inductive Unfolds (heap : Heap) : Item → Content → Prop
  | leaf {x : Item} {k : Key} : x.key? = some k → heap.Unfolds x (.leaf k)
  | array {h : ArrayRef} {xs : List Item} {ts : List Content} :
      heap.items h = .ok xs → List.Forall₂ heap.Unfolds xs ts → heap.Unfolds (.array h) (.array ts)
  | struct {h : ArrayRef} {xs : List Item} {ts : List Content} :
      heap.items h = .ok xs → List.Forall₂ heap.Unfolds xs ts →
      heap.Unfolds (.struct h) (.struct ts)
  | map {h : MapRef} {es : Entries} {ts : List (Key × Content)} :
      heap.entries h = .ok es → es.keys = ts.map (·.1) →
      List.Forall₂ heap.Unfolds es.values (ts.map (·.2)) → heap.Unfolds (.map h) (.map ts)

variable {heap : Heap}

theorem Unfolds.unique {x : Item} {t u : Content} (ht : heap.Unfolds x t)
    (hu : heap.Unfolds x u) : t = u := by
  induction t using Content.induct generalizing x u with
  | step t ih =>
    cases ht with
    | leaf hk =>
      cases hu with
      | leaf hk' => rw [hk] at hk'; cases hk'; rfl
      | array _ _ => cases hk
      | struct _ _ => cases hk
      | map _ _ _ => cases hk
    | array hx hts =>
      cases hu with
      | leaf hk => cases hk
      | array hx' hus =>
        rw [hx] at hx'; cases hx'
        rw [forall₂_unique_of_mem hts hus fun c hc x u => ih c hc]
    | struct hx hts =>
      cases hu with
      | leaf hk => cases hk
      | struct hx' hus =>
        rw [hx] at hx'; cases hx'
        rw [forall₂_unique_of_mem hts hus fun c hc x u => ih c hc]
    | @map h es ts hx hkeys hts =>
      cases hu with
      | leaf hk => cases hk
      | @map _ _ us hx' hkeys' hus =>
        rw [hx] at hx'; cases hx'
        have hvalues : ts.map (·.2) = us.map (·.2) := by
          refine forall₂_unique_of_mem hts hus fun c hc x u => ih c ?_
          obtain ⟨e, he, rfl⟩ := List.mem_map.mp hc
          exact Content.value_mem_children he
        have hzip := congrArg₂ List.zip (hkeys.symm.trans hkeys') hvalues
        rw [← List.unzip_fst, ← List.unzip_snd, ← List.unzip_fst, ← List.unzip_snd,
          List.zip_unzip, List.zip_unzip] at hzip
        rw [hzip]

/-- What stands directly inside an item unfolds to one of the contents directly inside. -/
theorem Unfolds.of_holds {x y : Item} {t : Content} (ht : heap.Unfolds x t)
    (hy : heap.Holds x y) : ∃ c ∈ t.children, heap.Unfolds y c := by
  cases ht with
  | leaf hk => cases hy <;> cases hk
  | array hx hts =>
    cases hy with
    | array hx' hmem => rw [hx] at hx'; cases hx'; exact exists_of_mem_left hts hmem
  | struct hx hts =>
    cases hy with
    | struct hx' hmem => rw [hx] at hx'; cases hx'; exact exists_of_mem_left hts hmem
  | map hx _ hts =>
    cases hy with
    | map hx' hmem =>
      rw [hx] at hx'; cases hx'
      obtain ⟨c, hc, hu⟩ := exists_of_mem_left hts hmem
      obtain ⟨e, he, rfl⟩ := List.mem_map.mp hc
      exact ⟨e.2, Content.value_mem_children he, hu⟩

/-- Every content directly inside, a key apart, is that of an item directly inside. -/
theorem Unfolds.holds_of_mem {x : Item} {t c : Content} (ht : heap.Unfolds x t)
    (hc : c ∈ t.children) : (∃ k, c = .leaf k) ∨ ∃ y, heap.Holds x y ∧ heap.Unfolds y c := by
  cases ht with
  | leaf hk => cases hc
  | array hx hts =>
    obtain ⟨y, hy, hu⟩ := exists_of_mem_right hts hc
    exact .inr ⟨y, .array hx hy, hu⟩
  | struct hx hts =>
    obtain ⟨y, hy, hu⟩ := exists_of_mem_right hts hc
    exact .inr ⟨y, .struct hx hy, hu⟩
  | map hx _ hts =>
    simp only [Content.children, List.mem_flatMap, List.mem_cons, List.not_mem_nil, or_false] at hc
    obtain ⟨e, he, rfl | rfl⟩ := hc
    · exact .inl ⟨e.1, rfl⟩
    · obtain ⟨y, hy, hu⟩ := exists_of_mem_right hts (List.mem_map_of_mem he)
      exact .inr ⟨y, .map hx hy, hu⟩

theorem Unfolds.resolves {x : Item} {t : Content} (ht : heap.Unfolds x t) : heap.Resolves x := by
  cases ht with
  | @leaf x k hk => cases x <;> trivial
  | array hx _ => exact ⟨_, hx⟩
  | struct hx _ => exact ⟨_, hx⟩
  | map hx _ _ => exact ⟨_, hx⟩

theorem Unfolds.count_eq {x : Item} {t : Content} (ht : heap.Unfolds x t) :
    heap.count x = .ok t.count := by
  cases ht with
  | @leaf x k hk => cases x <;> first | rfl | cases hk
  | array hx hts => simp [count, hx, Except.map, Content.count, hts.length_eq]
  | struct hx hts => simp [count, hx, Except.map, Content.count, hts.length_eq]
  | map hx hkeys _ =>
    have hlen := congrArg List.length hkeys
    simp only [Entries.keys, List.length_map] at hlen
    simp [count, hx, Except.map, Content.count, Entries.size, hlen]

/-! ## Everything that an unfolding goes through -/

theorem Unfolds.of_contains {x y : Item} {t : Content} (ht : heap.Unfolds x t)
    (hy : heap.Contains x y) : ∃ u, heap.Unfolds y u ∧ sizeOf u < sizeOf t := by
  induction hy with
  | single hy =>
    obtain ⟨c, hc, hu⟩ := ht.of_holds hy
    exact ⟨c, hu, Content.sizeOf_lt_of_mem_children hc⟩
  | tail _ hy ih =>
    obtain ⟨u, hu, hlt⟩ := ih
    obtain ⟨c, hc, hv⟩ := hu.of_holds hy
    exact ⟨c, hv, Nat.lt_trans (Content.sizeOf_lt_of_mem_children hc) hlt⟩

theorem Unfolds.of_reaches {x y : Item} {t : Content} (ht : heap.Unfolds x t)
    (hy : heap.Reaches x y) : ∃ u, heap.Unfolds y u := by
  rcases Relation.reflTransGen_iff_eq_or_transGen.mp hy with rfl | hy
  · exact ⟨t, ht⟩
  · obtain ⟨u, hu, _⟩ := ht.of_contains hy
    exact ⟨u, hu⟩

/-- Two references to one container, be it as an array or as a struct, unfold to contents of one
size. -/
theorem Unfolds.congr {x y : Item} {t : Content} {s : ArrayRef ⊕ MapRef} (ht : heap.Unfolds x t)
    (hx : x.slot? = some s) (hy : y.slot? = some s) :
    ∃ u, heap.Unfolds y u ∧ sizeOf u = sizeOf t := by
  cases ht with
  | leaf hk => rw [slot?_of_key? hk] at hx; cases hx
  | array hxs hts =>
    cases hx
    cases y <;> cases hy
    · exact ⟨_, .array hxs hts, rfl⟩
    · exact ⟨_, .struct hxs hts, by simp⟩
  | struct hxs hts =>
    cases hx
    cases y <;> cases hy
    · exact ⟨_, .array hxs hts, by simp⟩
    · exact ⟨_, .struct hxs hts, rfl⟩
  | map hxs hkeys hts =>
    cases hx
    cases y <;> cases hy
    exact ⟨_, .map hxs hkeys hts, rfl⟩

theorem exists_slot?_of_holds {x y : Item} (h : heap.Holds x y) : ∃ s, x.slot? = some s := by
  cases h <;> exact ⟨_, rfl⟩

/-- What a container holds depends on its place only. -/
theorem Holds.congr {x x' y : Item} (h : heap.Holds x y) (hslot : x'.slot? = x.slot?) :
    heap.Holds x' y := by
  cases h with
  | array hx hy => cases x' <;> cases hslot <;> first | exact .array hx hy | exact .struct hx hy
  | struct hx hy => cases x' <;> cases hslot <;> first | exact .array hx hy | exact .struct hx hy
  | map hx hy => cases x' <;> cases hslot; exact .map hx hy

theorem Contains.congr {x x' y : Item} (h : heap.Contains x y) (hslot : x'.slot? = x.slot?) :
    heap.Contains x' y := by
  obtain ⟨z, hz, hzy⟩ := Relation.TransGen.head'_iff.mp h
  exact Relation.TransGen.head' (hz.congr hslot) hzy

theorem Unfolds.not_cyclic {x : Item} {t : Content} (ht : heap.Unfolds x t) :
    ¬heap.Cyclic x := by
  rintro ⟨y, hy, hslot⟩
  obtain ⟨z, hz, _⟩ := Relation.TransGen.head'_iff.mp hy
  obtain ⟨s, hs⟩ := exists_slot?_of_holds hz
  obtain ⟨u, hu, hlt⟩ := ht.of_contains hy
  obtain ⟨v, hv, hsize⟩ := ht.congr hs (hslot.trans hs)
  rw [hu.unique hv] at hlt
  omega

/-! ## When there is an unfolding -/

/-- Nothing that the item reaches keeps it from being unfolded. -/
structure Unfoldable (heap : Heap) (x : Item) : Prop where
  resolves : ∀ y, heap.Reaches x y → heap.Resolves y
  acyclic : ∀ y, heap.Reaches x y → ¬heap.Cyclic y
  hostless : ∀ r, ¬heap.Reaches x (.host r)

theorem Unfolds.unfoldable {x : Item} {t : Content} (ht : heap.Unfolds x t) :
    heap.Unfoldable x where
  resolves := by
    intro y hy
    obtain ⟨u, hu⟩ := ht.of_reaches hy
    exact hu.resolves
  acyclic := by
    intro y hy
    obtain ⟨u, hu⟩ := ht.of_reaches hy
    exact hu.not_cyclic
  hostless := by
    intro r hr
    obtain ⟨u, hu⟩ := ht.of_reaches hr
    cases hu with
    | leaf hk => cases hk

theorem exists_unfolds_of_children {x : Item} (hres : heap.Resolves x) (hhost : ∀ r, x ≠ .host r)
    (h : ∀ y, heap.Holds x y → ∃ u, heap.Unfolds y u) : ∃ t, heap.Unfolds x t := by
  cases x with
  | bytes b => exact ⟨_, .leaf rfl⟩
  | boolean v => exact ⟨_, .leaf rfl⟩
  | integer n => exact ⟨_, .leaf rfl⟩
  | host r => exact absurd rfl (hhost r)
  | array a =>
    obtain ⟨xs, hxs⟩ := hres
    obtain ⟨ts, hts⟩ := exists_forall₂ fun y hy => h y (.array hxs hy)
    exact ⟨_, .array hxs hts⟩
  | struct a =>
    obtain ⟨xs, hxs⟩ := hres
    obtain ⟨ts, hts⟩ := exists_forall₂ fun y hy => h y (.struct hxs hy)
    exact ⟨_, .struct hxs hts⟩
  | map m =>
    obtain ⟨es, hes⟩ := hres
    obtain ⟨ts, hts⟩ := exists_forall₂ fun y hy => h y (.map hes hy)
    have hlen : es.keys.length = ts.length := by
      rw [← hts.length_eq]; simp [Entries.keys, Entries.values]
    refine ⟨.map (es.keys.zip ts), .map hes ?_ ?_⟩
    · rw [List.map_fst_zip (Nat.le_of_eq hlen)]
    · rwa [List.map_snd_zip (Nat.le_of_eq hlen.symm)]

/-- Lies inside, among the places that `x` reaches. -/
def Below (heap : Heap) (x : Item) (s' s : ArrayRef ⊕ MapRef) : Prop :=
  ∃ y z, heap.Reaches x y ∧ y.slot? = some s ∧ heap.Contains y z ∧ z.slot? = some s'

instance : Finite (ArrayRef ⊕ MapRef) :=
  have : Finite ArrayRef := Finite.of_injective (fun h => h.index.toFin) fun _ _ h =>
    congrArg ArrayRef.mk (UInt32.toFin_inj.mp h)
  have : Finite MapRef := Finite.of_injective (fun h => h.index.toFin) fun _ _ h =>
    congrArg MapRef.mk (UInt32.toFin_inj.mp h)
  inferInstance

theorem wellFounded_below {x : Item} (h : ∀ y, heap.Reaches x y → ¬heap.Cyclic y) :
    WellFounded (heap.Below x) := by
  have : IsTrans _ (heap.Below x) := ⟨by
    rintro s'' s' s ⟨y', z', _, hy', hyz', hz'⟩ ⟨y, z, hreach, hy, hyz, hz⟩
    exact ⟨y, z', hreach, hy, hyz.trans (hyz'.congr (hz.trans hy'.symm)), hz'⟩⟩
  have : Std.Irrefl (heap.Below x) := ⟨by
    rintro s ⟨y, z, hreach, hy, hyz, hz⟩
    exact h y hreach ⟨z, hyz, hz.trans hy.symm⟩⟩
  exact Finite.wellFounded_of_trans_of_irrefl _

/-- Induction where no cycle is reached: what holds of an item once it holds of all that stand
directly inside it holds of everything that is reached. -/
theorem acyclicInduct {x : Item} (acyclic : ∀ y, heap.Reaches x y → ¬heap.Cyclic y)
    {motive : Item → Prop}
    (step : ∀ y, heap.Reaches x y → (∀ z, heap.Holds y z → motive z) → motive y) {y : Item}
    (hy : heap.Reaches x y) : motive y := by
  have leaf (z : Item) (hz : heap.Reaches x z) (hnone : z.slot? = none) : motive z := by
    refine step z hz fun w hw => ?_
    obtain ⟨s, hs⟩ := exists_slot?_of_holds hw
    rw [hnone] at hs
    cases hs
  -- The induction is on places and not on items: the places are finitely many.
  have places (s : ArrayRef ⊕ MapRef) :
      ∀ z, heap.Reaches x z → z.slot? = some s → motive z := by
    induction s using (wellFounded_below acyclic).induction with
    | h s ih =>
      intro z hz hs
      refine step z hz fun w hw => ?_
      cases hslot : w.slot? with
      | none => exact leaf w (hz.tail hw) hslot
      | some s' => exact ih s' ⟨z, w, hz, hs, .single hw, hslot⟩ w (hz.tail hw) hslot
  cases hslot : y.slot? with
  | none => exact leaf y hy hslot
  | some s => exact places s y hy hslot

theorem exists_unfolds_iff {x : Item} : (∃ t, heap.Unfolds x t) ↔ heap.Unfoldable x := by
  constructor
  · rintro ⟨t, ht⟩
    exact ht.unfoldable
  · intro h
    refine acyclicInduct (motive := fun y => ∃ t, heap.Unfolds y t) h.acyclic ?_ .refl
    intro y hy ih
    refine exists_unfolds_of_children (h.resolves y hy) ?_ ih
    rintro r rfl
    exact h.hostless r hy

/-! ## What an item reaches and the nodes of its unfolding -/

theorem Unfolds.mem_preorder {x y : Item} {t : Content} (ht : heap.Unfolds x t)
    (hy : heap.Reaches x y) : ∃ c ∈ t.preorder, heap.Unfolds y c := by
  induction hy using Relation.ReflTransGen.head_induction_on generalizing t with
  | refl => exact ⟨t, t.mem_preorder_self, ht⟩
  | head hxz _ ih =>
    obtain ⟨c, hc, hu⟩ := ht.of_holds hxz
    obtain ⟨d, hd, hv⟩ := ih hu
    exact ⟨d, Content.mem_preorder_of_children hc hd, hv⟩

theorem Unfolds.reaches_of_mem {x : Item} {t c : Content} (ht : heap.Unfolds x t)
    (hc : c ∈ t.preorder) : (∃ k, c = .leaf k) ∨ ∃ y, heap.Reaches x y ∧ heap.Unfolds y c := by
  induction t using Content.induct generalizing x with
  | step t ih =>
    rw [Content.preorder_eq] at hc
    rcases List.mem_cons.mp hc with rfl | hc
    · exact .inr ⟨x, .refl, ht⟩
    · obtain ⟨d, hd, hcd⟩ := List.mem_flatMap.mp hc
      rcases ht.holds_of_mem hd with ⟨k, rfl⟩ | ⟨y, hy, hu⟩
      · rw [Content.preorder, List.mem_singleton] at hcd
        exact .inl ⟨k, hcd⟩
      · rcases ih d hd hu hcd with hleaf | ⟨z, hz, hv⟩
        · exact .inl hleaf
        · exact .inr ⟨z, .head hy hz, hv⟩

/-- No key stands twice in a map of a heap. -/
theorem Unfolds.distinctKeys {x : Item} {t : Content} (ht : heap.Unfolds x t) :
    t.DistinctKeys := by
  intro c hc
  rcases ht.reaches_of_mem hc with ⟨k, rfl⟩ | ⟨y, _, hu⟩
  · exact List.nodup_nil
  · cases hu with
    | leaf _ => exact List.nodup_nil
    | array _ _ => exact List.nodup_nil
    | struct _ _ => exact List.nodup_nil
    | @map _ es ts _ hkeys _ =>
      have hdistinct : (ts.map (·.1)).Nodup := hkeys ▸ es.distinct
      exact hdistinct

/-- A bound on the containers that an item reaches is one on those in its unfolding. -/
theorem Unfolds.count_le_iff {x : Item} {t : Content} (ht : heap.Unfolds x t) (m : Nat) :
    (∀ y, heap.Reaches x y → ∀ n, heap.count y = .ok n → n ≤ m) ↔
      ∀ c ∈ t.preorder, c.count ≤ m := by
  constructor
  · intro h c hc
    rcases ht.reaches_of_mem hc with ⟨k, rfl⟩ | ⟨y, hy, hu⟩
    · exact Nat.zero_le m
    · exact h y hy _ hu.count_eq
  · intro h y hy n hn
    obtain ⟨c, hc, hu⟩ := ht.mem_preorder hy
    rw [hu.count_eq] at hn
    cases hn
    exact h c hc

/-! ## Larger heaps -/

/-- All containers of the one heap are in the other, under the same handles. -/
structure Extends (heap heap' : Heap) : Prop where
  items : ∀ {h xs}, heap.items h = .ok xs → heap'.items h = .ok xs
  entries : ∀ {h es}, heap.entries h = .ok es → heap'.entries h = .ok es

theorem Extends.refl (heap : Heap) : heap.Extends heap := ⟨id, id⟩

theorem Extends.trans {heap₁ heap₂ heap₃ : Heap} (h : heap₁.Extends heap₂)
    (h' : heap₂.Extends heap₃) : heap₁.Extends heap₃ :=
  ⟨fun hx => h'.items (h.items hx), fun hx => h'.entries (h.entries hx)⟩

theorem Unfolds.extend {heap' : Heap} {x : Item} {t : Content} (ht : heap.Unfolds x t)
    (h : heap.Extends heap') : heap'.Unfolds x t := by
  induction t using Content.induct generalizing x with
  | step t ih =>
    cases ht with
    | leaf hk => exact .leaf hk
    | array hx hts =>
      exact .array (h.items hx) (forall₂_imp_of_mem hts fun y _ c hc hu => ih c hc hu)
    | struct hx hts =>
      exact .struct (h.items hx) (forall₂_imp_of_mem hts fun y _ c hc hu => ih c hc hu)
    | map hx hkeys hts =>
      refine .map (h.entries hx) hkeys (forall₂_imp_of_mem hts fun y _ c hc hu => ih c ?_ hu)
      obtain ⟨e, he, rfl⟩ := List.mem_map.mp hc
      exact Content.value_mem_children he

end Heap

end ScriptHost

import ScriptHost.Proofs.Bisimulation
import ScriptHost.Proofs.Closed

/-!
# ScriptHost.Proofs.SameContent

Having the same content is an equivalence among the items from which no dangling handle can be
reached, and there the comparison never fails: a step on a good pair gives an answer
(`Comparison.step_ok`) and adds only pairs from inside of it (`Comparison.step_pending`). A dangling
handle has not even the same content as itself, so the condition cannot be dropped.
-/

namespace ScriptHost

namespace Comparison

variable {heap : Heap}

/-! ## A comparison of items without dangling handles -/

theorem step_ok {a b : Item} (ha : heap.Resolves a) (hb : heap.Resolves b) (c : Comparison) :
    ∃ r, c.step heap (a, b) = .ok r := by
  have arrays {x y : ArrayRef} (hx : ∃ xs, heap.items x = .ok xs)
      (hy : ∃ ys, heap.items y = .ok ys) : ∃ r, c.openArrays heap x y = .ok r := by
    obtain ⟨xs, hxs⟩ := hx
    obtain ⟨ys, hys⟩ := hy
    simp only [openArrays, hxs, hys]
    split
    · exact ⟨_, rfl⟩
    · split <;> exact ⟨_, rfl⟩
  have maps {x y : MapRef} (hx : ∃ xs, heap.entries x = .ok xs)
      (hy : ∃ ys, heap.entries y = .ok ys) : ∃ r, c.openMaps heap x y = .ok r := by
    obtain ⟨xs, hxs⟩ := hx
    obtain ⟨ys, hys⟩ := hy
    simp only [openMaps, hxs, hys]
    split
    · exact ⟨_, rfl⟩
    · split <;> exact ⟨_, rfl⟩
  unfold step
  split
  · rename_i heq
    cases heq
    exact arrays ha hb
  · rename_i heq
    cases heq
    exact arrays ha hb
  · rename_i heq
    cases heq
    exact maps ha hb
  · split <;> exact ⟨_, rfl⟩

/-- The pairs that a step adds stand inside the pair that it settles. -/
theorem step_pending {c c' : Comparison} {a b : Item} (h : c.step heap (a, b) = .ok (some c')) :
    ∀ p ∈ c'.pending, p ∈ c.pending ∨ heap.Holds a p.1 ∧ heap.Holds b p.2 := by
  intro p hp
  rcases step_cases h with ⟨rfl, _⟩ | ⟨x, y, xs, ys, hab, hxs, hys, _, rfl⟩ |
    ⟨x, y, xs, ys, rfl, rfl, hxs, hys, _, rfl⟩
  · exact .inl hp
  · rcases List.mem_append.mp hp with hp | hp
    · obtain ⟨hfst, hsnd⟩ := List.of_mem_zip (List.mem_reverse.mp hp)
      rcases hab with ⟨rfl, rfl⟩ | ⟨rfl, rfl⟩
      · exact .inr ⟨.array hxs hfst, .array hys hsnd⟩
      · exact .inr ⟨.struct hxs hfst, .struct hys hsnd⟩
    · exact .inl hp
  · rcases List.mem_append.mp hp with hp | hp
    · obtain ⟨hfst, hsnd⟩ := List.of_mem_zip (List.mem_reverse.mp hp)
      exact .inr ⟨.map hxs hfst, .map hys hsnd⟩
    · exact .inl hp

theorem run_ok {c : Comparison} (hp : ∀ p ∈ c.pending, heap.Whole p.1 ∧ heap.Whole p.2) :
    ∃ v, run heap c = .ok v := by
  fun_induction run heap c with
  | case1 => exact ⟨true, rfl⟩
  | case2 c pair rest hpending e hstep =>
    obtain ⟨ha, hb⟩ := hp pair (by simp [hpending])
    obtain ⟨r, hr⟩ := step_ok ha.resolves hb.resolves { c with pending := rest }
    rw [hstep] at hr
    cases hr
  | case3 => exact ⟨false, rfl⟩
  | case4 c pair rest hpending c' hstep _ _ ih =>
    obtain ⟨ha, hb⟩ := hp pair (by simp [hpending])
    refine ih ?_
    intro p hm
    rcases step_pending hstep p hm with hrest | ⟨hfst, hsnd⟩
    · exact hp p (by rw [hpending]; exact List.mem_cons_of_mem _ hrest)
    · exact ⟨ha.of_holds hfst, hb.of_holds hsnd⟩

end Comparison

namespace Heap

variable {heap : Heap}

/-! ## An equivalence -/

theorem Bisimilar.refl {a : Item} (h : heap.Whole a) : heap.Bisimilar a a := by
  refine ⟨fun a b => a = b ∧ heap.Whole a, ?_, rfl, h⟩
  rintro a _ ⟨rfl, ha⟩
  have held {xs : List Item} (hxs : ∀ x ∈ xs, heap.Holds a x) :
      List.Forall₂ (fun a b => a = b ∧ heap.Whole a) xs xs :=
    List.forall₂_same.mpr fun x hx => ⟨rfl, ha.of_holds (hxs x hx)⟩
  cases a with
  | bytes b => exact .same rfl
  | boolean v => exact .same rfl
  | integer n => exact .same rfl
  | host r => exact .same rfl
  | array x =>
    obtain ⟨xs, hxs⟩ := ha.resolves
    exact .array hxs hxs (held fun y hy => .array hxs hy)
  | struct x =>
    obtain ⟨xs, hxs⟩ := ha.resolves
    exact .struct hxs hxs (held fun y hy => .struct hxs hy)
  | map x =>
    obtain ⟨xs, hxs⟩ := ha.resolves
    exact .map hxs hxs rfl (held fun y hy => .map hxs hy)

theorem Bisimulation.comp {R S : Item → Item → Prop} (hR : heap.Bisimulation R)
    (hS : heap.Bisimulation S) : heap.Bisimulation (Relation.Comp R S) := by
  rintro a c ⟨b, hab, hbc⟩
  have hbc := hS b c hbc
  cases hR a b hab with
  | same ha =>
    cases hbc with
    | same _ => exact .same ha
    | array _ _ _ => cases ha
    | struct _ _ _ => cases ha
    | map _ _ _ _ => cases ha
  | array hxs hys hall =>
    cases hbc with
    | same hb => cases hb
    | array hys' hzs hall' =>
      rw [hys] at hys'
      cases hys'
      exact .array hxs hzs (forall₂_comp hall hall')
  | struct hxs hys hall =>
    cases hbc with
    | same hb => cases hb
    | struct hys' hzs hall' =>
      rw [hys] at hys'
      cases hys'
      exact .struct hxs hzs (forall₂_comp hall hall')
  | map hxs hys hkeys hall =>
    cases hbc with
    | same hb => cases hb
    | map hys' hzs hkeys' hall' =>
      rw [hys] at hys'
      cases hys'
      exact .map hxs hzs (hkeys.trans hkeys') (forall₂_comp hall hall')

theorem Bisimilar.trans {a b c : Item} (hab : heap.Bisimilar a b) (hbc : heap.Bisimilar b c) :
    heap.Bisimilar a c := by
  obtain ⟨R, hR, hr⟩ := hab
  obtain ⟨S, hS, hs⟩ := hbc
  exact ⟨Relation.Comp R S, hR.comp hS, b, hr, hs⟩

end Heap

/-- Two items have the same content exactly if a bisimulation relates them, on any heap, with
cycles, shared containers or dangling handles. Among the items that reach no dangling handle the
comparison always has an answer, and having the same content is an equivalence. -/
theorem sameContent_decides_bisimilarity (heap : Heap) :
    (∀ a b, heap.sameContent a b = .ok true ↔ ∃ R, heap.Bisimulation R ∧ R a b) ∧
    (∀ a b, heap.Whole a → heap.Whole b → ∃ v, heap.sameContent a b = .ok v) ∧
    Equivalence fun a b : { x : Item // heap.Whole x } => heap.sameContent a b = .ok true := by
  refine ⟨fun a b => Heap.sameContent_iff, ?_, ?_⟩
  · intro a b ha hb
    refine Comparison.run_ok ?_
    intro p hp
    rw [List.mem_singleton.mp hp]
    exact ⟨ha, hb⟩
  · refine ⟨?_, ?_, ?_⟩
    · intro a
      exact Heap.sameContent_iff.mpr (.refl a.2)
    · intro a b h
      exact Heap.sameContent_iff.mpr (Heap.sameContent_iff.mp h).symm
    · intro a b c hab hbc
      exact Heap.sameContent_iff.mpr
        ((Heap.sameContent_iff.mp hab).trans (Heap.sameContent_iff.mp hbc))

/-- An array that holds itself, and two that hold each other. -/
def loops : Heap where
  arrays := #[[.array ⟨0⟩], [.array ⟨2⟩], [.array ⟨1⟩]]

theorem loops_closed : loops.Closed where
  arrays := by simp [loops, Heap.resolves_iff, Item.slot?, Heap.Has]
  maps := by simp [loops]
  keys := by simp [loops]

theorem sameContent_decides_bisimilarity_loops :
    loops.Whole (.array ⟨0⟩) ∧ loops.Whole (.array ⟨1⟩) ∧
      (∃ v, loops.sameContent (.array ⟨0⟩) (.array ⟨1⟩) = .ok v) ∧
      loops.sameContent (.array ⟨0⟩) (.array ⟨1⟩) = .ok true ∧
      loops.sameContent (.array ⟨1⟩) (.array ⟨0⟩) = .ok true := by
  obtain ⟨decides, answers, equiv⟩ := sameContent_decides_bisimilarity loops
  have h₀ : loops.Whole (.array ⟨0⟩) := loops_closed.whole ⟨_, rfl⟩
  have h₁ : loops.Whole (.array ⟨1⟩) := loops_closed.whole ⟨_, rfl⟩
  -- Unfolded, each of the three is an endless nest of arrays with one element.
  have same : loops.sameContent (.array ⟨0⟩) (.array ⟨1⟩) = .ok true := by
    let nests : List Item := [.array ⟨0⟩, .array ⟨1⟩, .array ⟨2⟩]
    refine (decides _ _).mpr ⟨fun a b => a ∈ nests ∧ b ∈ nests, ?_, by simp [nests]⟩
    rintro a b ⟨ha, hb⟩
    simp only [nests, List.mem_cons, List.not_mem_nil, or_false] at ha hb
    rcases ha with rfl | rfl | rfl <;> rcases hb with rfl | rfl | rfl <;>
      exact .array rfl rfl (by simp [nests, loops])
  exact ⟨h₀, h₁, answers _ _ h₀ h₁, same, equiv.symm (x := ⟨_, h₀⟩) (y := ⟨_, h₁⟩) same⟩

end ScriptHost

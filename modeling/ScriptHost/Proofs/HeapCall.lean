import ScriptHost.Proofs.Closed

/-!
# ScriptHost.Proofs.HeapCall

Sequences of operations on a heap. Whatever a call is and whether it succeeds, it adds containers
that hold its arguments, puts arguments into the container at its target, or does nothing
(`perform_changes`). So no place is lost, places other than the targets keep what they hold, and a
heap without dangling handles stays one as long as the arguments are good.
-/

namespace ScriptHost

/-- An operation on a heap with all that it is given. -/
inductive HeapCall
  | allocItems (xs : List Item)
  | allocMap (es : Entries)
  | newArray (xs : List Item)
  | newStruct (xs : List Item)
  | newMap
  | pushItem (h : ArrayRef) (x : Item)
  | replaceItem (h : ArrayRef) (i : Nat) (x : Item)
  | truncateItems (h : ArrayRef) (n : Nat)
  | mapInsert (h : MapRef) (key value : Item)
deriving DecidableEq

namespace HeapCall

/-- The place of the container that the call writes to; it need not be there. -/
def target? : HeapCall → Option (ArrayRef ⊕ MapRef)
  | pushItem h _ | replaceItem h _ _ | truncateItems h _ => some (.inl h)
  | mapInsert h _ _ => some (.inr h)
  | allocItems _ | allocMap _ | newArray _ | newStruct _ | newMap => none

/-- The items that the call is given. -/
def arguments : HeapCall → List Item
  | allocItems xs | newArray xs | newStruct xs => xs
  | allocMap es => es.values
  | pushItem _ x | replaceItem _ _ x => [x]
  | mapInsert _ key value => [key, value]
  | newMap | truncateItems _ _ => []

end HeapCall

namespace Heap

/-- The heap after the call, whether it succeeds or not. -/
def perform (heap : Heap) : HeapCall → Heap
  | .allocItems xs => (heap.allocItems xs).2
  | .allocMap es => (heap.allocMap es).2
  | .newArray xs => (heap.newArray xs).2
  | .newStruct xs => (heap.newStruct xs).2
  | .newMap => heap.newMap.2
  | .pushItem h x => (heap.pushItem h x).2
  | .replaceItem h i x => (heap.replaceItem h i x).2
  | .truncateItems h n => (heap.truncateItems h n).2
  | .mapInsert h key value => (heap.mapInsert h key value).2

def performAll (heap : Heap) (calls : List HeapCall) : Heap := calls.foldl perform heap

/-- All that can come of a call. -/
inductive Changes (heap : Heap) (c : HeapCall) : Heap → Prop
  | nothing : heap.Changes c heap
  | add {arrays : List (List Item)} {maps : List Entries} :
      (∀ x ∈ references [] arrays maps, x ∈ c.arguments) → heap.Changes c (heap.add arrays maps)
  | items {a : ArrayRef} {xs ys : List Item} : c.target? = some (.inl a) →
      heap.items a = .ok xs → (∀ y ∈ ys, y ∈ xs ∨ y ∈ c.arguments) →
      heap.Changes c (heap.setItems a ys)
  | entries {m : MapRef} {es fs : Entries} : c.target? = some (.inr m) →
      heap.entries m = .ok es → (∀ y ∈ fs.values, y ∈ es.values ∨ y ∈ c.arguments) →
      heap.Changes c (heap.setEntries m fs)

variable {heap heap' : Heap} {c : HeapCall} {s : ArrayRef ⊕ MapRef}

/-! ## One call -/

theorem allocItems_changes {xs : List Item} (h : ∀ x ∈ xs, x ∈ c.arguments) :
    heap.Changes c (heap.allocItems xs).2 := by
  rw [allocItems_eq]
  split
  · exact .nothing
  · exact .add (by simpa [references] using h)

theorem allocMap_changes {es : Entries} (h : ∀ x ∈ es.values, x ∈ c.arguments) :
    heap.Changes c (heap.allocMap es).2 := by
  rw [allocMap_eq]
  split
  · exact .nothing
  · exact .add (by simpa [references] using h)

theorem newArray_heap (heap : Heap) (xs : List Item) :
    (heap.newArray xs).2 = (heap.allocItems xs).2 := by
  unfold newArray
  split <;> rename_i h <;> rw [h]

theorem newStruct_heap (heap : Heap) (xs : List Item) :
    (heap.newStruct xs).2 = (heap.allocItems xs).2 := by
  unfold newStruct
  split <;> rename_i h <;> rw [h]

theorem newMap_heap (heap : Heap) : heap.newMap.2 = (heap.allocMap .empty).2 := by
  unfold newMap
  split <;> rename_i h <;> rw [h]

theorem perform_changes (heap : Heap) (c : HeapCall) : heap.Changes c (heap.perform c) := by
  cases c with
  | allocItems xs => exact allocItems_changes fun x hx => hx
  | allocMap es => exact allocMap_changes fun x hx => hx
  | newArray xs =>
    rw [perform, newArray_heap]
    exact allocItems_changes fun x hx => hx
  | newStruct xs =>
    rw [perform, newStruct_heap]
    exact allocItems_changes fun x hx => hx
  | newMap =>
    rw [perform, newMap_heap]
    exact allocMap_changes fun x hx => hx
  | pushItem a x =>
    simp only [perform, pushItem]
    split
    · exact .nothing
    · rename_i xs hxs
      exact .items rfl hxs fun y hy => List.mem_append.mp hy
  | replaceItem a i x =>
    simp only [perform, replaceItem]
    split
    · exact .nothing
    · rename_i xs hxs
      refine .items rfl hxs fun y hy => ?_
      exact (List.mem_or_eq_of_mem_set hy).imp_right List.mem_singleton.mpr
  | truncateItems a n =>
    simp only [perform, truncateItems]
    split
    · exact .nothing
    · rename_i xs hxs
      exact .items rfl hxs fun y hy => .inl (List.mem_of_mem_take hy)
  | mapInsert m key value =>
    simp only [perform, mapInsert]
    split
    · exact .nothing
    · split
      · exact .nothing
      · rename_i es hes
        refine .entries rfl hes fun y hy => ?_
        rcases Entries.mem_values_insert hy with rfl | hy
        · exact .inr (by simp [HeapCall.arguments])
        · exact .inl hy

theorem sameAt_setItems {a : ArrayRef} {xs : List Item} (h : s ≠ .inl a) :
    heap.SameAt (heap.setItems a xs) s := by
  cases s with
  | inl b =>
    have hne : a.index.toNat ≠ b.index.toNat := by
      intro heq
      exact h (by rw [Sum.inl.injEq, ArrayRef.mk.injEq, ← UInt32.toNat_inj, heq])
    simp [SameAt, items, setItems, Array.getElem?_setIfInBounds_ne hne]
  | inr m => rfl

theorem sameAt_setEntries {m : MapRef} {es : Entries} (h : s ≠ .inr m) :
    heap.SameAt (heap.setEntries m es) s := by
  cases s with
  | inl a => rfl
  | inr n =>
    have hne : m.index.toNat ≠ n.index.toNat := by
      intro heq
      exact h (by rw [Sum.inr.injEq, MapRef.mk.injEq, ← UInt32.toNat_inj, heq])
    simp [SameAt, entries, setEntries, Array.getElem?_setIfInBounds_ne hne]

namespace Changes

theorem has (h : heap.Changes c heap') (hs : heap.Has s) : heap'.Has s := by
  cases h with
  | nothing => exact hs
  | add _ => exact hs.add _ _
  | items _ _ _ => exact has_setItems.mpr hs
  | entries _ _ _ => exact has_setEntries.mpr hs

/-- A place that was there keeps what it holds, unless it is the target. -/
theorem sameAt (h : heap.Changes c heap') (hs : heap.Has s) (htarget : c.target? ≠ some s) :
    heap.SameAt heap' s := by
  cases h with
  | nothing => exact .refl heap s
  | add _ => exact hs.sameAt_of_extends (extends_add heap _ _)
  | items hc _ _ => exact sameAt_setItems fun heq => htarget (heq ▸ hc)
  | entries hc _ _ => exact sameAt_setEntries fun heq => htarget (heq ▸ hc)

theorem closed (h : heap.Changes c heap') (hclosed : heap.Closed)
    (hargs : ∀ x ∈ c.arguments, heap.Resolves x) : heap'.Closed := by
  cases h with
  | nothing => exact hclosed
  | add hnew => exact hclosed.add fun x hx => (hargs x (hnew x hx)).mono fun s hs => hs.add _ _
  | items _ hxs hys =>
    refine hclosed.setItems fun y hy => ?_
    rcases hys y hy with hy | hy
    · exact hclosed.arrays _ (Array.mem_of_getElem? (items_eq_ok_iff.mp hxs)) y hy
    · exact hargs y hy
  | entries _ hes hfs =>
    refine hclosed.setEntries fun y hy => ?_
    rcases hfs y hy with hy | hy
    · exact hclosed.maps _ (Array.mem_of_getElem? (entries_eq_ok_iff.mp hes)) y hy
    · exact hargs y hy

end Changes

/-! ## Sequences of calls -/

theorem sameAt_performAll {calls : List HeapCall} (hs : heap.Has s)
    (h : ∀ c ∈ calls, c.target? ≠ some s) : heap.SameAt (heap.performAll calls) s := by
  induction calls generalizing heap with
  | nil => exact .refl heap s
  | cons c calls ih =>
    have first := perform_changes heap c
    have rest := ih (first.has hs) fun d hd => h d (List.mem_cons_of_mem _ hd)
    exact (first.sameAt hs (h c List.mem_cons_self)).trans rest

end Heap

end ScriptHost

import ScriptHost.Proofs.Growth

/-!
# ScriptHost.Proofs.Places

The containers of a heap by their places, and the references between them. Arrays and structs have
one row of places and maps another. `held` is what stands in a place, whatever its kind, so
`holds_iff` says of all containers at once what lies directly inside them; `references` lists every
reference there is among some items and containers. A place that is there stays there when
containers are added or written to, and a handle is good exactly if it has its place
(`resolves_iff`).
-/

namespace ScriptHost

/-- The items, and all items that the containers hold. The keys of a map refer to nothing. -/
def references (xs : List Item) (arrays : List (List Item)) (maps : List Entries) : List Item :=
  xs ++ (arrays.flatten ++ maps.flatMap Entries.values)

namespace Heap

/-- There is a container at this place. -/
def Has (heap : Heap) : ArrayRef ⊕ MapRef → Prop
  | .inl h => h.index.toNat < heap.arrays.size
  | .inr h => h.index.toNat < heap.maps.size

/-- The container at this place came after those of `heap`. -/
def Added (heap heap' : Heap) (s : ArrayRef ⊕ MapRef) : Prop := heap'.Has s ∧ ¬heap.Has s

/-- What the container at this place holds, in order. -/
def held (heap : Heap) : ArrayRef ⊕ MapRef → List Item
  | .inl h => heap.arrays[h.index.toNat]?.getD []
  | .inr h => (heap.maps[h.index.toNat]?.map Entries.values).getD []

variable {heap heap₁ heap₂ heap' : Heap} {s : ArrayRef ⊕ MapRef} {x y : Item}

theorem Has.add (h : heap.Has s) (arrays : List (List Item)) (maps : List Entries) :
    (heap.add arrays maps).Has s := by
  cases s with
  | inl a =>
    simp only [Has, size_arrays_add] at h ⊢
    omega
  | inr m =>
    simp only [Has, size_maps_add] at h ⊢
    omega

theorem has_add_array {a : ArrayRef} (ha : a.index.toNat = heap.arrays.size) (xs : List Item) :
    (heap.add [xs] []).Has s ↔ heap.Has s ∨ s = .inl a := by
  cases s with
  | inl b =>
    rw [Sum.inl.injEq, ArrayRef.mk.injEq, ← UInt32.toNat_inj, ha]
    simp only [Has, size_arrays_add, List.length_singleton]
    omega
  | inr m => simp [Has]

theorem has_add_map {m : MapRef} (hm : m.index.toNat = heap.maps.size) (es : Entries) :
    (heap.add [] [es]).Has s ↔ heap.Has s ∨ s = .inr m := by
  cases s with
  | inl a => simp [Has]
  | inr n =>
    rw [Sum.inr.injEq, MapRef.mk.injEq, ← UInt32.toNat_inj, hm]
    simp only [Has, size_maps_add, List.length_singleton]
    omega

theorem holds_iff : heap.Holds x y ↔ ∃ s, x.slot? = some s ∧ y ∈ heap.held s := by
  constructor
  · intro h
    cases h with
    | array hx hy => exact ⟨_, rfl, by simpa [held, items_eq_ok_iff.mp hx] using hy⟩
    | struct hx hy => exact ⟨_, rfl, by simpa [held, items_eq_ok_iff.mp hx] using hy⟩
    | map hx hy => exact ⟨_, rfl, by simpa [held, entries_eq_ok_iff.mp hx] using hy⟩
  · rintro ⟨s, hs, hy⟩
    cases s with
    | inl a =>
      cases hget : heap.arrays[a.index.toNat]? with
      | none => simp [held, hget] at hy
      | some xs =>
        simp only [held, hget, Option.getD_some] at hy
        have hitems := items_eq_ok_iff.mpr hget
        exact (Holds.array hitems hy).congr hs
    | inr m =>
      cases hget : heap.maps[m.index.toNat]? with
      | none => simp [held, hget] at hy
      | some es =>
        simp only [held, hget, Option.map_some, Option.getD_some] at hy
        exact (Holds.map (entries_eq_ok_iff.mpr hget) hy).congr hs

/-! ## Good handles -/

theorem exists_items_iff {a : ArrayRef} : (∃ xs, heap.items a = .ok xs) ↔ heap.Has (.inl a) := by
  simp only [items_eq_ok_iff, Array.getElem?_eq_some_iff, Has]
  constructor
  · rintro ⟨_, hlt, _⟩
    exact hlt
  · intro hlt
    exact ⟨_, hlt, rfl⟩

theorem exists_entries_iff {m : MapRef} :
    (∃ es, heap.entries m = .ok es) ↔ heap.Has (.inr m) := by
  simp only [entries_eq_ok_iff, Array.getElem?_eq_some_iff, Has]
  constructor
  · rintro ⟨_, hlt, _⟩
    exact hlt
  · intro hlt
    exact ⟨_, hlt, rfl⟩

theorem resolves_iff : heap.Resolves x ↔ ∀ s, x.slot? = some s → heap.Has s := by
  cases x <;> simp [Resolves, Item.slot?, exists_items_iff, exists_entries_iff]

/-- A handle stays good as long as no place is lost. -/
theorem Resolves.mono (h : heap.Resolves x) (hkeeps : ∀ s, heap.Has s → heap'.Has s) :
    heap'.Resolves x := by
  rw [resolves_iff] at h ⊢
  exact fun s hs => hkeeps s (h s hs)

/-! ## Heaps that agree in a place -/

/-- In both heaps the place holds the same container, or none. -/
def SameAt (heap heap' : Heap) : ArrayRef ⊕ MapRef → Prop
  | .inl a => heap'.items a = heap.items a
  | .inr m => heap'.entries m = heap.entries m

theorem SameAt.refl (heap : Heap) (s : ArrayRef ⊕ MapRef) : heap.SameAt heap s := by
  cases s <;> rfl

theorem SameAt.trans (h : heap.SameAt heap₁ s) (h' : heap₁.SameAt heap₂ s) :
    heap.SameAt heap₂ s := by
  cases s with
  | inl a => exact Eq.trans h' h
  | inr m => exact Eq.trans h' h

theorem Has.sameAt_of_extends (h : heap.Has s) (hext : heap.Extends heap') :
    heap.SameAt heap' s := by
  cases s with
  | inl a =>
    obtain ⟨xs, hxs⟩ := exists_items_iff.mpr h
    exact (hext.items hxs).trans hxs.symm
  | inr m =>
    obtain ⟨es, hes⟩ := exists_entries_iff.mpr h
    exact (hext.entries hes).trans hes.symm

/-! ## Added places -/

/-- Which of the added containers the place is that of, if those of maps come last. -/
def row (heap : Heap) (arrays : List (List Item)) : ArrayRef ⊕ MapRef → Nat
  | .inl a => a.index.toNat - heap.arrays.size
  | .inr m => arrays.length + (m.index.toNat - heap.maps.size)

variable {arrays : List (List Item)} {maps : List Entries} {s' : ArrayRef ⊕ MapRef}

theorem getElem?_row (h : heap.Added (heap.add arrays maps) s) :
    (arrays ++ maps.map Entries.values)[heap.row arrays s]? =
      some ((heap.add arrays maps).held s) := by
  cases s with
  | inl a =>
    obtain ⟨hlt, hge⟩ := h
    simp only [Has, size_arrays_add] at hlt hge
    have hi : heap.row arrays (.inl a) < arrays.length := by
      simp only [row]
      omega
    rw [List.getElem?_append_left hi]
    simp only [held, add, Array.getElem?_append_right (Nat.not_lt.mp hge)]
    rw [List.getElem?_toArray, show a.index.toNat - heap.arrays.size = heap.row arrays (.inl a)
      from rfl, List.getElem?_eq_getElem hi, Option.getD_some]
  | inr m =>
    obtain ⟨hlt, hge⟩ := h
    simp only [Has, size_maps_add] at hlt hge
    have hi : m.index.toNat - heap.maps.size < maps.length := by omega
    rw [row, List.getElem?_append_right (Nat.le_add_right _ _), Nat.add_sub_cancel_left]
    simp only [held, add, Array.getElem?_append_right (Nat.not_lt.mp hge)]
    rw [List.getElem?_toArray, List.getElem?_map, List.getElem?_eq_getElem hi, Option.map_some,
      Option.getD_some]

theorem row_inj (h : heap.Added (heap.add arrays maps) s)
    (h' : heap.Added (heap.add arrays maps) s') (hrow : heap.row arrays s = heap.row arrays s') :
    s = s' := by
  obtain ⟨hlt, hge⟩ := h
  obtain ⟨hlt', hge'⟩ := h'
  cases s with
  | inl a =>
    cases s' with
    | inl b =>
      simp only [Has, size_arrays_add, row] at *
      rw [Sum.inl.injEq, ArrayRef.mk.injEq, ← UInt32.toNat_inj]
      omega
    | inr n =>
      simp only [Has, size_arrays_add, row] at *
      omega
  | inr m =>
    cases s' with
    | inl b =>
      simp only [Has, size_arrays_add, row] at *
      omega
    | inr n =>
      simp only [Has, size_maps_add, row] at *
      rw [Sum.inr.injEq, MapRef.mk.injEq, ← UInt32.toNat_inj]
      omega

end Heap

/-- All references, one row for each item list and one for each container. -/
theorem references_eq_flatten (xs : List Item) (arrays : List (List Item))
    (maps : List Entries) :
    references xs arrays maps = (xs :: (arrays ++ maps.map Entries.values)).flatten := by
  simp [references, List.flatMap_def]

theorem Heap.mem_references {heap : Heap} {arrays : List (List Item)} {maps : List Entries}
    {s : ArrayRef ⊕ MapRef} {z : Item} (xs : List Item)
    (hs : heap.Added (heap.add arrays maps) s) (hz : z ∈ (heap.add arrays maps).held s) :
    z ∈ references xs arrays maps := by
  rw [references_eq_flatten, List.flatten_cons]
  exact List.mem_append_right _
    (List.mem_flatten.mpr ⟨_, List.mem_of_getElem? (getElem?_row hs), hz⟩)

end ScriptHost

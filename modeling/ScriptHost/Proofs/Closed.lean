import ScriptHost.Proofs.Separation

/-!
# ScriptHost.Proofs.Closed

Heaps without dangling handles. In a closed heap every good handle leads to good handles only
(`Closed.whole`). A heap stays closed when containers of good items are added and when a good item
is written to a container; decoding keeps it closed whatever the input is, since what it adds
refers to itself (`Closed.decode`).
-/

namespace ScriptHost

namespace Heap

/-- Every handle inside the heap is good, and no map has a key twice. -/
structure Closed (heap : Heap) : Prop where
  arrays : ∀ xs ∈ heap.arrays, ∀ x ∈ xs, heap.Resolves x
  maps : ∀ es ∈ heap.maps, ∀ x ∈ es.values, heap.Resolves x
  keys : ∀ es ∈ heap.maps, es.keys.Nodup

variable {heap heap' : Heap} {x y : Item} {s : ArrayRef ⊕ MapRef} {arrays : List (List Item)}
  {maps : List Entries}

theorem Closed.resolves_of_holds (h : heap.Closed) (hy : heap.Holds x y) : heap.Resolves y := by
  cases hy with
  | array hxs hy => exact h.arrays _ (Array.mem_of_getElem? (items_eq_ok_iff.mp hxs)) y hy
  | struct hxs hy => exact h.arrays _ (Array.mem_of_getElem? (items_eq_ok_iff.mp hxs)) y hy
  | map hes hy => exact h.maps _ (Array.mem_of_getElem? (entries_eq_ok_iff.mp hes)) y hy

theorem Closed.whole (h : heap.Closed) (hx : heap.Resolves x) : heap.Whole x := by
  intro y hy
  cases hy with
  | refl => exact hx
  | tail _ hzy => exact h.resolves_of_holds hzy

/-! ## Adding containers -/

theorem Closed.add (h : heap.Closed)
    (hnew : ∀ x ∈ references [] arrays maps, (heap.add arrays maps).Resolves x) :
    (heap.add arrays maps).Closed where
  arrays := by
    intro xs hxs x hx
    rcases Array.mem_append.mp hxs with hxs | hxs
    · exact (h.arrays xs hxs x hx).mono fun s hs => hs.add arrays maps
    · refine hnew x (List.mem_append_right _ (List.mem_append_left _ ?_))
      exact List.mem_flatten.mpr ⟨xs, by simpa using hxs, hx⟩
  maps := by
    intro es hes x hx
    rcases Array.mem_append.mp hes with hes | hes
    · exact (h.maps es hes x hx).mono fun s hs => hs.add arrays maps
    · refine hnew x (List.mem_append_right _ (List.mem_append_right _ ?_))
      exact List.mem_flatMap.mpr ⟨es, by simpa using hes, hx⟩
  keys := fun es _ => es.distinct

/-- Decoded items have good handles, and those that the new containers hold are good. -/
theorem Closed.decode {data : Bytes} {limits : Limits} (h : heap.Closed)
    (hdecode : ScriptHost.decode heap data limits = (.ok y, heap')) :
    heap'.Closed ∧ heap'.Resolves y := by
  obtain ⟨arrays, maps, hapart⟩ := decode_apart hdecode
  have good (x : Item) (hx : x ∈ references [y] arrays maps) : heap'.Resolves x := by
    rw [resolves_iff]
    exact fun s hs => (hapart.added x hx s hs).1
  obtain rfl := hapart.eq_add
  exact ⟨h.add fun x hx => good x (List.mem_append_right _ hx), good y (by simp [references])⟩

/-! ## Writing to a container -/

theorem has_setItems {a : ArrayRef} {xs : List Item} :
    (heap.setItems a xs).Has s ↔ heap.Has s := by
  cases s <;> simp [Has, setItems]

theorem has_setEntries {m : MapRef} {es : Entries} :
    (heap.setEntries m es).Has s ↔ heap.Has s := by
  cases s <;> simp [Has, setEntries]

theorem Closed.setItems {a : ArrayRef} {xs : List Item} (h : heap.Closed)
    (hxs : ∀ x ∈ xs, heap.Resolves x) : (heap.setItems a xs).Closed := by
  have keeps {x : Item} (hx : heap.Resolves x) : (heap.setItems a xs).Resolves x :=
    hx.mono fun s => has_setItems.mpr
  refine ⟨?_, ?_, fun es _ => es.distinct⟩
  · intro ys hys x hx
    rcases Array.mem_or_eq_of_mem_setIfInBounds hys with hys | rfl
    · exact keeps (h.arrays ys hys x hx)
    · exact keeps (hxs x hx)
  · intro es hes x hx
    exact keeps (h.maps es hes x hx)

theorem Closed.setEntries {m : MapRef} {es : Entries} (h : heap.Closed)
    (hes : ∀ x ∈ es.values, heap.Resolves x) : (heap.setEntries m es).Closed := by
  have keeps {x : Item} (hx : heap.Resolves x) : (heap.setEntries m es).Resolves x :=
    hx.mono fun s => has_setEntries.mpr
  refine ⟨?_, ?_, fun es _ => es.distinct⟩
  · intro ys hys x hx
    exact keeps (h.arrays ys hys x hx)
  · intro es' hes' x hx
    rcases Array.mem_or_eq_of_mem_setIfInBounds hes' with hes' | rfl
    · exact keeps (h.maps es' hes' x hx)
    · exact keeps (hes x hx)

end Heap

theorem mapInArray_closed : mapInArray.Closed where
  arrays := by simp [mapInArray, Heap.resolves_iff, Item.slot?, Heap.Has]
  maps := by simp [mapInArray, Entries.values, Entries.empty]
  keys := by simp [mapInArray]

end ScriptHost

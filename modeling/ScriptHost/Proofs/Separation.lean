import ScriptHost.Proofs.Places
import ScriptHost.Proofs.Relocation

/-!
# ScriptHost.Proofs.Separation

What decoding adds to a heap stands by itself. The made items and the containers made so far refer
to containers made by the same run (`Apart`): a new container takes items off the stack and its own
reference comes in their place. So nothing that was there before can be reached from what has been
decoded (`Apart.added_of_reaches`), whatever the input and however long it is.
-/

namespace ScriptHost

/-- The heap is `base` with more containers behind it, and everything that the items and these
containers refer to is among them. -/
structure Apart (base heap : Heap) (xs : List Item) (arrays : List (List Item))
    (maps : List Entries) : Prop where
  eq_add : heap = base.add arrays maps
  added : ∀ x ∈ references xs arrays maps, ∀ s, x.slot? = some s → base.Added heap s

variable {base heap heap' : Heap} {xs rest made made' : List Item} {x y : Item}
  {arrays arrays' : List (List Item)} {maps maps' : List Entries} {s s₀ : ArrayRef ⊕ MapRef}

theorem Apart.nil (heap : Heap) : Apart heap heap [] [] [] where
  eq_add := by simp
  added := by simp [references]

/-- An item that is no reference can come and go. -/
theorem Apart.cons (h : Apart base heap made arrays maps) (hx : x.slot? = none) :
    Apart base heap (x :: made) arrays maps where
  eq_add := h.eq_add
  added := by
    intro y hy s hs
    rcases List.mem_cons.mp hy with rfl | hy
    · rw [hx] at hs
      cases hs
    · exact h.added y hy s hs

/-- A container takes the place of items that it is made of. -/
theorem Apart.hold (h : Apart base heap (xs ++ rest) arrays maps) (hslot : x.slot? = some s₀)
    (hadd : heap' = heap.add arrays' maps') (hhas : heap'.Has s₀) (hfree : ¬heap.Has s₀)
    (hmade : ∀ z ∈ references [] arrays' maps', z ∈ xs) :
    Apart base heap' (x :: rest) (arrays ++ arrays') (maps ++ maps') where
  eq_add := by rw [hadd, h.eq_add, Heap.add_add]
  added := by
    have old (z : Item) (hz : z ∈ references (xs ++ rest) arrays maps) (s : ArrayRef ⊕ MapRef)
        (hs : z.slot? = some s) : base.Added heap' s := by
      obtain ⟨hin, hnew⟩ := h.added z hz s hs
      exact ⟨hadd ▸ hin.add arrays' maps', hnew⟩
    intro z hz s hs
    simp only [references, List.mem_append, List.mem_cons, List.flatten_append,
      List.flatMap_append, List.nil_append] at hz hmade old
    rcases hz with (rfl | hz) | (hz | hz) | (hz | hz)
    · cases hslot.symm.trans hs
      exact ⟨hhas, fun hin => hfree (h.eq_add ▸ hin.add arrays maps)⟩
    · exact old z (.inl (.inr hz)) s hs
    · exact old z (.inr (.inl hz)) s hs
    · exact old z (.inl (.inl (hmade z (.inl hz)))) s hs
    · exact old z (.inr (.inr hz)) s hs
    · exact old z (.inl (.inl (hmade z (.inr hz)))) s hs

/-! ## Making the items -/

theorem splitFirst?_eq_some {n : Nat} (h : splitFirst? n made = some (xs, rest)) :
    made = xs ++ rest := by
  simp only [splitFirst?, List.splitAt_eq] at h
  split at h
  · cases h
    exact (List.take_append_drop n made).symm
  · cases h

/-- No value gets into a map that was not written to it. -/
theorem Entries.mem_values_insertAll {es es' : Entries} (h : es.insertAll xs = .ok es')
    (hy : y ∈ es'.values) : y ∈ es.values ∨ y ∈ xs := by
  fun_induction Entries.insertAll es xs with
  | case1 => cases h
  | case2 es key value rest k _ ih =>
    rcases ih h with hy | hy
    · rcases mem_values_insert hy with rfl | hy
      · exact .inr (by simp)
      · exact .inl hy
    · exact .inr (List.mem_cons_of_mem _ (List.mem_cons_of_mem _ hy))
  | case3 =>
    cases h
    exact .inl hy

theorem Node.build_apart {kind : ContainerKind} (h : Apart base heap (xs ++ rest) arrays maps)
    (hbuild : build kind xs heap = (.ok x, heap')) :
    ∃ arrays' maps', Apart base heap' (x :: rest) arrays' maps' := by
  have hbuilt := built kind xs heap
  rw [hbuild] at hbuilt
  cases hbuilt with
  | array ha =>
    exact ⟨_, _, h.hold rfl rfl ((Heap.has_add_array ha xs).mpr (.inr rfl))
      (by simp [Heap.Has, ha]) (by simp [references])⟩
  | struct ha =>
    exact ⟨_, _, h.hold rfl rfl ((Heap.has_add_array ha xs).mpr (.inr rfl))
      (by simp [Heap.Has, ha]) (by simp [references])⟩
  | @map m es hes hm =>
    refine ⟨_, _, h.hold rfl rfl ((Heap.has_add_map hm es).mpr (.inr rfl))
      (by simp [Heap.Has, hm]) ?_⟩
    intro z hz
    rcases Entries.mem_values_insertAll hes (by simpa [references] using hz) with hz | hz
    · cases hz
    · exact hz

theorem Node.place_apart {node : Node} (h : Apart base heap made arrays maps)
    (hplace : node.place made heap = (.ok made', heap')) :
    ∃ arrays' maps', Apart base heap' made' arrays' maps' := by
  cases node with
  | leaf k =>
    cases hplace
    exact ⟨arrays, maps, h.cons (slot?_of_key? k.key?_item)⟩
  | container kind count =>
    simp only [place] at hplace
    split at hplace
    · cases hplace
    · rename_i xs rest hsplit
      obtain rfl := splitFirst?_eq_some hsplit
      split at hplace
      · cases hplace
      · rename_i hbuild
        cases hplace
        exact build_apart h hbuild

theorem Node.placeAll_apart {nodes : List Node} (h : Apart base heap made arrays maps)
    (hplace : placeAll nodes made heap = (.ok made', heap')) :
    ∃ arrays' maps', Apart base heap' made' arrays' maps' := by
  induction nodes generalizing made heap arrays maps with
  | nil =>
    cases hplace
    exact ⟨arrays, maps, h⟩
  | cons node nodes ih =>
    rw [placeAll] at hplace
    split at hplace
    · cases hplace
    · rename_i hnode
      obtain ⟨arrays₁, maps₁, h₁⟩ := place_apart h hnode
      exact ih h₁ hplace

theorem decode_apart {data : Bytes} {limits : Limits}
    (h : decode heap data limits = (.ok y, heap')) :
    ∃ arrays maps, Apart heap heap' [y] arrays maps := by
  unfold decode at h
  split at h
  · cases h
  · simp only at h
    split at h
    · cases h
    · rename_i hrebuild
      cases h
      unfold rebuild at hrebuild
      split at hrebuild
      · cases hrebuild
      · rename_i hplace
        cases hrebuild
        exact Node.placeAll_apart (.nil heap) hplace
      · cases hrebuild

/-! ## What can be reached -/

theorem Apart.added_of_held (h : Apart base heap xs arrays maps) (hs : base.Added heap s)
    (hy : y ∈ heap.held s) (hs₀ : y.slot? = some s₀) : base.Added heap s₀ := by
  refine h.added y ?_ s₀ hs₀
  rw [h.eq_add] at hs hy
  exact Heap.mem_references xs hs hy

/-- From what was added, only what was added can be reached. -/
theorem Apart.added_of_reaches (h : Apart base heap xs arrays maps) (hy : y ∈ xs)
    (hx : heap.Reaches y x) (hs : x.slot? = some s) : base.Added heap s := by
  induction hx generalizing s with
  | refl => exact h.added y (List.mem_append_left _ hy) s hs
  | tail _ hxz ih =>
    obtain ⟨s', hs', hz⟩ := Heap.holds_iff.mp hxz
    exact h.added_of_held (ih hs') hz hs

end ScriptHost

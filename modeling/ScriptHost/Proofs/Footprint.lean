import ScriptHost.Proofs.Visits
import ScriptHost.Proofs.Writing

/-!
# ScriptHost.Proofs.Footprint

What writing looks at. Every item that comes up while `x` is written is reached from `x`: a visit
queues what stands directly inside the visited item (`visit_within`). So two heaps that agree in
the places of these items give the same outcome, errors included (`encode_congr`), and where none
of these handles dangles the heap is never to blame (`encode_ne_heap_error`).
-/

namespace ScriptHost

/-- The node is not an item, or an item of `P`. -/
def Pending.Within (P : Item → Prop) (node : Pending) : Prop := ∀ x, node = .item x → P x

namespace Encoder

variable {heap heap' : Heap} {limits : Limits} {P : Item → Prop} {s s' : Encoder} {node : Pending}
  {x : Item}

/-! ## What a visit queues -/

theorem enterItems_pending {tag : Tag} {h : ArrayRef} (hv : s.enterItems heap tag h = .ok s')
    (hx : .item x ∈ s'.pending) :
    .item x ∈ s.pending ∨ ∃ xs, heap.items h = .ok xs ∧ x ∈ xs := by
  unfold enterItems at hv
  simp only at hv
  split at hv
  · cases hv
  · split at hv
    · cases hv
    · rename_i xs hxs
      cases hv
      simp only [List.mem_append, List.mem_map, List.mem_cons, Pending.item.injEq,
        exists_eq_right, reduceCtorEq, false_or] at hx
      exact hx.symm.imp_right fun hx => ⟨xs, hxs, hx⟩

theorem enterMap_pending {h : MapRef} (hv : s.enterMap heap h = .ok s')
    (hx : .item x ∈ s'.pending) :
    .item x ∈ s.pending ∨ ∃ es, heap.entries h = .ok es ∧ x ∈ es.values := by
  unfold enterMap at hv
  simp only at hv
  split at hv
  · cases hv
  · split at hv
    · cases hv
    · rename_i es hes
      cases hv
      simp only [List.mem_append, List.mem_flatMap, List.mem_cons, Pending.item.injEq,
        reduceCtorEq, List.not_mem_nil, or_false, false_or] at hx
      rcases hx with ⟨e, he, rfl⟩ | hx
      · exact .inr ⟨es, hes, List.mem_map_of_mem he⟩
      · exact .inl hx

/-- An item that a visit queues stands directly inside the visited one. -/
theorem visit_pending (hv : s.visit heap node = .ok s') (hx : .item x ∈ s'.pending) :
    .item x ∈ s.pending ∨ ∃ y, node = .item y ∧ heap.Holds y x := by
  unfold visit at hv
  split at hv
  · cases hv
    exact .inl hx
  · cases hv
    exact .inl hx
  · cases hv
    exact .inl hx
  · cases hv
    exact .inl hx
  · cases hv
  · rcases enterItems_pending hv hx with hx | ⟨xs, hxs, hx⟩
    · exact .inl hx
    · exact .inr ⟨_, rfl, .array hxs hx⟩
  · rcases enterItems_pending hv hx with hx | ⟨xs, hxs, hx⟩
    · exact .inl hx
    · exact .inr ⟨_, rfl, .struct hxs hx⟩
  · rcases enterMap_pending hv hx with hx | ⟨es, hes, hx⟩
    · exact .inl hx
    · exact .inr ⟨_, rfl, .map hes hx⟩
  · cases hv
    exact .inl hx
  · cases hv
    exact .inl hx

theorem visit_within (hv : s.visit heap node = .ok s') (hnode : node.Within P)
    (hpending : ∀ p ∈ s.pending, p.Within P) (hP : ∀ x y, P x → heap.Holds x y → P y) :
    ∀ p ∈ s'.pending, p.Within P := by
  rintro p hp x rfl
  rcases visit_pending hv hp with hx | ⟨y, hy, hx⟩
  · exact hpending _ hx x rfl
  · exact hP y x (hnode y hy) hx

/-! ## What a visit reads -/

theorem visit_congr (h : node.Within fun x => ∀ p, x.slot? = some p → heap.SameAt heap' p) :
    s.visit heap' node = s.visit heap node := by
  have items (tag : Tag) (a : ArrayRef) (ha : heap.SameAt heap' (.inl a)) :
      s.enterItems heap' tag a = s.enterItems heap tag a := by
    have ha : heap'.items a = heap.items a := ha
    simp only [enterItems, ha]
  have entries (m : MapRef) (hm : heap.SameAt heap' (.inr m)) :
      s.enterMap heap' m = s.enterMap heap m := by
    have hm : heap'.entries m = heap.entries m := hm
    simp only [enterMap, hm]
  cases node with
  | item x =>
    have h := h x rfl
    cases x with
    | array a => exact items .array a (h _ rfl)
    | struct a => exact items .struct a (h _ rfl)
    | map m => exact entries m (h _ rfl)
    | bytes b => rfl
    | boolean v => rfl
    | integer n => rfl
    | host r => rfl
  | key k => rfl
  | leaveArray a => rfl
  | leaveMap m => rfl

theorem visit_ne_heap_error (h : node.Within heap.Resolves) (e : HeapError) :
    s.visit heap node ≠ .error (.heap e) := by
  intro hv
  have hvisited := visited heap s node
  rw [hv] at hvisited
  cases hvisited with
  | dangling hx hslot _ hdangling =>
    cases node with
    | item x =>
      cases hx
      exact hdangling (Heap.resolves_iff.mp (h _ rfl) _ hslot)
    | key k =>
      cases hx
      rw [slot?_of_key? k.key?_item] at hslot
      cases hslot
    | leaveArray a => cases hx
    | leaveMap m => cases hx

/-! ## The run -/

theorem step_congr (h : node.Within fun x => ∀ p, x.slot? = some p → heap.SameAt heap' p) :
    s.step heap' limits node = s.step heap limits node := by
  rw [step, step, visit_congr h]

theorem run_congr (hs : ∀ p ∈ s.pending, p.Within P) (hP : ∀ x y, P x → heap.Holds x y → P y)
    (h : ∀ x, P x → ∀ p, x.slot? = some p → heap.SameAt heap' p) :
    run heap' limits s = run heap limits s := by
  fun_induction run heap limits s with
  | case1 s hp =>
    obtain ⟨out, pending, arrays, maps⟩ := s
    cases hp
    exact run_nil out arrays maps
  | case2 s node rest hp e hstep =>
    obtain ⟨out, pending, arrays, maps⟩ := s
    cases hp
    have hnode := hs node List.mem_cons_self
    rw [run_cons, step_congr fun x hx => h x (hnode x hx), hstep]
  | case3 s node rest hp s' hstep _ _ ih =>
    obtain ⟨out, pending, arrays, maps⟩ := s
    cases hp
    have hnode := hs node List.mem_cons_self
    rw [run_cons, step_congr fun x hx => h x (hnode x hx), hstep]
    exact ih (visit_within (step_eq_ok_iff.mp hstep).1 hnode
      (fun p hp => hs p (List.mem_cons_of_mem _ hp)) hP)

theorem step_ne_heap_error (h : node.Within heap.Resolves) (e : HeapError) :
    s.step heap limits node ≠ .error (.heap e) := by
  unfold step
  split
  · rename_i err herr
    rw [← herr]
    exact visit_ne_heap_error h e
  · split <;> simp

theorem run_ne_heap_error (hs : ∀ p ∈ s.pending, p.Within heap.Whole) (e : HeapError) :
    run heap limits s ≠ .error (.heap e) := by
  fun_induction run heap limits s with
  | case1 => simp
  | case2 s node rest hp err hstep =>
    have hnode : node.Within heap.Whole := hs node (by simp [hp])
    intro h
    cases h
    exact step_ne_heap_error (fun x hx => (hnode x hx).resolves) e hstep
  | case3 s node rest hp s' hstep _ _ ih =>
    have hnode : node.Within heap.Whole := hs node (by simp [hp])
    exact ih (visit_within (step_eq_ok_iff.mp hstep).1 hnode
      (fun p hrest => hs p (by rw [hp]; exact List.mem_cons_of_mem _ hrest))
      fun x y hx => hx.of_holds)

end Encoder

/-- The outcome of writing depends on the containers that the item reaches, and on no others. -/
theorem encode_congr {heap heap' : Heap} {x : Item}
    (h : ∀ y, heap.Reaches x y → ∀ s, y.slot? = some s → heap.SameAt heap' s) (limits : Limits) :
    encode heap' x limits = encode heap x limits := by
  refine Encoder.run_congr (P := heap.Reaches x) ?_ (fun y z hy hz => hy.tail hz) h
  intro p hp y hy
  rw [List.mem_singleton.mp hp, Pending.item.injEq] at hy
  exact hy ▸ .refl

theorem encode_ne_heap_error {heap : Heap} {x : Item} (h : heap.Whole x) (limits : Limits)
    (e : HeapError) : encode heap x limits ≠ .error (.heap e) := by
  refine Encoder.run_ne_heap_error ?_ e
  intro p hp y hy
  rw [List.mem_singleton.mp hp, Pending.item.injEq] at hy
  exact hy ▸ h

end ScriptHost

import ScriptHost.Proofs.Places

/-!
# ScriptHost.Proofs.Visits

What one visit of writing comes to. A node is an item or a key, and a key is written as the item
that it is; a marker ends the contents of a container. `Encoder.Visited` lists all that a visit can
do: write a leaf, refuse a host reference, an open container or a bad handle, open a container, or
close one. What a container has directly inside it is given by `Heap.parts`, in the order of
writing, and what a node adds by itself by `Heap.ownBytes`.
-/

namespace ScriptHost

namespace Pending

/-- The item that the node stands for; a marker stands for none. -/
def item? : Pending → Option Item
  | item x => some x
  | key k => some k.item
  | leaveArray _ | leaveMap _ => none

/-- The container that the marker closes. -/
def closes? : Pending → Option (ArrayRef ⊕ MapRef)
  | leaveArray h => some (.inl h)
  | leaveMap h => some (.inr h)
  | item _ | key _ => none

theorem closes?_of_item? {node : Pending} {x : Item} (h : node.item? = some x) :
    node.closes? = none := by
  cases node <;> first | rfl | cases h

theorem exists_closes? {node : Pending} (h : node.item? = none) :
    ∃ c, node.closes? = some c := by
  cases node with
  | item x => cases h
  | key k => cases h
  | leaveArray a => exact ⟨_, rfl⟩
  | leaveMap m => exact ⟨_, rfl⟩

end Pending

namespace Heap

/-- What stands directly inside an item. In a map, a key stands before its value. -/
def parts (heap : Heap) : Item → List Item
  | .array h | .struct h =>
    match heap.items h with
    | .error _ => []
    | .ok xs => xs
  | .map h =>
    match heap.entries h with
    | .error _ => []
    | .ok es => es.pairs.flatMap fun e => [e.1.item, e.2]
  | .bytes _ | .boolean _ | .integer _ | .host _ => []

/-- The bytes of a leaf, or the header of a container. -/
def ownBytes (heap : Heap) : Item → Bytes
  | .bytes b => (Key.bytes b).encoding
  | .boolean v => (Key.boolean v).encoding
  | .integer n => (Key.integer n).encoding
  | .array h =>
    match heap.items h with
    | .error _ => []
    | .ok xs => Encoder.header .array xs.length
  | .struct h =>
    match heap.items h with
    | .error _ => []
    | .ok xs => Encoder.header .struct xs.length
  | .map h =>
    match heap.entries h with
    | .error _ => []
    | .ok es => Encoder.header .map es.size
  | .host _ => []

variable {heap : Heap} {x : Item} {k : Key}

theorem ownBytes_of_key? (h : x.key? = some k) : heap.ownBytes x = k.encoding := by
  rw [Item.key?_eq_some_iff.mp h]
  cases k <;> rfl

theorem parts_of_key? (h : x.key? = some k) : heap.parts x = [] := by
  rw [Item.key?_eq_some_iff.mp h]
  cases k <;> rfl

theorem items_eq_error {a : ArrayRef} {e : HeapError} (h : heap.items a = .error e) :
    e = .badHandle a.index ∧ ¬heap.Has (.inl a) := by
  refine ⟨?_, fun hhas => ?_⟩
  · unfold items at h
    split at h <;> cases h
    rfl
  · obtain ⟨xs, hxs⟩ := exists_items_iff.mpr hhas
    rw [hxs] at h
    cases h

theorem entries_eq_error {m : MapRef} {e : HeapError} (h : heap.entries m = .error e) :
    e = .badHandle m.index ∧ ¬heap.Has (.inr m) := by
  refine ⟨?_, fun hhas => ?_⟩
  · unfold entries at h
    split at h <;> cases h
    rfl
  · obtain ⟨es, hes⟩ := exists_entries_iff.mpr hhas
    rw [hes] at h
    cases h

end Heap

namespace Encoder

/-- The contents of the container at this place are being written. -/
def Open (s : Encoder) : ArrayRef ⊕ MapRef → Prop
  | .inl h => h ∈ s.openArrays
  | .inr h => h ∈ s.openMaps

/-- The containers that the markers among these nodes close. -/
def closings (nodes : List Pending) : List (ArrayRef ⊕ MapRef) :=
  nodes.filterMap Pending.closes?

@[simp] theorem closings_nil : closings [] = [] := rfl

theorem closings_node {node : Pending} {y : Item} (h : node.item? = some y) (rest : List Pending) :
    closings (node :: rest) = closings rest :=
  List.filterMap_cons_none (Pending.closes?_of_item? h)

theorem closings_marker {node : Pending} {c : ArrayRef ⊕ MapRef} (h : node.closes? = some c)
    (rest : List Pending) : closings (node :: rest) = c :: closings rest :=
  List.filterMap_cons_some h

theorem closings_contents {β : Type} {R : Pending → β → Prop} {contents rest : List Pending}
    {bs : List β} (h : List.Forall₂ R contents bs)
    (hR : ∀ node b, R node b → ∃ y, node.item? = some y) :
    closings (contents ++ rest) = closings rest := by
  induction h with
  | nil => rfl
  | cons hnode _ ih =>
    obtain ⟨y, hy⟩ := hR _ _ hnode
    rw [List.cons_append, closings_node hy, ih]

/-- What comes of visiting a node or a marker. -/
inductive Visited (heap : Heap) (s : Encoder) (node : Pending) :
    Except EncodeError Encoder → Prop
  | leaf {x : Item} {k : Key} : node.item? = some x → x.key? = some k →
      Visited heap s node (.ok (s.writeLeaf k))
  | host {r : HostRef} : node.item? = some (.host r) →
      Visited heap s node (.error (.unsupportedValue "Interop"))
  | circular {x : Item} {p : ArrayRef ⊕ MapRef} : node.item? = some x → x.slot? = some p →
      s.Open p → Visited heap s node (.error .circularReference)
  | dangling {x : Item} {p : ArrayRef ⊕ MapRef} : node.item? = some x → x.slot? = some p →
      ¬s.Open p → ¬heap.Has p →
      Visited heap s node (.error (.heap (.badHandle (p.elim ArrayRef.index MapRef.index))))
  | enter {x : Item} {p : ArrayRef ⊕ MapRef} {s' : Encoder} {contents : List Pending}
      {marker : Pending} : node.item? = some x → x.slot? = some p → ¬s.Open p → heap.Has p →
      s'.out = s.out ++ heap.ownBytes x → s'.pending = contents ++ marker :: s.pending →
      List.Forall₂ (fun c y => c.item? = some y) contents (heap.parts x) →
      marker.closes? = some p → (∀ q, s'.Open q ↔ q = p ∨ s.Open q) →
      Visited heap s node (.ok s')
  | leave {p : ArrayRef ⊕ MapRef} {s' : Encoder} : node.closes? = some p → s'.out = s.out →
      s'.pending = s.pending → (∀ q, s'.Open q ↔ q ≠ p ∧ s.Open q) →
      Visited heap s node (.ok s')

variable {heap : Heap}

theorem enterItems_visited (s : Encoder) {tag : Tag} {a : ArrayRef} {x : Item}
    (hslot : x.slot? = some (.inl a))
    (hparts : ∀ xs, heap.items a = .ok xs →
      heap.parts x = xs ∧ heap.ownBytes x = header tag xs.length) :
    Visited heap s (.item x) (s.enterItems heap tag a) := by
  obtain ⟨out, pending, arrays, maps⟩ := s
  unfold enterItems
  simp only
  split
  · rename_i hopen
    exact .circular rfl hslot (Std.HashSet.contains_iff_mem.mp hopen)
  · rename_i hclosed
    rw [Std.HashSet.contains_iff_mem] at hclosed
    split
    · rename_i e he
      obtain ⟨rfl, hdangling⟩ := Heap.items_eq_error he
      exact .dangling rfl hslot hclosed hdangling
    · rename_i xs hxs
      obtain ⟨hparts, hown⟩ := hparts xs hxs
      refine .enter rfl hslot hclosed (Heap.exists_items_iff.mp ⟨xs, hxs⟩) ?_ rfl ?_ rfl ?_
      · rw [hown]
      · rw [hparts, List.forall₂_map_left_iff]
        exact List.forall₂_same.mpr fun _ _ => rfl
      · rintro (b | m)
        · rw [Open, Open, Std.HashSet.mem_insert, beq_iff_eq, Sum.inl.injEq, eq_comm]
        · simp [Open]

theorem enterMap_visited (s : Encoder) (m : MapRef) :
    Visited heap s (.item (.map m)) (s.enterMap heap m) := by
  obtain ⟨out, pending, arrays, maps⟩ := s
  unfold enterMap
  simp only
  split
  · rename_i hopen
    exact .circular rfl rfl (Std.HashSet.contains_iff_mem.mp hopen)
  · rename_i hclosed
    rw [Std.HashSet.contains_iff_mem] at hclosed
    split
    · rename_i e he
      obtain ⟨rfl, hdangling⟩ := Heap.entries_eq_error he
      exact .dangling (p := .inr m) rfl rfl hclosed hdangling
    · rename_i es hes
      refine .enter rfl rfl hclosed (Heap.exists_entries_iff.mp ⟨es, hes⟩) ?_ rfl ?_ rfl ?_
      · simp [Heap.ownBytes, hes]
      · simp only [Heap.parts, hes]
        generalize es.pairs = pairs
        induction pairs with
        | nil => exact .nil
        | cons e pairs ih => exact .cons rfl (.cons rfl ih)
      · rintro (b | n)
        · simp [Open]
        · rw [Open, Open, Std.HashSet.mem_insert, beq_iff_eq, Sum.inr.injEq, eq_comm]

/-- A marker adds nothing and queues nothing; it closes its container. -/
theorem Visited.of_marker {s : Encoder} {node : Pending} {c : ArrayRef ⊕ MapRef}
    {r : Except EncodeError Encoder} (h : Visited heap s node r) (hclose : node.closes? = some c) :
    ∃ s' : Encoder, r = .ok s' ∧ s'.out = s.out ∧ s'.pending = s.pending ∧
      ∀ q, s'.Open q ↔ q ≠ c ∧ s.Open q := by
  have hmarker (x) : node.item? ≠ some x := by
    intro hx
    rw [Pending.closes?_of_item? hx] at hclose
    cases hclose
  cases h with
  | leaf hx => exact absurd hx (hmarker _)
  | host hx => exact absurd hx (hmarker _)
  | circular hx => exact absurd hx (hmarker _)
  | dangling hx => exact absurd hx (hmarker _)
  | enter hx => exact absurd hx (hmarker _)
  | @leave p s' hclose' hout hpending hopens =>
    rw [hclose, Option.some_inj] at hclose'
    exact ⟨s', rfl, hout, hpending, by rw [hclose']; exact hopens⟩

theorem visited (heap : Heap) (s : Encoder) (node : Pending) :
    Visited heap s node (s.visit heap node) := by
  cases node with
  | key k => exact .leaf rfl k.key?_item
  | item x =>
    cases x with
    | bytes b => exact .leaf rfl rfl
    | boolean v => exact .leaf rfl rfl
    | integer n => exact .leaf rfl rfl
    | host r => exact .host rfl
    | array a =>
      refine enterItems_visited s rfl fun xs hxs => ?_
      simp [Heap.parts, Heap.ownBytes, hxs]
    | struct a =>
      refine enterItems_visited s rfl fun xs hxs => ?_
      simp [Heap.parts, Heap.ownBytes, hxs]
    | map m => exact enterMap_visited s m
  | leaveArray a =>
    refine .leave rfl rfl rfl ?_
    rintro (b | m)
    · rw [Open, Open, Std.HashSet.mem_erase, beq_eq_false_iff_ne, ne_comm, ne_eq, ne_eq,
        Sum.inl.injEq]
    · simp [Open]
  | leaveMap m =>
    refine .leave rfl rfl rfl ?_
    rintro (b | n)
    · simp [Open]
    · rw [Open, Open, Std.HashSet.mem_erase, beq_eq_false_iff_ne, ne_comm, ne_eq, ne_eq,
        Sum.inr.injEq]

end Encoder

end ScriptHost

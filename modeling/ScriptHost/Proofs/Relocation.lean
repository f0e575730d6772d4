import ScriptHost.Proofs.Growth

/-!
# ScriptHost.Proofs.Relocation

Decoding into a heap that holds containers already. The containers that are made go behind those
that are there, whatever comes of the decoding (`placeAll_adds`), so dropping them on a failure
gives the heap back. What they hold is what they hold in an empty heap, each handle moved by as
many places as there were containers before (`placeAll_behind`): a run over a heap that starts out
with containers and one that starts out empty go side by side, node by node.
-/

namespace ScriptHost

/-! ## Handles behind other containers -/

/-- The item with the handle that it has behind so many arrays or structs and so many maps. -/
def Item.shift (arrays maps : Nat) : Item → Item
  | array h => array ⟨UInt32.ofNat (arrays + h.index.toNat)⟩
  | struct h => struct ⟨UInt32.ofNat (arrays + h.index.toNat)⟩
  | map h => map ⟨UInt32.ofNat (maps + h.index.toNat)⟩
  | bytes b => bytes b
  | boolean v => boolean v
  | integer n => integer n
  | host r => host r

def Entries.shift (arrays maps : Nat) (es : Entries) : Entries where
  pairs := es.pairs.map fun e => (e.1, e.2.shift arrays maps)
  distinct := by simpa [List.map_map, Function.comp_def] using es.distinct

section Shift

variable (arrays maps : Nat)

@[simp] theorem Item.key?_shift (x : Item) : (x.shift arrays maps).key? = x.key? := by
  cases x <;> rfl

@[simp] theorem Item.kindName_shift (x : Item) : (x.shift arrays maps).kindName = x.kindName := by
  cases x <;> rfl

@[simp] theorem Key.shift_item (k : Key) : k.item.shift arrays maps = k.item := by
  cases k <;> rfl

@[simp] theorem Entries.shift_empty : Entries.empty.shift arrays maps = Entries.empty := rfl

theorem put_map {α β : Type} (f : α → β) (k : Key) (x : α) (pairs : List (Key × α)) :
    (put k x pairs).map (fun e => (e.1, f e.2)) =
      put k (f x) (pairs.map fun e => (e.1, f e.2)) := by
  unfold put
  simp only [List.any_map, Function.comp_def]
  split
  · simp only [List.map_map, Function.comp_def]
    refine List.map_congr_left fun e _ => ?_
    split <;> rfl
  · simp

theorem Entries.ext {es es' : Entries} (h : es.pairs = es'.pairs) : es = es' := by
  cases es
  cases es'
  cases h
  rfl

theorem Entries.shift_insert (es : Entries) (k : Key) (x : Item) :
    (es.insert k x).shift arrays maps = (es.shift arrays maps).insert k (x.shift arrays maps) :=
  Entries.ext (put_map _ k x es.pairs)

theorem Entries.insertAll_shift (es : Entries) (xs : List Item) :
    (es.shift arrays maps).insertAll (xs.map (Item.shift arrays maps)) =
      (es.insertAll xs).map (Entries.shift arrays maps) := by
  fun_induction Entries.insertAll es xs with
  | case1 es key value rest hkey => simp [insertAll, hkey, Except.map]
  | case2 es key value rest k hkey ih =>
    rw [List.map_cons, List.map_cons, insertAll, Item.key?_shift, hkey, ← ih, shift_insert]
  | case3 xs es hshort =>
    rcases xs with _ | ⟨x, _ | ⟨y, rest⟩⟩
    · rfl
    · rfl
    · exact absurd rfl (hshort x y rest)

theorem splitFirst?_map (f : Item → Item) (n : Nat) (xs : List Item) :
    splitFirst? n (xs.map f) = (splitFirst? n xs).map fun p => (p.1.map f, p.2.map f) := by
  simp only [splitFirst?, List.splitAt_eq, ← List.map_take, ← List.map_drop, List.length_map]
  split <;> rfl

end Shift

namespace Heap

/-- The item as it stands behind the containers of the heap. -/
abbrev move (base : Heap) : Item → Item := Item.shift base.arrays.size base.maps.size

/-- The containers of `heap` behind those of `base`. -/
def behind (base heap : Heap) : Heap :=
  base.add (heap.arrays.toList.map (List.map base.move))
    (heap.maps.toList.map (Entries.shift base.arrays.size base.maps.size))

variable {base heap : Heap}

@[simp] theorem behind_empty (base : Heap) : base.behind empty = base :=
  add_nil base

theorem behind_add (base heap : Heap) (arrays : List (List Item)) (maps : List Entries) :
    base.behind (heap.add arrays maps) =
      (base.behind heap).add (arrays.map (List.map base.move))
        (maps.map (Entries.shift base.arrays.size base.maps.size)) := by
  simp [behind, add]

@[simp] theorem size_arrays_behind (base heap : Heap) :
    (base.behind heap).arrays.size = base.arrays.size + heap.arrays.size := by
  simp [behind]

@[simp] theorem size_maps_behind (base heap : Heap) :
    (base.behind heap).maps.size = base.maps.size + heap.maps.size := by
  simp [behind]

/-! ## One container, behind others and not -/

/-- With room behind the others, the slot behind them is the slot without them, moved. -/
theorem nextIndex_add {n slot : Nat} (h : n + slot < UInt32.size) :
    ∃ index, nextIndex slot = .ok index ∧
      nextIndex (n + slot) = .ok (UInt32.ofNat (n + index.toNat)) := by
  obtain ⟨index, hindex⟩ := exists_nextIndex (show slot < UInt32.size by omega)
  refine ⟨index, hindex, ?_⟩
  rw [nextIndex_eq_ok_iff.mp hindex, nextIndex_eq_ok_iff]
  exact UInt32.toNat_ofNat_of_lt h

theorem allocItems_behind (hroom : base.arrays.size + heap.arrays.size < UInt32.size)
    (xs : List Item) :
    ∃ h, heap.allocItems xs = (.ok h, heap.add [xs] []) ∧
      (base.behind heap).allocItems (xs.map base.move) =
        (.ok ⟨UInt32.ofNat (base.arrays.size + h.index.toNat)⟩,
          base.behind (heap.add [xs] [])) := by
  obtain ⟨index, hindex, hmoved⟩ := nextIndex_add hroom
  refine ⟨⟨index⟩, ?_, ?_⟩
  · rw [allocItems_eq, hindex]
  · rw [allocItems_eq, size_arrays_behind, hmoved, behind_add]
    rfl

theorem allocMap_behind (hroom : base.maps.size + heap.maps.size < UInt32.size) (es : Entries) :
    ∃ h, heap.allocMap es = (.ok h, heap.add [] [es]) ∧
      (base.behind heap).allocMap (es.shift base.arrays.size base.maps.size) =
        (.ok ⟨UInt32.ofNat (base.maps.size + h.index.toNat)⟩,
          base.behind (heap.add [] [es])) := by
  obtain ⟨index, hindex, hmoved⟩ := nextIndex_add hroom
  refine ⟨⟨index⟩, ?_, ?_⟩
  · rw [allocMap_eq, hindex]
  · rw [allocMap_eq, size_maps_behind, hmoved, behind_add]
    rfl

end Heap

/-! ## Making the items -/

namespace Node

open Heap

/-- The node takes a handle of arrays and structs. -/
def isSequence : Node → Bool
  | container .array _ | container .struct _ => true
  | container .map _ | leaf _ => false

def isMap : Node → Bool
  | container .map _ => true
  | container .array _ | container .struct _ | leaf _ => false

variable {base heap : Heap}

theorem build_behind {kind : ContainerKind} {count : UInt64} (xs : List Item)
    (hroom : base.RoomFor
      (heap.arrays.size + if (container kind count).isSequence then 1 else 0)
      (heap.maps.size + if (container kind count).isMap then 1 else 0)) :
    build kind (xs.map base.move) (base.behind heap) =
      (build kind xs heap).map (Except.map base.move) base.behind := by
  unfold build
  cases kind with
  | array =>
    obtain ⟨h, halloc, hmoved⟩ := allocItems_behind (hroom.arrays _ (Nat.lt_succ_self _)) xs
    simp only [newArray, halloc, hmoved]
    rfl
  | struct =>
    obtain ⟨h, halloc, hmoved⟩ := allocItems_behind (hroom.arrays _ (Nat.lt_succ_self _)) xs
    simp only [newStruct, halloc, hmoved]
    rfl
  | map =>
    have hentries := Entries.insertAll_shift base.arrays.size base.maps.size .empty xs
    rw [Entries.shift_empty] at hentries
    simp only [hentries]
    cases Entries.empty.insertAll xs with
    | error e => rfl
    | ok es =>
      obtain ⟨h, halloc, hmoved⟩ := allocMap_behind (hroom.maps _ (Nat.lt_succ_self _)) es
      simp only [Except.map, halloc, hmoved]
      rfl

theorem place_behind {node : Node} (made : List Item)
    (hroom : base.RoomFor (heap.arrays.size + if node.isSequence then 1 else 0)
      (heap.maps.size + if node.isMap then 1 else 0)) :
    node.place (made.map base.move) (base.behind heap) =
      (node.place made heap).map (Except.map (List.map base.move)) base.behind := by
  cases node with
  | leaf k => simp [place, Except.map]
  | container kind count =>
    simp only [place, splitFirst?_map]
    cases splitFirst? (container kind count).arity.toNat made with
    | none => rfl
    | some parts =>
      simp only [Option.map_some, build_behind parts.1 hroom]
      rcases build kind parts.1 heap with ⟨_ | x, heap'⟩
      · rfl
      · rfl

/-- Making a container adds it behind the others, or nothing. -/
theorem build_adds (kind : ContainerKind) (count : UInt64) (xs : List Item) (heap : Heap) :
    ∃ arrays maps, (build kind xs heap).2 = heap.add arrays maps ∧
      arrays.length ≤ (if (container kind count).isSequence then 1 else 0) ∧
      maps.length ≤ (if (container kind count).isMap then 1 else 0) := by
  have hbuilt := built kind xs heap
  generalize build kind xs heap = r at hbuilt ⊢
  cases hbuilt with
  | array _ => exact ⟨[xs], [], by simp [isSequence]⟩
  | struct _ => exact ⟨[xs], [], by simp [isSequence]⟩
  | @map _ es _ _ => exact ⟨[], [es], by simp [isMap]⟩
  | badKey _ => exact ⟨[], [], by simp⟩
  | noItems _ _ => exact ⟨[], [], by simp⟩
  | noEntries _ => exact ⟨[], [], by simp⟩

theorem place_adds (node : Node) (made : List Item) (heap : Heap) :
    ∃ arrays maps, (node.place made heap).2 = heap.add arrays maps ∧
      arrays.length ≤ (if node.isSequence then 1 else 0) ∧
      maps.length ≤ (if node.isMap then 1 else 0) := by
  cases node with
  | leaf k => exact ⟨[], [], by simp [place]⟩
  | container kind count =>
    simp only [place]
    cases splitFirst? (container kind count).arity.toNat made with
    | none => exact ⟨[], [], by simp⟩
    | some parts =>
      have hadds := build_adds kind count parts.1 heap
      simp only
      generalize build kind parts.1 heap = r at hadds ⊢
      rcases r with ⟨_ | x, heap'⟩
      · exact hadds
      · exact hadds

theorem placeAll_adds (nodes : List Node) (made : List Item) (heap : Heap) :
    ∃ arrays maps, (placeAll nodes made heap).2 = heap.add arrays maps ∧
      arrays.length ≤ nodes.countP isSequence ∧ maps.length ≤ nodes.countP isMap := by
  induction nodes generalizing made heap with
  | nil => exact ⟨[], [], (add_nil heap).symm, Nat.le_refl _, Nat.le_refl _⟩
  | cons node nodes ih =>
    obtain ⟨arrays, maps, hadds, harrays, hmaps⟩ := place_adds node made heap
    rw [placeAll, List.countP_cons, List.countP_cons]
    rcases hplace : node.place made heap with ⟨_ | made', heap'⟩
    · rw [hplace] at hadds
      exact ⟨arrays, maps, hadds, Nat.le_add_left_of_le harrays, Nat.le_add_left_of_le hmaps⟩
    · rw [hplace] at hadds
      obtain ⟨arrays', maps', hrest, harrays', hmaps'⟩ := ih made' heap'
      refine ⟨arrays ++ arrays', maps ++ maps', ?_, ?_, ?_⟩
      · rw [← add_add, ← hadds]
        exact hrest
      · rw [List.length_append]
        omega
      · rw [List.length_append]
        omega

theorem placeAll_behind (nodes : List Node) (made : List Item) (heap : Heap)
    (hroom : base.RoomFor (heap.arrays.size + nodes.countP isSequence)
      (heap.maps.size + nodes.countP isMap)) :
    placeAll nodes (made.map base.move) (base.behind heap) =
      (placeAll nodes made heap).map (Except.map (List.map base.move)) base.behind := by
  induction nodes generalizing made heap with
  | nil => rfl
  | cons node nodes ih =>
    rw [List.countP_cons, List.countP_cons] at hroom
    obtain ⟨arrays, maps, hadds, harrays, hmaps⟩ := place_adds node made heap
    have hone : base.RoomFor (heap.arrays.size + if node.isSequence then 1 else 0)
        (heap.maps.size + if node.isMap then 1 else 0) :=
      hroom.mono (by omega) (by omega)
    have hplaced := place_behind made hone
    rw [placeAll, hplaced, placeAll]
    rcases hplace : node.place made heap with ⟨_ | made', heap'⟩
    · rfl
    · rw [hplace] at hadds
      simp only [Prod.map, Except.map]
      refine ih made' heap' (hroom.mono ?_ ?_)
      · rw [show heap' = _ from hadds, size_arrays_add]
        omega
      · rw [show heap' = _ from hadds, size_maps_add]
        omega

end Node

/-! ## Decoding -/

theorem rebuild_adds (nodes : List Node) (heap : Heap) :
    ∃ arrays maps, (rebuild nodes heap).2 = heap.add arrays maps ∧
      arrays.length ≤ nodes.countP Node.isSequence ∧ maps.length ≤ nodes.countP Node.isMap := by
  have hadds := Node.placeAll_adds nodes.reverse [] heap
  rw [List.countP_reverse, List.countP_reverse] at hadds
  unfold rebuild
  generalize Node.placeAll nodes.reverse [] heap = r at hadds ⊢
  rcases r with ⟨_ | _ | ⟨x, _ | ⟨y, made⟩⟩, heap'⟩
  · exact hadds
  · exact hadds
  · exact hadds
  · exact hadds

theorem rebuild_behind {base : Heap} (nodes : List Node)
    (hroom : base.RoomFor (nodes.countP Node.isSequence) (nodes.countP Node.isMap)) :
    rebuild nodes base = (rebuild nodes .empty).map (Except.map base.move) base.behind := by
  have hroom' : base.RoomFor (Heap.empty.arrays.size + nodes.reverse.countP Node.isSequence)
      (Heap.empty.maps.size + nodes.reverse.countP Node.isMap) := by
    simpa [Heap.empty] using hroom
  have hplaced := Node.placeAll_behind nodes.reverse [] .empty hroom'
  rw [List.map_nil, Heap.behind_empty] at hplaced
  unfold rebuild
  rw [hplaced]
  rcases Node.placeAll nodes.reverse [] .empty with ⟨_ | _ | ⟨x, _ | ⟨y, made⟩⟩, heap'⟩
  · rfl
  · rfl
  · rfl
  · rfl

/-- A failure leaves the heap as it was, even if it strikes after containers have been made. -/
theorem heap_of_decode_error {heap heap' : Heap} {data : Bytes} {limits : Limits} {e : DecodeError}
    (h : decode heap data limits = (.error e, heap')) : heap' = heap := by
  unfold decode at h
  split at h
  · cases h
    rfl
  · rename_i nodes _
    obtain ⟨arrays, maps, hadds, _⟩ := rebuild_adds nodes heap
    generalize rebuild nodes heap = r at hadds h
    rcases r with ⟨_ | x, heap₁⟩
    · cases h
      rw [show heap₁ = _ from hadds, Heap.rollback_add]
    · cases h

/-- Decoding fails and leaves the heap as it was, or adds containers behind those that are there.
With room for one handle a container, the outcome is that of decoding into an empty heap: the same
fault, or the same item and the same containers, each handle moved behind the containers that were
there, none beyond the greatest handle. -/
theorem decode_relocates (heap : Heap) (data : Bytes) (limits : Limits) :
    (∀ e heap', decode heap data limits = (.error e, heap') → heap' = heap) ∧
    ((∀ nodes, layout data limits = .ok nodes →
        heap.RoomFor (nodes.countP Node.isSequence) (nodes.countP Node.isMap)) →
      (∀ e heap', decode .empty data limits = (.error e, heap') →
        decode heap data limits = (.error e, heap)) ∧
      (∀ x heap₀, decode .empty data limits = (.ok x, heap₀) →
        heap.RoomFor heap₀.arrays.size heap₀.maps.size ∧
        decode heap data limits =
          (.ok (x.shift heap.arrays.size heap.maps.size),
            heap.add
              (heap₀.arrays.toList.map (List.map (Item.shift heap.arrays.size heap.maps.size)))
              (heap₀.maps.toList.map (Entries.shift heap.arrays.size heap.maps.size))))) := by
  refine ⟨fun _ _ => heap_of_decode_error, ?_⟩
  intro hroom
  refine ⟨?_, ?_⟩
  · intro e heap' h
    have hfails : (decode heap data limits).1 = .error e := by
      unfold decode at h ⊢
      cases hlayout : layout data limits with
      | error e' =>
        rw [hlayout] at h
        cases h
        rfl
      | ok nodes =>
        rw [hlayout] at h
        simp only [rebuild_behind nodes (hroom nodes hlayout)] at h ⊢
        generalize rebuild nodes .empty = r at h ⊢
        rcases r with ⟨_ | x, heap₁⟩
        · cases h
          rfl
        · cases h
    rcases hdecode : decode heap data limits with ⟨r, heap₁⟩
    rw [hdecode] at hfails
    cases hfails
    rw [heap_of_decode_error hdecode]
  · intro x heap₀ h
    unfold decode at h ⊢
    cases hlayout : layout data limits with
    | error e' =>
      rw [hlayout] at h
      cases h
    | ok nodes =>
      obtain ⟨arrays, maps, hadds, harrays, hmaps⟩ := rebuild_adds nodes .empty
      rw [hlayout] at h
      simp only [rebuild_behind nodes (hroom nodes hlayout)] at h ⊢
      generalize rebuild nodes .empty = r at h hadds ⊢
      rcases r with ⟨_ | y, heap₁⟩
      · cases h
      · cases h
        refine ⟨?_, rfl⟩
        rw [show heap₀ = _ from hadds]
        exact (hroom nodes hlayout).mono (by simpa [Heap.empty] using harrays)
          (by simpa [Heap.empty] using hmaps)

/-- A heap with a map that stands in an array. -/
def mapInArray : Heap where
  arrays := #[[.map ⟨0⟩]]
  maps := #[.empty]

/-- The same data once more: the second array holds the second map. -/
theorem decode_relocates_mapInArray :
    decode .empty [0x80, 0x01, 0x82, 0x00] {} = (.ok (.array ⟨0⟩), mapInArray) ∧
      decode mapInArray [0x80, 0x01, 0x82, 0x00] {} =
        (.ok (.array ⟨1⟩), mapInArray.add [[.map ⟨1⟩]] [.empty]) := by
  have hlayout : layout [0x80, 0x01, 0x82, 0x00] {} =
      .ok [.container .array 1, .container .map 0] := by cbv
  have hempty : decode .empty [0x80, 0x01, 0x82, 0x00] {} = (.ok (.array ⟨0⟩), mapInArray) := by
    decide +kernel
  have hroom (nodes : List Node) (h : layout [0x80, 0x01, 0x82, 0x00] {} = .ok nodes) :
      mapInArray.RoomFor (nodes.countP Node.isSequence) (nodes.countP Node.isMap) := by
    rw [hlayout] at h
    cases h
    exact ⟨by decide, by decide⟩
  obtain ⟨_, hmoved⟩ := decode_relocates mapInArray [0x80, 0x01, 0x82, 0x00] {}
  exact ⟨hempty, ((hmoved hroom).2 _ _ hempty).2⟩

end ScriptHost

import ScriptHost.Codec.Decode
import ScriptHost.Proofs.Unfolding

/-!
# ScriptHost.Proofs.Growth

What adding containers does to a heap, and how many can be added before the handles run out.
`heap.Grows heap' a m` says that `heap'` is `heap` with `a` more arrays or structs and `m` more
maps; such steps compose (`Grows.trans`), and each leaves room for what is still to come
(`Grows.room_iff`). `heap.add arrays maps` is the heap that comes out of it: new containers stand
behind those that were there, and dropping what was added since a mark undoes it (`rollback_add`).
`Node.built` says all that making one container can come to; what is proved of it elsewhere goes by
its cases.
-/

namespace ScriptHost

namespace Heap

/-- There are handles for so many more arrays or structs, and for so many more maps. -/
structure RoomFor (heap : Heap) (a m : Nat) : Prop where
  arrays : ∀ i < a, heap.arrays.size + i < UInt32.size
  maps : ∀ i < m, heap.maps.size + i < UInt32.size

structure Grows (heap heap' : Heap) (a m : Nat) : Prop where
  keeps : heap.Extends heap'
  arrays : heap'.arrays.size = heap.arrays.size + a
  maps : heap'.maps.size = heap.maps.size + m
  room : heap.RoomFor a m

variable {heap heap₁ heap₂ : Heap} {a m a' m' : Nat}

theorem RoomFor.none (heap : Heap) : heap.RoomFor 0 0 :=
  ⟨fun _ hi => absurd hi (Nat.not_lt_zero _), fun _ hi => absurd hi (Nat.not_lt_zero _)⟩

theorem RoomFor.mono (h : heap.RoomFor a m) (ha : a' ≤ a) (hm : m' ≤ m) : heap.RoomFor a' m' :=
  ⟨fun i hi => h.arrays i (Nat.lt_of_lt_of_le hi ha),
    fun i hi => h.maps i (Nat.lt_of_lt_of_le hi hm)⟩

/-- Room for some and then for others is room for all. -/
theorem Grows.room_iff (h : heap.Grows heap₁ a m) :
    heap.RoomFor (a + a') (m + m') ↔ heap₁.RoomFor a' m' := by
  constructor
  · intro hroom
    refine ⟨?_, ?_⟩
    · intro i hi
      have := hroom.arrays (a + i) (by omega)
      rw [h.arrays]
      omega
    · intro i hi
      have := hroom.maps (m + i) (by omega)
      rw [h.maps]
      omega
  · intro hroom
    refine ⟨?_, ?_⟩
    · intro i hi
      by_cases hia : i < a
      · exact h.room.arrays i hia
      · have := hroom.arrays (i - a) (by omega)
        rw [h.arrays] at this
        omega
    · intro i hi
      by_cases him : i < m
      · exact h.room.maps i him
      · have := hroom.maps (i - m) (by omega)
        rw [h.maps] at this
        omega

theorem Grows.refl (heap : Heap) : heap.Grows heap 0 0 :=
  ⟨Extends.refl heap, rfl, rfl, RoomFor.none heap⟩

theorem Grows.trans (h : heap.Grows heap₁ a m) (h' : heap₁.Grows heap₂ a' m') :
    heap.Grows heap₂ (a + a') (m + m') where
  keeps := h.keeps.trans h'.keeps
  arrays := by rw [h'.arrays, h.arrays, Nat.add_assoc]
  maps := by rw [h'.maps, h.maps, Nat.add_assoc]
  room := h.room_iff.mpr h'.room

/-! ## Containers behind those of a heap -/

/-- The heap with more containers behind those it holds. -/
def add (heap : Heap) (arrays : List (List Item)) (maps : List Entries) : Heap where
  arrays := heap.arrays ++ arrays.toArray
  maps := heap.maps ++ maps.toArray

@[simp] theorem add_nil (heap : Heap) : heap.add [] [] = heap := by
  simp [add]

@[simp] theorem add_add (heap : Heap) (arrays arrays' : List (List Item))
    (maps maps' : List Entries) :
    (heap.add arrays maps).add arrays' maps' = heap.add (arrays ++ arrays') (maps ++ maps') := by
  simp [add]

@[simp] theorem size_arrays_add (heap : Heap) (arrays : List (List Item)) (maps : List Entries) :
    (heap.add arrays maps).arrays.size = heap.arrays.size + arrays.length := by
  simp [add]

@[simp] theorem size_maps_add (heap : Heap) (arrays : List (List Item)) (maps : List Entries) :
    (heap.add arrays maps).maps.size = heap.maps.size + maps.length := by
  simp [add]

theorem rollback_add (heap : Heap) (arrays : List (List Item)) (maps : List Entries) :
    (heap.add arrays maps).rollback heap.mark = heap := by
  simp [add, rollback, mark]

theorem items_eq_ok_iff {a : ArrayRef} {xs : List Item} :
    heap.items a = .ok xs ↔ heap.arrays[a.index.toNat]? = some xs := by
  unfold items
  split
  · rename_i hnone
    simp [hnone]
  · rename_i hsome
    simp [hsome]

theorem entries_eq_ok_iff {m : MapRef} {es : Entries} :
    heap.entries m = .ok es ↔ heap.maps[m.index.toNat]? = some es := by
  unfold entries
  split
  · rename_i hnone
    simp [hnone]
  · rename_i hsome
    simp [hsome]

theorem extends_add (heap : Heap) (arrays : List (List Item)) (maps : List Entries) :
    heap.Extends (heap.add arrays maps) where
  items := by
    intro a xs hxs
    rw [items_eq_ok_iff] at hxs ⊢
    obtain ⟨hlt, _⟩ := Array.getElem?_eq_some_iff.mp hxs
    rw [add, Array.getElem?_append_left hlt, hxs]
  entries := by
    intro m es hes
    rw [entries_eq_ok_iff] at hes ⊢
    obtain ⟨hlt, _⟩ := Array.getElem?_eq_some_iff.mp hes
    rw [add, Array.getElem?_append_left hlt, hes]

/-! ## One container more -/

theorem nextIndex_eq_ok_iff {slot : Nat} {index : UInt32} :
    nextIndex slot = .ok index ↔ index.toNat = slot := by
  unfold nextIndex
  constructor
  · intro h
    split at h
    · rename_i hlt
      cases h
      exact UInt32.toNat_ofNat_of_lt hlt
    · cases h
  · rintro rfl
    rw [if_pos index.toNat_lt, UInt32.ofNat_toNat]

theorem nextIndex_eq_error {slot : Nat} {e : HeapError} (h : nextIndex slot = .error e) :
    e = .handlesExhausted ∧ ¬slot < UInt32.size := by
  unfold nextIndex at h
  split at h
  · cases h
  · rename_i hfull
    cases h
    exact ⟨rfl, hfull⟩

theorem exists_nextIndex {slot : Nat} (h : slot < UInt32.size) :
    ∃ index, nextIndex slot = .ok index :=
  ⟨UInt32.ofNat slot, nextIndex_eq_ok_iff.mpr (UInt32.toNat_ofNat_of_lt h)⟩

theorem grows_add_items {a : ArrayRef} (ha : a.index.toNat = heap.arrays.size)
    (xs : List Item) : heap.Grows (heap.add [xs] []) 1 0 where
  keeps := extends_add heap [xs] []
  arrays := by simp
  maps := by simp
  room := by
    refine ⟨?_, fun _ hi => absurd hi (Nat.not_lt_zero _)⟩
    intro i hi
    rw [Nat.lt_one_iff.mp hi, Nat.add_zero, ← ha]
    exact a.index.toNat_lt

theorem grows_add_entries {m : MapRef} (hm : m.index.toNat = heap.maps.size) (es : Entries) :
    heap.Grows (heap.add [] [es]) 0 1 where
  keeps := extends_add heap [] [es]
  arrays := by simp
  maps := by simp
  room := by
    refine ⟨fun _ hi => absurd hi (Nat.not_lt_zero _), ?_⟩
    intro i hi
    rw [Nat.lt_one_iff.mp hi, Nat.add_zero, ← hm]
    exact m.index.toNat_lt

theorem items_add {a : ArrayRef} (ha : a.index.toNat = heap.arrays.size) (xs : List Item) :
    (heap.add [xs] []).items a = .ok xs := by
  simp [items, add, ha]

theorem entries_add {m : MapRef} (hm : m.index.toNat = heap.maps.size) (es : Entries) :
    (heap.add [] [es]).entries m = .ok es := by
  simp [entries, add, hm]

theorem allocItems_eq (heap : Heap) (xs : List Item) :
    heap.allocItems xs =
      match nextIndex heap.arrays.size with
      | .error e => (.error e, heap)
      | .ok index => (.ok ⟨index⟩, heap.add [xs] []) := by
  unfold allocItems
  cases nextIndex heap.arrays.size with
  | error e => rfl
  | ok index => simp [add]

theorem allocMap_eq (heap : Heap) (es : Entries) :
    heap.allocMap es =
      match nextIndex heap.maps.size with
      | .error e => (.error e, heap)
      | .ok index => (.ok ⟨index⟩, heap.add [] [es]) := by
  unfold allocMap
  cases nextIndex heap.maps.size with
  | error e => rfl
  | ok index => simp [add]

end Heap

/-! ## One container of a node -/

namespace Node

open Heap

/-- What comes of making a container out of items. -/
inductive Built (xs : List Item) (heap : Heap) :
    ContainerKind → Except DecodeError Item × Heap → Prop
  | array {a : ArrayRef} : a.index.toNat = heap.arrays.size →
      Built xs heap .array (.ok (.array a), heap.add [xs] [])
  | struct {a : ArrayRef} : a.index.toNat = heap.arrays.size →
      Built xs heap .struct (.ok (.struct a), heap.add [xs] [])
  | map {m : MapRef} {es : Entries} : Entries.empty.insertAll xs = .ok es →
      m.index.toNat = heap.maps.size → Built xs heap .map (.ok (.map m), heap.add [] [es])
  | badKey {e : FormatError} : Entries.empty.insertAll xs = .error e →
      Built xs heap .map (.error (.format e), heap)
  | noItems {kind : ContainerKind} : kind ≠ .map → ¬heap.RoomFor 1 0 →
      Built xs heap kind (.error (.heap .handlesExhausted), heap)
  | noEntries : ¬heap.RoomFor 0 1 →
      Built xs heap .map (.error (.heap .handlesExhausted), heap)

theorem built (kind : ContainerKind) (xs : List Item) (heap : Heap) :
    Built xs heap kind (build kind xs heap) := by
  unfold build
  cases kind with
  | array =>
    simp only [newArray, allocItems_eq]
    cases hindex : nextIndex heap.arrays.size with
    | error e =>
      obtain ⟨rfl, hfull⟩ := nextIndex_eq_error hindex
      exact .noItems (by simp) fun hroom => hfull (hroom.arrays 0 Nat.zero_lt_one)
    | ok index => exact .array (nextIndex_eq_ok_iff.mp hindex)
  | struct =>
    simp only [newStruct, allocItems_eq]
    cases hindex : nextIndex heap.arrays.size with
    | error e =>
      obtain ⟨rfl, hfull⟩ := nextIndex_eq_error hindex
      exact .noItems (by simp) fun hroom => hfull (hroom.arrays 0 Nat.zero_lt_one)
    | ok index => exact .struct (nextIndex_eq_ok_iff.mp hindex)
  | map =>
    simp only [allocMap_eq]
    cases hes : Entries.empty.insertAll xs with
    | error e => exact .badKey hes
    | ok es =>
      simp only
      cases hindex : nextIndex heap.maps.size with
      | error e =>
        obtain ⟨rfl, hfull⟩ := nextIndex_eq_error hindex
        exact .noEntries fun hroom => hfull (hroom.maps 0 Nat.zero_lt_one)
      | ok index => exact .map hes (nextIndex_eq_ok_iff.mp hindex)

end Node

end ScriptHost

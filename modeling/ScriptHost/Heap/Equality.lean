import Std.Data.HashSet.Lemmas
import ScriptHost.Heap

/-!
# ScriptHost.Heap.Equality

Comparing two items by content. The comparison keeps a list of pairs still to be compared and
takes the newest first; a pair of containers that was opened before is not opened again, which is
what lets graphs with cycles be compared. `step` settles one pair, `run` goes on until none is
left or a difference shows. Every step either opens a pair of containers for the first time or
uses up a pair (`step_decreases`), so the comparison always ends.
-/

namespace ScriptHost

/-- Where a comparison stands. -/
structure Comparison where
  pending : List (Item × Item)
  seenArrays : Std.HashSet (ArrayRef × ArrayRef) := ∅
  seenMaps : Std.HashSet (MapRef × MapRef) := ∅

namespace Comparison

/-- Opens two element lists, unless that pair was opened before; `none` is a difference. -/
def openArrays (heap : Heap) (x y : ArrayRef) (c : Comparison) :
    Except HeapError (Option Comparison) :=
  if c.seenArrays.contains (x, y) then .ok (some c)
  else
    match heap.items x with
    | .error e => .error e
    | .ok xs =>
      match heap.items y with
      | .error e => .error e
      | .ok ys =>
        if xs.length = ys.length then
          .ok (some { c with
            pending := (xs.zip ys).reverse ++ c.pending
            seenArrays := c.seenArrays.insert (x, y) })
        else .ok none

/-- Opens two maps, unless that pair was opened before. The keys must agree place by place. -/
def openMaps (heap : Heap) (x y : MapRef) (c : Comparison) :
    Except HeapError (Option Comparison) :=
  if c.seenMaps.contains (x, y) then .ok (some c)
  else
    match heap.entries x with
    | .error e => .error e
    | .ok xs =>
      match heap.entries y with
      | .error e => .error e
      | .ok ys =>
        if xs.keys = ys.keys then
          .ok (some { c with
            pending := (xs.values.zip ys.values).reverse ++ c.pending
            seenMaps := c.seenMaps.insert (x, y) })
        else .ok none

/-- Settles one pair; `none` is a difference. Items of different kinds always differ. -/
def step (heap : Heap) (c : Comparison) : Item × Item → Except HeapError (Option Comparison)
  | (.array x, .array y) => c.openArrays heap x y
  | (.struct x, .struct y) => c.openArrays heap x y
  | (.map x, .map y) => c.openMaps heap x y
  | (a, b) => if a = b then .ok (some c) else .ok none

/-! ## Why a comparison ends -/

/-- The pairs of handles below `n`. -/
def handlePairs (n : Nat) : List (UInt32 × UInt32) :=
  let handles := (List.range n).map UInt32.ofNat
  handles.flatMap fun i => handles.map fun j => (i, j)

theorem mem_handlePairs {n : Nat} {i j : UInt32} (hi : i.toNat < n) (hj : j.toNat < n) :
    (i, j) ∈ handlePairs n := by
  simp only [handlePairs, List.mem_flatMap, List.mem_map, List.mem_range]
  exact ⟨i, ⟨i.toNat, hi, by simp⟩, j, ⟨j.toNat, hj, by simp⟩, rfl⟩

/-- How many pairs of containers in the heap are not opened yet. -/
def unopened (heap : Heap) (c : Comparison) : Nat :=
  (handlePairs heap.arrays.size).countP (fun p => !c.seenArrays.contains (⟨p.1⟩, ⟨p.2⟩)) +
    (handlePairs heap.maps.size).countP (fun p => !c.seenMaps.contains (⟨p.1⟩, ⟨p.2⟩))

theorem countP_lt {α : Type} {p q : α → Bool} {l : List α} {a : α} (ha : a ∈ l)
    (hq : q a = true) (hp : p a = false) (h : ∀ x, p x = true → q x = true) :
    l.countP p < l.countP q := by
  induction l with
  | nil => simp at ha
  | cons x rest ih =>
    have hle : rest.countP p ≤ rest.countP q := List.countP_mono_left fun y _ => h y
    rcases List.mem_cons.mp ha with rfl | ha
    · simp only [List.countP_cons, hq, hp]
      simp
      omega
    · have hlt := ih ha
      simp only [List.countP_cons]
      by_cases hx : p x = true
      · simp [hx, h x hx]
        omega
      · simp only [hx]
        simp
        omega

theorem index_lt_of_items {heap : Heap} {h : ArrayRef} {xs : List Item}
    (hx : heap.items h = .ok xs) : h.index.toNat < heap.arrays.size := by
  unfold Heap.items at hx
  split at hx
  · cases hx
  · rename_i ys hy
    exact (Array.getElem?_eq_some_iff.mp hy).1

theorem index_lt_of_entries {heap : Heap} {h : MapRef} {es : Entries}
    (hx : heap.entries h = .ok es) : h.index.toNat < heap.maps.size := by
  unfold Heap.entries at hx
  split at hx
  · cases hx
  · rename_i ys hy
    exact (Array.getElem?_eq_some_iff.mp hy).1

/-- Of the pairs of handles in range, fewer are unseen once one that was unseen is put in. -/
theorem countP_unseen_insert_lt {Ref : Type} [BEq Ref] [LawfulBEq Ref] [Hashable Ref]
    (ref : UInt32 → Ref) {seen : Std.HashSet (Ref × Ref)} {n : Nat} {i j : UInt32}
    (hi : i.toNat < n) (hj : j.toNat < n) (hnew : ¬seen.contains (ref i, ref j)) :
    (handlePairs n).countP
        (fun p => !(seen.insert (ref i, ref j)).contains (ref p.1, ref p.2)) <
      (handlePairs n).countP (fun p => !seen.contains (ref p.1, ref p.2)) := by
  refine countP_lt (mem_handlePairs hi hj) (by simpa using hnew) (by simp) ?_
  intro p hp
  simp only [Std.HashSet.contains_insert, Bool.not_or, Bool.and_eq_true] at hp
  exact hp.2

variable {heap : Heap} {c c' : Comparison}

theorem openArrays_decreases {x y : ArrayRef} (h : c.openArrays heap x y = .ok (some c')) :
    unopened heap c' < unopened heap c ∨ c' = c := by
  unfold openArrays at h
  split at h
  · cases h
    exact .inr rfl
  · rename_i hnew
    split at h
    · cases h
    · rename_i xs hx
      split at h
      · cases h
      · rename_i ys hy
        split at h
        · cases h
          have hlt := countP_unseen_insert_lt ArrayRef.mk (index_lt_of_items hx)
            (index_lt_of_items hy) hnew
          exact .inl (Nat.add_lt_add_right hlt _)
        · cases h

theorem openMaps_decreases {x y : MapRef} (h : c.openMaps heap x y = .ok (some c')) :
    unopened heap c' < unopened heap c ∨ c' = c := by
  unfold openMaps at h
  split at h
  · cases h
    exact .inr rfl
  · rename_i hnew
    split at h
    · cases h
    · rename_i xs hx
      split at h
      · cases h
      · rename_i ys hy
        split at h
        · cases h
          have hlt := countP_unseen_insert_lt MapRef.mk (index_lt_of_entries hx)
            (index_lt_of_entries hy) hnew
          exact .inl (Nat.add_lt_add_left hlt _)
        · cases h

/-- A step that goes on has opened a new pair of containers, or leaves the comparison as it
is. -/
theorem step_decreases {pair : Item × Item} (h : c.step heap pair = .ok (some c')) :
    unopened heap c' < unopened heap c ∨ c' = c := by
  unfold step at h
  split at h
  · exact openArrays_decreases h
  · exact openArrays_decreases h
  · exact openMaps_decreases h
  · split at h
    · cases h
      exact .inr rfl
    · cases h

/-- Settles pairs, newest first, until none is left or two items differ. -/
def run (heap : Heap) (c : Comparison) : Except HeapError Bool :=
  match hp : c.pending with
  | [] => .ok true
  | pair :: rest =>
    match h : step heap { c with pending := rest } pair with
    | .error e => .error e
    | .ok none => .ok false
    | .ok (some c') =>
      have shorter : rest.length < c.pending.length := by simp [hp]
      have smaller := step_decreases h
      run heap c'
termination_by (unopened heap c, c.pending.length)
decreasing_by
  rcases smaller with hlt | rfl
  · exact Prod.Lex.left _ _ hlt
  · exact Prod.Lex.right _ shorter

end Comparison

/-- Whether two items have the same content. -/
def Heap.sameContent (heap : Heap) (a b : Item) : Except HeapError Bool :=
  Comparison.run heap { pending := [(a, b)] }

end ScriptHost

import ScriptHost.Heap.Equality

/-!
# ScriptHost.Proofs.Comparing

One step of comparing, for containers of all kinds at once. Two containers of one store are a
`PlacePair`; `Heap.pairsInside` is what lies in them, pair by pair, and `Comparison.openPlaces`
opens them. So a step opens the containers of its pair, or compares two items that are no containers
of one kind (`Comparison.step_eq`).
-/

namespace ScriptHost

/-- Two containers of one store. -/
abbrev PlacePair := (ArrayRef × ArrayRef) ⊕ (MapRef × MapRef)

/-- The containers of two items, if the items are of one kind. -/
def places? : Item × Item → Option PlacePair
  | (.array x, .array y) => some (.inl (x, y))
  | (.struct x, .struct y) => some (.inl (x, y))
  | (.map x, .map y) => some (.inr (x, y))
  | _ => none

/-- What both lookups give, joined. The first is made before the second. -/
def lookupBoth {α β : Type} (first second : Except HeapError α) (join : α → α → β) :
    Except HeapError β :=
  match first with
  | .error e => .error e
  | .ok x =>
    match second with
    | .error e => .error e
    | .ok y => .ok (join x y)

theorem lookupBoth_eq_ok_iff {α β : Type} {first second : Except HeapError α} {join : α → α → β}
    {r : β} :
    lookupBoth first second join = .ok r ↔
      ∃ x y, first = .ok x ∧ second = .ok y ∧ join x y = r := by
  cases first <;> cases second <;> simp [lookupBoth]

/-- The pairs of items directly inside two containers; `none` if these differ in length or in a
key. -/
def Heap.pairsInside (heap : Heap) : PlacePair → Except HeapError (Option (List (Item × Item)))
  | .inl (x, y) =>
    lookupBoth (heap.items x) (heap.items y) fun xs ys =>
      if xs.length = ys.length then some (xs.zip ys) else none
  | .inr (x, y) =>
    lookupBoth (heap.entries x) (heap.entries y) fun xs ys =>
      if xs.keys = ys.keys then some (xs.values.zip ys.values) else none

namespace Comparison

/-- The two containers have been opened. -/
def seen (c : Comparison) : PlacePair → Bool
  | .inl p => c.seenArrays.contains p
  | .inr p => c.seenMaps.contains p

/-- The comparison after the two containers are opened, with these pairs inside. -/
def enter (c : Comparison) (pairs : List (Item × Item)) : PlacePair → Comparison
  | .inl p => { c with pending := pairs.reverse ++ c.pending, seenArrays := c.seenArrays.insert p }
  | .inr p => { c with pending := pairs.reverse ++ c.pending, seenMaps := c.seenMaps.insert p }

@[simp] theorem pending_enter (c : Comparison) (pairs : List (Item × Item)) (s : PlacePair) :
    (c.enter pairs s).pending = pairs.reverse ++ c.pending := by
  cases s <;> rfl

theorem seen_enter {c : Comparison} {pairs : List (Item × Item)} {s t : PlacePair} :
    (c.enter pairs s).seen t = true ↔ s = t ∨ c.seen t = true := by
  cases s <;> cases t <;> simp [enter, seen, Std.HashSet.contains_insert]

/-- Opens two containers, unless that was done before; `none` is a difference. -/
def openPlaces (heap : Heap) (c : Comparison) (s : PlacePair) :
    Except HeapError (Option Comparison) :=
  if c.seen s then .ok (some c)
  else
    match heap.pairsInside s with
    | .error e => .error e
    | .ok none => .ok none
    | .ok (some pairs) => .ok (some (c.enter pairs s))

theorem openArrays_eq (heap : Heap) (c : Comparison) (x y : ArrayRef) :
    c.openArrays heap x y = c.openPlaces heap (.inl (x, y)) := by
  simp only [openArrays, openPlaces, Heap.pairsInside, lookupBoth, seen]
  cases heap.items x with
  | error e => rfl
  | ok xs =>
    cases heap.items y with
    | error e => rfl
    | ok ys => by_cases hlen : xs.length = ys.length <;> simp [hlen, enter]

theorem openMaps_eq (heap : Heap) (c : Comparison) (x y : MapRef) :
    c.openMaps heap x y = c.openPlaces heap (.inr (x, y)) := by
  simp only [openMaps, openPlaces, Heap.pairsInside, lookupBoth, seen]
  cases heap.entries x with
  | error e => rfl
  | ok xs =>
    cases heap.entries y with
    | error e => rfl
    | ok ys => by_cases hkeys : xs.keys = ys.keys <;> simp [hkeys, enter]

/-- What a step does with a pair, whatever the kind of its items. -/
theorem step_eq (heap : Heap) (c : Comparison) (pair : Item × Item) :
    c.step heap pair =
      match places? pair with
      | none => .ok (if pair.1 = pair.2 then some c else none)
      | some s => c.openPlaces heap s := by
  unfold step
  split
  · exact openArrays_eq heap c _ _
  · exact openArrays_eq heap c _ _
  · exact openMaps_eq heap c _ _
  · rename_i a b harrays hstructs hmaps
    have hnone : places? (a, b) = none := by
      unfold places?
      split <;> simp_all
    rw [hnone]
    exact (apply_ite Except.ok _ _ _).symm

/-- Opening that goes on has been done before, or adds the pairs inside. -/
theorem openPlaces_ok {heap : Heap} {c c' : Comparison} {s : PlacePair}
    (h : c.openPlaces heap s = .ok (some c')) :
    (c' = c ∧ c.seen s = true) ∨
      ∃ pairs, heap.pairsInside s = .ok (some pairs) ∧ c' = c.enter pairs s := by
  unfold openPlaces at h
  split at h
  · rename_i hseen
    cases h
    exact .inl ⟨rfl, hseen⟩
  · split at h
    · cases h
    · cases h
    · rename_i pairs hpairs
      cases h
      exact .inr ⟨pairs, hpairs, rfl⟩

end Comparison

end ScriptHost

import ScriptHost.Heap
import ScriptHost.Text.Decimal
import ScriptHost.Text.Hex

/-!
# ScriptHost.Heap.Tree

The contents of an item as an indented tree, one line to a node. A list holds the branches still
to be drawn, those inside a container before those behind it. A branch that lies deeper than there
are containers shows that a container contains itself; such a tree has no end, and drawing it is
refused there. Every other step trades a branch for ones that lie deeper (`weight_lt`), so
drawing ends.
-/

namespace ScriptHost

inductive TreeError
  | heap (e : HeapError)
  | endless
deriving DecidableEq, Repr

def TreeError.message : TreeError → String
  | .heap e => e.message
  | .endless => "container contains itself"

/-- A key as it is shown in front of its value. -/
def Key.shown : Key → String
  | .bytes b => "0x" ++ Text.Hex.encode b
  | .boolean v => if v then "true" else "false"
  | .integer n => Text.Decimal.ofInt n

/-- An item in its place in a tree: how deep it lies and, in a map, under which key. -/
structure Branch where
  depth : Nat
  label : Option Key
  item : Item
deriving DecidableEq

namespace Branch

/-- What a node says of itself; `count` is the number of nodes directly inside it. -/
def caption (count : Nat) : Item → String
  | .bytes b => "ByteArray 0x" ++ Text.Hex.encode b
  | .boolean v => "Boolean " ++ if v then "true" else "false"
  | .integer n => "Integer " ++ Text.Decimal.ofInt n
  | .host r => "Interop #" ++ Text.Decimal.ofNat r.number.toNat
  | .array h => (Item.array h).kindName ++ " (" ++ Text.Decimal.ofNat count ++ ")"
  | .struct h => (Item.struct h).kindName ++ " (" ++ Text.Decimal.ofNat count ++ ")"
  | .map h => (Item.map h).kindName ++ " (" ++ Text.Decimal.ofNat count ++ ")"

def indent (depth : Nat) : String := String.ofList (List.replicate (2 * depth) ' ')

def line (b : Branch) (count : Nat) : String :=
  match b.label with
  | none => indent b.depth ++ caption count b.item
  | some k => indent b.depth ++ k.shown ++ " => " ++ caption count b.item

/-- The branches directly inside one, in order. -/
def inside (heap : Heap) (b : Branch) : Except HeapError (List Branch) :=
  match b.item with
  | .array h =>
    match heap.items h with
    | .error e => .error e
    | .ok xs => .ok (xs.map fun x => ⟨b.depth + 1, none, x⟩)
  | .struct h =>
    match heap.items h with
    | .error e => .error e
    | .ok xs => .ok (xs.map fun x => ⟨b.depth + 1, none, x⟩)
  | .map h =>
    match heap.entries h with
    | .error e => .error e
    | .ok es => .ok (es.pairs.map fun e => ⟨b.depth + 1, some e.1, e.2⟩)
  | .bytes _ | .boolean _ | .integer _ | .host _ => .ok []

/-! ## Why drawing ends -/

def total (ns : List Nat) : Nat := ns.foldr (· + ·) 0

/-- The sizes of all containers together, a bound on the size of each. -/
def breadth (heap : Heap) : Nat :=
  total (heap.arrays.toList.map List.length) + total (heap.maps.toList.map Entries.size)

/-- More than any tree of `levels` levels can have branches, if each holds at most `breadth`. -/
def room (breadth : Nat) : (levels : Nat) → Nat
  | 0 => 1
  | levels + 1 => (breadth + 1) * room breadth levels

def weight (heap : Heap) (b : Branch) : Nat := room (breadth heap) (heap.size + 1 - b.depth)

theorem room_pos (breadth levels : Nat) : 0 < room breadth levels := by
  induction levels with
  | zero => exact Nat.one_pos
  | succ levels ih => exact Nat.mul_pos (Nat.succ_pos _) ih

theorem total_append (ms ns : List Nat) : total (ms ++ ns) = total ms + total ns := by
  induction ms with
  | nil => simp [total]
  | cons m rest ih =>
    simp only [total, List.cons_append, List.foldr_cons] at ih ⊢
    omega

theorem le_total_of_mem {n : Nat} {ns : List Nat} (h : n ∈ ns) : n ≤ total ns := by
  induction ns with
  | nil => simp at h
  | cons m rest ih =>
    simp only [total, List.foldr_cons] at ih ⊢
    rcases List.mem_cons.mp h with rfl | h
    · omega
    · have := ih h
      omega

theorem length_le_breadth {heap : Heap} {h : ArrayRef} {xs : List Item}
    (hx : heap.items h = .ok xs) : xs.length ≤ breadth heap := by
  unfold Heap.items at hx
  split at hx
  · cases hx
  · rename_i ys hy
    cases hx
    have hmem : xs ∈ heap.arrays.toList := Array.mem_toList_iff.mpr (Array.mem_of_getElem? hy)
    exact Nat.le_add_right_of_le (le_total_of_mem (List.mem_map_of_mem hmem))

theorem size_le_breadth {heap : Heap} {h : MapRef} {es : Entries}
    (hx : heap.entries h = .ok es) : es.size ≤ breadth heap := by
  unfold Heap.entries at hx
  split at hx
  · cases hx
  · rename_i ys hy
    cases hx
    have hmem : es ∈ heap.maps.toList := Array.mem_toList_iff.mpr (Array.mem_of_getElem? hy)
    exact Nat.le_add_left_of_le (le_total_of_mem (List.mem_map_of_mem hmem))

theorem inside_bounded {heap : Heap} {b : Branch} {bs : List Branch}
    (h : b.inside heap = .ok bs) :
    bs.length ≤ breadth heap ∧ ∀ b' ∈ bs, b'.depth = b.depth + 1 := by
  unfold inside at h
  split at h
  · split at h
    · cases h
    · rename_i xs hx
      cases h
      refine ⟨by simpa using length_le_breadth hx, fun b' hb => ?_⟩
      obtain ⟨x, _, rfl⟩ := List.mem_map.mp hb
      rfl
  · split at h
    · cases h
    · rename_i xs hx
      cases h
      refine ⟨by simpa using length_le_breadth hx, fun b' hb => ?_⟩
      obtain ⟨x, _, rfl⟩ := List.mem_map.mp hb
      rfl
  · split at h
    · cases h
    · rename_i es hx
      cases h
      refine ⟨by simpa [Entries.size] using size_le_breadth hx, fun b' hb => ?_⟩
      obtain ⟨x, _, rfl⟩ := List.mem_map.mp hb
      rfl
  all_goals
    cases h
    simp

theorem total_weight_of_depth {heap : Heap} {d : Nat} {bs : List Branch}
    (h : ∀ b ∈ bs, b.depth = d) :
    total (bs.map (weight heap)) = bs.length * room (breadth heap) (heap.size + 1 - d) := by
  induction bs with
  | nil => simp [total]
  | cons b rest ih =>
    have hb : weight heap b = room (breadth heap) (heap.size + 1 - d) := by
      rw [weight, h b List.mem_cons_self]
    have hrest := ih fun b hb => h b (List.mem_cons_of_mem _ hb)
    simp only [total, List.map_cons, List.foldr_cons, List.length_cons, Nat.add_mul, Nat.one_mul]
      at hrest ⊢
    omega

/-- The branches inside one weigh less together than it does. -/
theorem weight_lt {heap : Heap} {b : Branch} {bs : List Branch} (h : b.inside heap = .ok bs)
    (hdepth : b.depth ≤ heap.size) : total (bs.map (weight heap)) < weight heap b := by
  obtain ⟨hlen, hdeep⟩ := inside_bounded h
  rw [total_weight_of_depth hdeep, weight,
    show heap.size + 1 - b.depth = (heap.size - b.depth) + 1 by omega,
    show heap.size + 1 - (b.depth + 1) = heap.size - b.depth by omega, room]
  exact Nat.mul_lt_mul_of_pos_right (Nat.lt_succ_of_le hlen) (room_pos _ _)

/-- Draws branches in order; `drawn` holds the lines before, last first. -/
def draw (heap : Heap) (pending : List Branch) (drawn : List String) :
    Except TreeError (List String) :=
  match pending with
  | [] => .ok drawn.reverse
  | b :: rest =>
    if hdepth : heap.size < b.depth then .error .endless
    else
      match h : b.inside heap with
      | .error e => .error (.heap e)
      | .ok bs =>
        have := weight_lt h (Nat.le_of_not_lt hdepth)
        draw heap (bs ++ rest) (b.line bs.length :: drawn)
termination_by total (pending.map (weight heap))
decreasing_by
  simp only [List.map_append, total_append, List.map_cons]
  simp only [total, List.foldr_cons] at *
  omega

end Branch

/-- The lines of the tree under an item. -/
def Heap.treeLines (heap : Heap) (x : Item) : Except TreeError (List String) :=
  Branch.draw heap [⟨0, none, x⟩] []

/-- The tree under an item, each line ended. -/
def Heap.tree (heap : Heap) (x : Item) : Except TreeError String :=
  match heap.treeLines x with
  | .error e => .error e
  | .ok lines => .ok (String.join (lines.map (· ++ "\n")))

end ScriptHost

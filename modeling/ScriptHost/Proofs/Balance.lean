import ScriptHost.Proofs.Decoding
import ScriptHost.Proofs.Faults
import ScriptHost.Proofs.KeyFaults
import ScriptHost.Proofs.SelfDelimiting

/-!
# ScriptHost.Proofs.Balance

Reading counts the nodes to come in a word that saturates, and then takes as many items from a stack
as a node says. Both are safe on all input. The count is held against the bytes that are left, and a
step that passes has counted exactly (`LayoutReader.step_exact`). The nodes that come of it are those
of trees, so the stack holds one item for each tree behind the node that is placed, and the parts of
the node are the first of these (`NodeTree.exists_fills_suffix`, `Node.length_of_placeAll`).
-/

namespace ScriptHost

/-! ## The count of the nodes to come -/

theorem Node.toNat_inside (node : Node) :
    node.inside.toNat = min node.breadth (UInt64.size - 1) := by
  have hsum := LayoutReader.toNat_addSaturating_inside 0 node
  rw [toNat_addSaturating] at hsum
  have hword : node.inside.toNat < UInt64.size := node.inside.toNat_lt
  simp only [UInt64.toNat_zero, Nat.zero_add] at hsum
  omega

namespace LayoutReader

variable {limits : Limits} {r r' : LayoutReader}

/-- The states that the loop of reading comes to. -/
inductive Reaches (limits : Limits) (r : LayoutReader) : LayoutReader → Prop
  | start : Reaches limits r r
  | next {r₁ r₂ : LayoutReader} : Reaches limits r r₁ → r₁.pending ≠ 0 →
      r₁.step limits = .ok r₂ → Reaches limits r r₂

theorem Reaches.unread_le (h : Reaches limits r r') : r'.cursor.unread ≤ r.cursor.unread := by
  induction h with
  | start => exact Nat.le_refl _
  | next _ _ hstep ih => exact (unread_of_step hstep).le.trans ih

/-- One node less is to come, and exactly those inside it more. -/
theorem step_exact (h : r.step limits = .ok r') (hne : r.pending ≠ 0)
    (hsize : r.cursor.unread < UInt64.size) :
    ∃ node, r'.nodes = node :: r.nodes ∧ node.inside.toNat = node.breadth ∧
      r'.pending.toNat + 1 = r.pending.toNat + node.breadth := by
  obtain ⟨n, hpending⟩ := exists_toNat_eq_succ hne
  obtain ⟨w, node, -, -, hnext, hnodes⟩ := form_of_step h hpending hsize
  have hword : r'.pending.toNat < UInt64.size := r'.pending.toNat_lt
  refine ⟨node, hnodes, ?_, by omega⟩
  rw [node.toNat_inside]
  omega

end LayoutReader

/-! ## The stack of made items -/

theorem NodeTree.exists_fills_suffix {n : Nat} {earlier later : List Node}
    (h : Fills n (earlier ++ later)) : ∃ m, Fills m later := by
  induction earlier generalizing n with
  | nil => exact ⟨n, h⟩
  | cons node earlier ih =>
    cases h with
    | cons h => exact ih h

theorem splitFirst?_of_le {n : Nat} {made : List Item} (h : n ≤ made.length) :
    splitFirst? n made = some (made.take n, made.drop n) := by
  have hlen : (made.take n).length = n := List.length_take_of_le h
  have hsplit := NodeTree.splitFirst?_append (made.take n) (made.drop n)
  rwa [hlen, List.take_append_drop] at hsplit

theorem exists_pairs {xs : List Item} {n : Nat} (h : xs.length = 2 * n) :
    ∃ pairs : List (Item × Item), pairs.length = n ∧ xs = pairs.flatMap fun e => [e.1, e.2] := by
  induction n generalizing xs with
  | zero => exact ⟨[], rfl, List.length_eq_zero_iff.mp h⟩
  | succ n ih =>
    obtain ⟨key, xs, rfl⟩ := List.exists_cons_of_length_eq_add_one h
    rw [List.length_cons, Nat.mul_succ, Nat.succ_inj] at h
    obtain ⟨value, xs, rfl⟩ := List.exists_cons_of_length_eq_add_one h
    rw [List.length_cons, Nat.succ_inj] at h
    obtain ⟨pairs, hlen, rfl⟩ := ih h
    exact ⟨(key, value) :: pairs, by rw [List.length_cons, hlen], rfl⟩

namespace Node

open NodeTree

variable {later : List Node} {made : List Item} {heap heap' : Heap} {n : Nat}

/-- Each of the trees behind a node has become one item. -/
theorem length_of_placeAll (hfills : Fills n later) (hsize : later.length < UInt64.size)
    (h : placeAll later.reverse [] heap = (.ok made, heap')) : made.length = n := by
  obtain ⟨ts, rfl, hts, rfl⟩ := fills_iff.mp hfills
  have hplaced := placeAll_append ts [] [] heap hts hsize
  rw [List.append_nil, h] at hplaced
  rcases hmake : makeAll ts heap with ⟨e | xs, heap₁⟩
  · rw [hmake] at hplaced
    cases hplaced
  · rw [hmake] at hplaced
    cases hplaced
    rw [List.append_nil, length_of_makeAll hmake]

/-- The stack, at the turn of a container, begins with its children: as many as the node says, and
pairs of a key and a value if it is a map. -/
structure Supplies (made : List Item) (kind : ContainerKind) (count : UInt64) : Prop where
  arity : (container kind count).arity.toNat = (container kind count).breadth
  split : ∃ children rest,
    splitFirst? (container kind count).arity.toNat made = some (children, rest) ∧
    children.length = (container kind count).breadth ∧
    (kind = .map → ∃ pairs : List (Item × Item), pairs.length = count.toNat ∧
      children = pairs.flatMap fun e => [e.1, e.2])

theorem supplies_of_le {kind : ContainerKind} {count : UInt64}
    (hsize : (container kind count).breadth < UInt64.size)
    (hle : (container kind count).breadth ≤ made.length) : Supplies made kind count := by
  have harity := toNat_arity hsize
  have hlen : (made.take (container kind count).breadth).length = (container kind count).breadth :=
    List.length_take_of_le hle
  refine ⟨harity, _, _, by rw [harity]; exact splitFirst?_of_le hle, hlen, ?_⟩
  rintro rfl
  exact exists_pairs hlen

end Node

/-! ## Decoding -/

open NodeTree

variable {data : Bytes} {limits : Limits} {nodes : List Node}

theorem make_ne_unexpectedEnd {t : NodeTree} (ht : t.Complete) (heap heap' : Heap) (offset : Nat) :
    t.make heap ≠ (.error (.format (.unexpectedEnd offset)), heap') := by
  have houtcome := make_outcome ht heap
  intro h
  rw [h] at houtcome
  cases houtcome

theorem layout_supplies {heap heap' : Heap} {earlier later : List Node} {kind : ContainerKind}
    {count : UInt64} {made : List Item} (hsize : data.length < UInt64.size)
    (hlayout : layout data limits = .ok (earlier ++ .container kind count :: later))
    (h : Node.placeAll later.reverse [] heap = (.ok made, heap')) :
    Node.Supplies made kind count := by
  obtain ⟨t, ht, hnodes⟩ := (layout_eq_ok_iff hsize).mp hlayout
  have hlen := ht.length_lt hsize
  rw [hnodes, List.length_append, List.length_cons] at hlen
  obtain ⟨m, hsuffix⟩ := exists_fills_suffix (hnodes ▸ ht.1.fills)
  cases hsuffix with
  | cons hfills =>
    have hmade := Node.length_of_placeAll hfills (by omega) h
    have hle := hfills.le_length
    exact Node.supplies_of_le (by omega) (by omega)

/-- The counters of reading and the stack it takes items from never fail it. A step of the loop that
passes the check of the bytes left has counted the nodes to come exactly. For a layout, each
container finds its children on the stack, at the end one item is there, and so `unexpectedEnd` is
only ever reported for the end of the input. No byte string in memory is as long as `hsize`
forbids. -/
theorem decode_balanced (data : Bytes) (limits : Limits) (hsize : data.length < UInt64.size) :
    (∀ r r', LayoutReader.Reaches limits { cursor := .ofBytes data } r → r.pending ≠ 0 →
      r.step limits = .ok r' → ∃ node, r'.nodes = node :: r.nodes ∧
        node.inside.toNat = node.breadth ∧
        r'.pending.toNat + 1 = r.pending.toNat + node.breadth) ∧
    (∀ nodes heap, layout data limits = .ok nodes →
      (∀ earlier kind count later made heap', nodes = earlier ++ .container kind count :: later →
        Node.placeAll later.reverse [] heap = (.ok made, heap') →
        Node.Supplies made kind count) ∧
      (∀ made heap', Node.placeAll nodes.reverse [] heap = (.ok made, heap') →
        ∃ x, made = [x]) ∧
      ∀ heap', rebuild nodes heap ≠ (.error (.format (.unexpectedEnd 0)), heap')) ∧
    ∀ heap offset heap',
      decode heap data limits = (.error (.format (.unexpectedEnd offset)), heap') →
      offset = data.length := by
  refine ⟨fun r r' hreach hne hstep => ?_, fun nodes heap hlayout => ⟨?_, ?_, ?_⟩,
    fun heap offset heap' h => ?_⟩
  · exact LayoutReader.step_exact hstep hne (hreach.unread_le.trans_lt hsize)
  · rintro earlier kind count later made heap' rfl hplace
    exact layout_supplies hsize hlayout hplace
  · intro made heap' hplace
    obtain ⟨t, ht, rfl⟩ := (layout_eq_ok_iff hsize).mp hlayout
    exact List.length_eq_one_iff.mp
      (Node.length_of_placeAll ht.1.fills (ht.length_lt hsize) hplace)
  · obtain ⟨t, ht, rfl⟩ := (layout_eq_ok_iff hsize).mp hlayout
    rw [rebuild_nodes ht.1 (ht.length_lt hsize)]
    exact fun heap' => make_ne_unexpectedEnd ht.1 heap heap' 0
  · cases hlayout : layout data limits with
    | error e =>
      rw [decode_of_layout_error heap hlayout] at h
      cases h
      exact layout_unexpectedEnd hlayout
    | ok nodes =>
      obtain ⟨t, ht, -⟩ := (layout_eq_ok_iff hsize).mp hlayout
      rw [decode_of_spells hsize ht] at h
      rcases hmake : t.make heap with ⟨_ | x, heap₁⟩
      · rw [hmake] at h
        cases h
        exact absurd hmake (make_ne_unexpectedEnd ht.1 heap _ offset)
      · rw [hmake] at h
        cases h

/-- A map that announces as many entries as a word can say. -/
def greatestMap : Bytes := [0x82, 0xFF, 0xFF, 0xFF, 0xFF, 0xFF, 0xFF, 0xFF, 0xFF, 0xFF]

/-- It is refused at its end, with no limit on containers, and a map in an array is built. -/
theorem decode_balanced_greatestMap :
    (greatestMap.length < UInt64.size ∧
      ∃ offset, decode .empty greatestMap { arraySize := greatestWord } =
        (.error (.format (.unexpectedEnd offset)), .empty) ∧ offset = greatestMap.length) ∧
      ∀ heap, rebuild [.container .array 1, .container .map 0] heap ≠
        (.error (.format (.unexpectedEnd 0)), heap) := by
  have hsize : greatestMap.length < UInt64.size := by decide
  have hcut : decode .empty greatestMap { arraySize := greatestWord } =
      (.error (.format (.unexpectedEnd 10)), .empty) := by decide +kernel
  have hlayout : layout [0x80, 0x01, 0x82, 0x00] {} =
      .ok [.container .array 1, .container .map 0] := by cbv
  obtain ⟨-, -, hend⟩ := decode_balanced greatestMap { arraySize := greatestWord } hsize
  obtain ⟨-, hbuilt, -⟩ := decode_balanced [0x80, 0x01, 0x82, 0x00] {} (by decide)
  exact ⟨⟨hsize, 10, hcut, hend .empty 10 .empty hcut⟩,
    fun heap => (hbuilt _ heap hlayout).2.2 heap⟩

end ScriptHost

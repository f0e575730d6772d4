import ScriptHost.Proofs.Layout
import ScriptHost.Proofs.Rebuild

/-!
# ScriptHost.Proofs.Decoding

Decoding gives the recursive reading of the input, or nothing.

* `decode_ok`: what has been decoded stands for the reading of the input.
* `exists_decode`: input that has a reading is decoded, if there are handles for its containers.
* `Reads.unique`: no input has two readings.
-/

namespace ScriptHost

open NodeTree Content

variable {heap heap' : Heap} {limits : Limits} {data : Bytes}

theorem NodeTree.Spells.length_lt {tree : NodeTree} (h : tree.Spells limits data)
    (hsize : data.length < UInt64.size) : tree.nodes.length < UInt64.size :=
  Nat.lt_of_le_of_lt h.2.le_length hsize

/-- Decoding input that spells a tree makes the item of the tree. -/
theorem decode_of_spells {tree : NodeTree} (hsize : data.length < UInt64.size)
    (h : tree.Spells limits data) (heap : Heap) :
    decode heap data limits =
      match tree.make heap with
      | (.error e, heap') => (.error e, heap'.rollback heap.mark)
      | (.ok x, heap') => (.ok x, heap') := by
  have hlayout : layout data limits = .ok tree.nodes :=
    (layout_eq_ok_iff hsize).mpr ⟨_, h, rfl⟩
  have hrebuild := rebuild_nodes h.1 (h.length_lt hsize) heap
  unfold decode
  rcases hmake : tree.make heap with ⟨e | x, heap'⟩
  · simp only [hlayout, hrebuild, hmake]
  · simp only [hlayout, hrebuild, hmake]

theorem make_of_decode {tree : NodeTree} {x : Item} (hsize : data.length < UInt64.size)
    (hspells : tree.Spells limits data) (h : decode heap data limits = (.ok x, heap')) :
    tree.make heap = (.ok x, heap') := by
  rw [decode_of_spells hsize hspells] at h
  rcases hmake : tree.make heap with ⟨e | y, heap₁⟩
  · rw [hmake] at h
    cases h
  · rw [hmake] at h
    exact h

/-- What has been decoded was made of the tree that the input spells. -/
theorem exists_spells_of_decode {x : Item} (hsize : data.length < UInt64.size)
    (h : decode heap data limits = (.ok x, heap')) :
    ∃ tree : NodeTree, tree.Spells limits data ∧ tree.make heap = (.ok x, heap') := by
  cases hlayout : layout data limits with
  | error e =>
    rw [decode, hlayout] at h
    cases h
  | ok nodes =>
    obtain ⟨tree, hspells, -⟩ := (layout_eq_ok_iff hsize).mp hlayout
    exact ⟨tree, hspells, make_of_decode hsize hspells h⟩

theorem decode_ok {x : Item} (hsize : data.length < UInt64.size)
    (h : decode heap data limits = (.ok x, heap')) :
    ∃ t, Reads limits data t ∧ heap'.Unfolds x t.merged ∧
      heap.Grows heap' t.arraySlots t.mapSlots := by
  obtain ⟨tree, hspells, hmake⟩ := exists_spells_of_decode hsize h
  obtain ⟨t, rfl, hunfolds, hgrows⟩ := make_eq_ok hspells.1 hmake
  exact ⟨t, reads_iff.mpr hspells, hunfolds, hgrows⟩

/-- Decoding input that has a reading makes the tree of the reading. -/
theorem decode_of_reads {t : Content} (hsize : data.length < UInt64.size)
    (h : Reads limits data t) (heap : Heap) :
    decode heap data limits =
      match t.outline.make heap with
      | (.error e, heap') => (.error e, heap'.rollback heap.mark)
      | (.ok x, heap') => (.ok x, heap') :=
  decode_of_spells hsize h.spells heap

theorem exists_decode {t : Content} (hsize : data.length < UInt64.size)
    (h : Reads limits data t) (hroom : heap.RoomFor t.arraySlots t.mapSlots) :
    ∃ x heap', decode heap data limits = (.ok x, heap') := by
  obtain ⟨x, heap', hmake⟩ := exists_make h.spells.1 hroom
  exact ⟨x, heap', by rw [decode_of_reads hsize h, hmake]⟩

theorem Reads.unique {t u : Content} (hsize : data.length < UInt64.size)
    (ht : Reads limits data t) (hu : Reads limits data u) : t = u := by
  have hlayout (c : Content) (hc : Reads limits data c) :
      layout data limits = .ok c.outline.nodes :=
    (layout_eq_ok_iff hsize).mpr ⟨_, hc.spells, rfl⟩
  have hnodes : t.outline.nodes = u.outline.nodes :=
    Except.ok.inj ((hlayout t ht).symm.trans (hlayout u hu))
  exact eq_of_outline_eq (nodes_unique ht.spells.1 hu.spells.1 hnodes)

/-- Input is decoded exactly if it is one node of the grammar and there are handles for the
containers in it; the item then unfolds to the one reading that the input has, with each key of a
map in the place of its first entry and with the value of its last. No byte string in memory is as
long as `hsize` forbids. -/
theorem decode_refines_grammar (heap : Heap) (data : Bytes) (limits : Limits)
    (hsize : data.length < UInt64.size) :
    ((∃ x heap', decode heap data limits = (.ok x, heap')) ↔
      ∃ t, Reads limits data t ∧ heap.RoomFor t.arraySlots t.mapSlots) ∧
    (∀ t u, Reads limits data t → Reads limits data u → t = u) ∧
    ∀ x heap' t, decode heap data limits = (.ok x, heap') → Reads limits data t →
      heap'.Unfolds x t.merged := by
  refine ⟨?_, ?_, ?_⟩
  · constructor
    · rintro ⟨x, heap', h⟩
      obtain ⟨t, ht, _, hgrows⟩ := decode_ok hsize h
      exact ⟨t, ht, hgrows.room⟩
    · rintro ⟨t, ht, hroom⟩
      exact exists_decode hsize ht hroom
  · intro t u ht hu
    exact ht.unique hsize hu
  · intro x heap' t h ht
    obtain ⟨u, hu, hunfolds, _⟩ := decode_ok hsize h
    rwa [Reads.unique hsize ht hu]

/-- A map with the key `true` in two spellings. -/
def repeatedKey : Bytes := [0x82, 0x02, 0x01, 0x01, 0x00, 0x00, 0x01, 0x05, 0x01, 0x00]

def repeatedKeyReading : Content :=
  .map [(.boolean true, .leaf (.bytes [])), (.boolean true, .leaf (.boolean false))]

theorem decode_refines_grammar_repeatedKey :
    repeatedKey.length < UInt64.size ∧
      ∃ x heap', decode .empty repeatedKey {} = (.ok x, heap') ∧
        heap'.Unfolds x (.map [(.boolean true, .leaf (.boolean false))]) := by
  have hsize : repeatedKey.length < UInt64.size := by decide
  have hvalue : Key.Form {} [0x00, 0x00] (.bytes []) := @Key.Form.bytes {} [] (Nat.zero_le _)
  have hreads : Reads {} repeatedKey repeatedKeyReading :=
    .map (n := 2) (by decide) rfl
      (.cons (.boolean 1) (.leaf hvalue) (.cons (.boolean 5) (.leaf (.boolean 0)) .nil))
  have hroom : Heap.empty.RoomFor repeatedKeyReading.arraySlots repeatedKeyReading.mapSlots := by
    have harrays : repeatedKeyReading.arraySlots = 0 := by
      simp only [repeatedKeyReading, arraySlots, preorder, List.flatMap_cons, List.flatMap_nil]
      rfl
    have hmaps : repeatedKeyReading.mapSlots = 1 := by
      simp only [repeatedKeyReading, mapSlots, preorder, List.flatMap_cons, List.flatMap_nil]
      rfl
    rw [harrays, hmaps]
    exact ⟨by decide, by decide⟩
  obtain ⟨hdecode, _, hunfolds⟩ := decode_refines_grammar .empty repeatedKey {} hsize
  obtain ⟨x, heap', hx⟩ := hdecode.mpr ⟨_, hreads, hroom⟩
  refine ⟨hsize, x, heap', hx, ?_⟩
  have hmerged : repeatedKeyReading.merged = .map [(.boolean true, .leaf (.boolean false))] := by
    simp [repeatedKeyReading, merged, merge, List.eraseDups_cons]
  exact hmerged ▸ hunfolds x heap' _ hx hreads

end ScriptHost

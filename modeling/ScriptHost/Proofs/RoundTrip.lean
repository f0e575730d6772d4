import ScriptHost.Proofs.Canonical

/-!
# ScriptHost.Proofs.RoundTrip

What has been written is read again with the same content, unless a container in it has more
elements or entries than may be read: writing has no such limit. Then the first of these
containers, in the order of writing, is the one that is reported.
-/

namespace ScriptHost

open Content

variable {heap : Heap} {limits : Limits} {t : Content}

/-! ## Counts above the limit -/

theorem count_lt_of_mem (hsize : t.encoding.length ≤ limits.itemSize.toNat) {c : Content}
    (hc : c ∈ t.preorder) : c.count < UInt64.size :=
  calc c.count ≤ c.encoding.length := count_le_length c
    _ ≤ t.encoding.length := length_le_of_mem_preorder hc
    _ ≤ limits.itemSize.toNat := hsize
    _ < UInt64.size := limits.itemSize.toNat_lt

theorem refusal_node {c : Content} (hc : c.count < UInt64.size) :
    (c.count ≤ limits.arraySize.toNat ∧ c.node.refusal limits = none) ∨
      (limits.arraySize.toNat < c.count ∧ ∃ kind count, c.node = .container kind count ∧
        count.toNat = c.count ∧
        c.node.refusal limits = some (.limitExceeded kind.sizeName limits.arraySize count)) := by
  have hn : (UInt64.ofNat c.count).toNat = c.count := UInt64.toNat_ofNat_of_lt hc
  have container (kind : ContainerKind)
      (hnode : c.node = .container kind (UInt64.ofNat c.count)) :
      (c.count ≤ limits.arraySize.toNat ∧ c.node.refusal limits = none) ∨
        (limits.arraySize.toNat < c.count ∧ ∃ kind count, c.node = .container kind count ∧
          count.toNat = c.count ∧
          c.node.refusal limits =
            some (.limitExceeded kind.sizeName limits.arraySize count)) := by
    simp only [hnode, Node.refusal, UInt64.lt_iff_toNat_lt, hn]
    rcases Nat.lt_or_ge limits.arraySize.toNat c.count with hlt | hle
    · exact .inr ⟨hlt, kind, _, rfl, hn, if_pos hlt⟩
    · exact .inl ⟨hle, if_neg (Nat.not_lt.mpr hle)⟩
  cases c with
  | leaf k => exact .inl ⟨Nat.zero_le _, rfl⟩
  | array ts => exact container .array rfl
  | struct ts => exact container .struct rfl
  | map es => exact container .map rfl

/-- The first count above the limit is what the layout is refused for. -/
theorem layout_encoding (hsize : t.encoding.length ≤ limits.itemSize.toNat) :
    layout t.encoding limits =
      match t.preorder.findSome? fun c => c.node.refusal limits with
      | some e => .error e
      | none => .ok t.outline.nodes := by
  have hlt : t.encoding.length < UInt64.size := Nat.lt_of_le_of_lt hsize limits.itemSize.toNat_lt
  rw [layout_of_spells (reads_anyCount hsize).spells hlt, nodes_outline, List.findSome?_map]
  rfl

/-- The first count above the limit is the one that is reported. -/
theorem decode_encoding_refused (heap : Heap) (hsize : t.encoding.length ≤ limits.itemSize.toNat)
    (hcount : ¬∀ c ∈ t.preorder, c.count ≤ limits.arraySize.toNat) :
    ∃ c kind count, t.preorder.find? (fun c => limits.arraySize.toNat < c.count) = some c ∧
      c.node = .container kind count ∧ count.toNat = c.count ∧
      decode heap t.encoding limits =
        (.error (.limitExceeded kind.sizeName limits.arraySize count), heap) := by
  have hlayout := layout_encoding hsize
  cases hfirst : t.preorder.findSome? fun c => c.node.refusal limits with
  | none =>
    refine absurd (fun c hc => ?_) hcount
    rcases refusal_node (count_lt_of_mem hsize hc) with ⟨hle, _⟩ | ⟨_, _, _, _, _, hsome⟩
    · exact hle
    · rw [List.findSome?_eq_none_iff.mp hfirst c hc] at hsome
      cases hsome
  | some e =>
    obtain ⟨before, c, after, hsplit, hc, hbefore⟩ := List.findSome?_eq_some_iff.mp hfirst
    have hmem (d : Content) (hd : d ∈ before ++ c :: after) : d.count < UInt64.size :=
      count_lt_of_mem hsize (hsplit ▸ hd)
    rcases refusal_node (hmem c (by simp)) with ⟨_, hnone⟩ | ⟨hlt, kind, count, hnode, hn, hsome⟩
    · rw [hc] at hnone
      cases hnone
    · refine ⟨c, kind, count, ?_, hnode, hn, ?_⟩
      · refine List.find?_eq_some_iff_append.mpr ⟨by simpa using hlt, before, after, hsplit, ?_⟩
        intro d hd
        rcases refusal_node (hmem d (by simp [hd])) with ⟨hle, _⟩ | ⟨_, _, _, _, _, hdsome⟩
        · simpa using hle
        · rw [hbefore d hd] at hdsome
          cases hdsome
      · rw [hc] at hsome
        cases hsome
        unfold decode
        rw [hlayout, hfirst]

/-- What was written is read again exactly if each container in it has as many elements or
entries as may be read: with the same content, and with the same bytes when it is written again.
If not, the first container that has more is reported, and the heap is as before. -/
theorem decode_encode {heap : Heap} {x : Item} {limits : Limits} {b : Bytes}
    (h : encode heap x limits = .ok b) :
    ∃ t, heap.Unfolds x t ∧
      (heap.RoomFor t.arraySlots t.mapSlots →
        ((∃ y heap', decode heap b limits = (.ok y, heap')) ↔
          ∀ y, heap.Reaches x y → ∀ n, heap.count y = .ok n → n ≤ limits.arraySize.toNat)) ∧
      (∀ y heap', decode heap b limits = (.ok y, heap') →
        heap'.sameContent x y = .ok true ∧ encode heap' y limits = .ok b) ∧
      (¬(∀ y, heap.Reaches x y → ∀ n, heap.count y = .ok n → n ≤ limits.arraySize.toNat) →
        ∃ c kind count, t.preorder.find? (fun c => limits.arraySize.toNat < c.count) = some c ∧
          c.node = .container kind count ∧ count.toNat = c.count ∧
          decode heap b limits =
            (.error (.limitExceeded kind.sizeName limits.arraySize count), heap)) := by
  obtain ⟨t, ht, hsize, rfl⟩ := encode_eq_ok_iff_unfolds.mp h
  have hlt : t.encoding.length < UInt64.size := Nat.lt_of_le_of_lt hsize limits.itemSize.toNat_lt
  rw [ht.count_le_iff]
  have counts {y : Item} {heap' : Heap} (hdecode : decode heap t.encoding limits = (.ok y, heap')) :
      ∀ c ∈ t.preorder, c.count ≤ limits.arraySize.toNat := by
    by_contra hcount
    obtain ⟨_, _, _, _, _, _, hrefused⟩ := decode_encoding_refused heap hsize hcount
    rw [hdecode] at hrefused
    cases hrefused
  refine ⟨t, ht, ?_, ?_, decode_encoding_refused heap hsize⟩
  · intro hroom
    constructor
    · rintro ⟨y, heap', hdecode⟩
      exact counts hdecode
    · intro hcount
      exact exists_decode hlt (reads_encoding hsize hcount) hroom
  · intro y heap' hdecode
    obtain ⟨u, hu, hunfolds, hgrows⟩ := decode_ok hlt hdecode
    rw [hu.unique hlt (reads_encoding hsize (counts hdecode)),
      merged_of_distinctKeys ht.distinctKeys] at hunfolds
    refine ⟨Heap.sameContent_iff.mpr (.of_unfolds (ht.extend hgrows.keeps) hunfolds), ?_⟩
    exact encode_eq_ok_iff_unfolds.mpr ⟨t, hunfolds, hsize, rfl⟩

theorem decode_encode_shared :
    encode sharedAndApart (.array ⟨0⟩) {} = .ok twoMapsBytes ∧
      ∃ y heap', decode sharedAndApart twoMapsBytes {} = (.ok y, heap') ∧
        heap'.sameContent (.array ⟨0⟩) y = .ok true ∧
        encode heap' y {} = .ok twoMapsBytes := by
  have hencode := encode_of_unfolds_twoMaps unfolds_shared
  obtain ⟨t, ht, hdecode, hsame, _⟩ := decode_encode hencode
  obtain rfl := ht.unique unfolds_shared
  have hroom : sharedAndApart.RoomFor twoMaps.arraySlots twoMaps.mapSlots := by
    have harrays : twoMaps.arraySlots = 1 := by
      simp only [twoMaps, oneMap, arraySlots, preorder, List.flatMap_cons, List.flatMap_nil]
      rfl
    have hmaps : twoMaps.mapSlots = 2 := by
      simp only [twoMaps, oneMap, mapSlots, preorder, List.flatMap_cons, List.flatMap_nil]
      rfl
    rw [harrays, hmaps]
    exact ⟨by decide, by decide⟩
  have hcounts : ∀ c ∈ twoMaps.preorder, c.count ≤ ({} : Limits).arraySize.toNat := by
    simp [twoMaps, oneMap, preorder, count]
  obtain ⟨y, heap', hy⟩ := (hdecode hroom).mpr ((ht.count_le_iff _).mpr hcounts)
  exact ⟨hencode, y, heap', hy, hsame y heap' hy⟩

end ScriptHost

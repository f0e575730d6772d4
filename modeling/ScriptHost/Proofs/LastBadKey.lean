import ScriptHost.Proofs.Decoding
import ScriptHost.Proofs.KeyFaults
import ScriptHost.Proofs.SelfDelimiting

/-!
# ScriptHost.Proofs.LastBadKey

Which input is refused for a container that stands as a key, and what the refusal says. Such input
spells a tree in which any node may be a key, so nothing else is wrong with it; and the key named is
the first of the map that starts last in the input (`decode_invalidMapKey`). Where a node starts is
the length of the bytes of the nodes before it. The bytes of a node say where they end
(`Node.Form.unique`), so there is one such place, and a node that comes later starts later.
-/

namespace ScriptHost

/-! ## Where nodes start -/

namespace Node

variable {limits : Limits} {a a' b b' : Bytes} {nodes later : List Node}

theorem Form.unique {node node' : Node} (h : node.Form limits a) (h' : node'.Form limits a')
    (heq : a ++ b = a' ++ b') : node = node' ∧ a = a' := by
  obtain ⟨c, hc, hrest⟩ := Cursor.exists_moves (c := .ofBytes (a ++ b)) rfl
  obtain ⟨d, hd, hrest'⟩ := Cursor.exists_moves (c := .ofBytes (a ++ b)) heq
  have hread := read_of_form h hc
  rw [read_of_form h' hd] at hread
  cases hread
  refine ⟨rfl, ?_⟩
  rw [← hrest, ← hrest'] at heq
  exact List.append_cancel_right heq

theorem Forms.unique (h : Forms limits a nodes) (h' : Forms limits a' nodes)
    (heq : a ++ b = a' ++ b') : a = a' := by
  induction h generalizing a' with
  | nil =>
    cases h'
    rfl
  | cons hw _ ih =>
    cases h' with
    | cons hw' h' =>
      rw [List.append_assoc, List.append_assoc] at heq
      obtain ⟨-, rfl⟩ := hw.unique hw' heq
      rw [ih h' (List.append_cancel_left heq)]

/-- Of nodes that come later, more bytes stand in front. -/
theorem Forms.length_lt {node : Node} (h : Forms limits a nodes)
    (h' : Forms limits a' (nodes ++ node :: later)) (heq : a ++ b = a' ++ b') :
    a.length < a'.length := by
  obtain ⟨x, y, rfl, hx, hy⟩ := h'.split
  have hpos := hy.le_length
  rw [List.append_assoc] at heq
  rw [h.unique hx heq, List.length_append]
  rw [List.length_cons] at hpos
  omega

end Node

namespace NodeTree

variable {limits : Limits} {data : Bytes} {t u v : NodeTree} {offset : Nat}
  {before after : List NodeTree}

/-- So many bytes of the input stand in front of this subtree and what comes behind it. -/
def StartsAt (limits : Limits) (data : Bytes) (t u : NodeTree) (offset : Nat) : Prop :=
  ∃ before after a b, t.subtrees = before ++ u :: after ∧ data = a ++ b ∧
    Node.Forms limits a (before.map root) ∧ Node.Forms limits b ((u :: after).map root) ∧
    offset = a.length

/-- Of the maps with a container among their keys, this one starts last. -/
structure LastBad (limits : Limits) (data : Bytes) (t u : NodeTree) (offset : Nat) : Prop where
  starts : StartsAt limits data t u offset
  bad : u.badKey?.isSome
  last : ∀ v n, StartsAt limits data t v n → v.badKey?.isSome → n ≤ offset

theorem Spells.forms_split (ht : t.Spells limits data) (h : t.subtrees = before ++ after) :
    ∃ a b, data = a ++ b ∧ Node.Forms limits a (before.map root) ∧
      Node.Forms limits b (after.map root) := by
  have hforms := ht.2
  have hroots := map_root_subtrees [t]
  rw [List.flatMap_singleton, List.flatMap_singleton] at hroots
  rw [← hroots, h, List.map_append] at hforms
  exact hforms.split

/-- What comes behind a subtree starts behind it. -/
theorem lt_of_mem_after {a b : Bytes} (ht : t.Spells limits data)
    (h : t.subtrees = before ++ u :: after) (hdata : data = a ++ b)
    (ha : Node.Forms limits a (before.map root)) (hv : v ∈ after) :
    ∃ n, StartsAt limits data t v n ∧ a.length < n := by
  obtain ⟨mid, rest, rfl⟩ := List.append_of_mem hv
  have h' : t.subtrees = (before ++ u :: mid) ++ v :: rest := by
    rw [h, List.append_assoc, List.cons_append]
  obtain ⟨a', b', hdata', ha', hb'⟩ := ht.forms_split h'
  refine ⟨a'.length, ⟨_, _, a', b', h', hdata', ha', hb', rfl⟩, ?_⟩
  rw [List.map_append, List.map_cons] at ha'
  exact ha.length_lt ha' (hdata.symm.trans hdata')

/-- A subtree that does not come behind another starts no later. -/
theorem le_of_not_mem_after {a b a' b' : Bytes} {before' after' : List NodeTree}
    (h : before ++ u :: after = before' ++ v :: after') (hv : v ∉ after)
    (hdata : a ++ b = a' ++ b') (ha : Node.Forms limits a (before.map root))
    (ha' : Node.Forms limits a' (before'.map root)) : a'.length ≤ a.length := by
  rcases List.append_eq_append_iff.mp h with ⟨mid, rfl, hmid⟩ | ⟨mid, rfl, hmid⟩
  · cases mid with
    | nil =>
      rw [List.append_nil] at ha'
      rw [ha.unique ha' hdata]
    | cons w mid =>
      rw [List.cons_append, List.cons.injEq] at hmid
      refine absurd ?_ hv
      rw [hmid.2]
      exact List.mem_append_right _ List.mem_cons_self
  · cases mid with
    | nil =>
      rw [List.append_nil] at ha
      rw [ha.unique ha' hdata]
    | cons w mid =>
      rw [List.map_append, List.map_cons] at ha
      exact (ha'.length_lt ha hdata.symm).le

/-- The last bad key is that of the map that starts last. -/
theorem lastBadKey?_eq_some_iff {key : ContainerKind} (ht : t.Spells limits data) :
    lastBadKey? [t] = some key ↔
      ∃ u offset, LastBad limits data t u offset ∧ u.badKey? = some key := by
  rw [lastBadKey?, List.flatMap_singleton, List.findSome?_eq_some_iff]
  constructor
  · rintro ⟨after, u, before, hsubtrees, hkey, hnone⟩
    have h : t.subtrees = before.reverse ++ u :: after.reverse := by
      rw [← List.reverse_reverse t.subtrees, hsubtrees]
      simp
    obtain ⟨a, b, hdata, ha, hb⟩ := ht.forms_split h
    refine ⟨u, a.length, ⟨⟨_, _, a, b, h, hdata, ha, hb, rfl⟩, by rw [hkey]; rfl, ?_⟩, hkey⟩
    rintro v n ⟨before', after', a', b', h', hdata', ha', -, rfl⟩ hbad
    refine le_of_not_mem_after (h.symm.trans h') (fun hv => ?_) (hdata.symm.trans hdata') ha ha'
    rw [hnone v (List.mem_reverse.mp hv)] at hbad
    cases hbad
  · rintro ⟨u, offset, ⟨⟨before, after, a, b, h, hdata, ha, -, rfl⟩, -, hlast⟩, hkey⟩
    refine ⟨after.reverse, u, before.reverse, ?_, hkey, fun v hv => ?_⟩
    · rw [h]
      simp
    · obtain ⟨n, hstarts, hlt⟩ := lt_of_mem_after ht h hdata ha (List.mem_reverse.mp hv)
      rw [← Option.not_isSome_iff_eq_none]
      intro hbad
      exact absurd (hlast v n hstarts hbad) (Nat.not_le.mpr hlt)

theorem lastBadKey?_isSome_iff : (lastBadKey? [t]).isSome ↔ ∃ u ∈ t.subtrees, u.badKey?.isSome := by
  rw [lastBadKey?, List.flatMap_singleton, List.findSome?_isSome_iff]
  simp only [List.mem_reverse]

end NodeTree

/-! ## Decoding -/

open NodeTree

variable {heap heap' : Heap} {limits : Limits} {data : Bytes}

theorem fst_decode_of_spells {t : NodeTree} (hsize : data.length < UInt64.size)
    (ht : t.Spells limits data) : (decode heap data limits).1 = (t.make heap).1 := by
  rw [decode_of_spells hsize ht]
  rcases t.make heap with ⟨_ | x, heap'⟩
  · rfl
  · rfl

theorem decode_of_not_spells (hsize : data.length < UInt64.size)
    (h : ¬∃ t : NodeTree, t.Spells limits data) (heap : Heap) :
    ∃ e : DecodeError, e.OfLayout ∧ decode heap data limits = (.error e, heap) := by
  cases hlayout : layout data limits with
  | error e => exact ⟨e, layout_fault hlayout, decode_of_layout_error heap hlayout⟩
  | ok nodes =>
    obtain ⟨t, ht, -⟩ := (layout_eq_ok_iff hsize).mp hlayout
    exact absurd ⟨t, ht⟩ h

theorem invalidMapKey_iff {t : NodeTree} {kind : String} (hsize : data.length < UInt64.size)
    (ht : t.Spells limits data)
    (hroom : heap.RoomFor (t.nodes.countP Node.isSequence) (t.nodes.countP Node.isMap)) :
    decode heap data limits = (.error (.format (.invalidMapKey kind)), heap') ↔
      heap' = heap ∧ ∃ key, lastBadKey? [t] = some key ∧ kind = key.name := by
  rw [← (make_outcome ht.1 heap).badKey_iff hroom, ← fst_decode_of_spells hsize ht]
  constructor
  · intro h
    exact ⟨heap_of_decode_error h, by rw [h]⟩
  · rintro ⟨rfl, h⟩
    rcases hdecode : decode heap' data limits with ⟨r, heap₁⟩
    rw [hdecode] at h
    cases h
    rw [heap_of_decode_error hdecode]

/-- Input is refused for a key exactly if it spells a tree in which some map has a container among
its keys. The refusal has the word for the first such key of the map that starts last of those that
have one. Input that spells no tree is refused for that, whatever its keys. There are handles for the
containers of the input, and no byte string in memory is as long as `hsize` forbids. -/
theorem decode_invalidMapKey (heap : Heap) (data : Bytes) (limits : Limits)
    (hsize : data.length < UInt64.size)
    (hroom : ∀ t : NodeTree, t.Spells limits data →
      heap.RoomFor (t.nodes.countP Node.isSequence) (t.nodes.countP Node.isMap)) :
    ((∃ kind heap', decode heap data limits = (.error (.format (.invalidMapKey kind)), heap')) ↔
      ∃ t : NodeTree, t.Spells limits data ∧ ∃ u ∈ t.subtrees, u.badKey?.isSome) ∧
    (∀ kind heap', decode heap data limits = (.error (.format (.invalidMapKey kind)), heap') ↔
      heap' = heap ∧ ∃ t u offset key, t.Spells limits data ∧ LastBad limits data t u offset ∧
        u.badKey? = some key ∧ kind = key.name) ∧
    ((¬∃ t : NodeTree, t.Spells limits data) →
      ∃ e : DecodeError, e.OfLayout ∧ decode heap data limits = (.error e, heap)) := by
  have hspells {kind heap'}
      (h : decode heap data limits = (.error (.format (.invalidMapKey kind)), heap')) :
      ∃ t : NodeTree, t.Spells limits data := by
    by_contra hnone
    obtain ⟨e, he, herror⟩ := decode_of_not_spells hsize hnone heap
    rw [h] at herror
    cases herror
    exact he
  refine ⟨?_, fun kind heap' => ?_, fun hnone => decode_of_not_spells hsize hnone heap⟩
  · constructor
    · rintro ⟨kind, heap', h⟩
      obtain ⟨t, ht⟩ := hspells h
      obtain ⟨-, key, hkey, -⟩ := (invalidMapKey_iff hsize ht (hroom t ht)).mp h
      exact ⟨t, ht, lastBadKey?_isSome_iff.mp (by rw [hkey]; rfl)⟩
    · rintro ⟨t, ht, hbad⟩
      obtain ⟨key, hkey⟩ := Option.isSome_iff_exists.mp (lastBadKey?_isSome_iff.mpr hbad)
      exact ⟨_, _, (invalidMapKey_iff hsize ht (hroom t ht)).mpr ⟨rfl, key, hkey, rfl⟩⟩
  · constructor
    · intro h
      obtain ⟨t, ht⟩ := hspells h
      obtain ⟨rfl, key, hkey, hkind⟩ := (invalidMapKey_iff hsize ht (hroom t ht)).mp h
      obtain ⟨u, offset, hlast, hu⟩ := (lastBadKey?_eq_some_iff ht).mp hkey
      exact ⟨rfl, t, u, offset, key, ht, hlast, hu, hkind⟩
    · rintro ⟨rfl, t, u, offset, key, ht, hlast, hu, hkind⟩
      exact (invalidMapKey_iff hsize ht (hroom t ht)).mpr
        ⟨rfl, key, (lastBadKey?_eq_some_iff ht).mpr ⟨u, offset, hlast, hu⟩, hkind⟩

/-- A map with an array as its key and a map as its value, whose key in turn is a struct. -/
def mapInMap : Bytes := [0x82, 0x01, 0x80, 0x00, 0x82, 0x01, 0x81, 0x00, 0x01, 0x01]

theorem decode_invalidMapKey_mapInMap :
    decode .empty mapInMap {} = (.error (.format (.invalidMapKey "Struct")), .empty) ∧
      ∃ t u offset key, t.Spells {} mapInMap ∧ LastBad {} mapInMap t u offset ∧
        u.badKey? = some key ∧ key.name = "Struct" := by
  have hdecode : decode .empty mapInMap {} =
      (.error (.format (.invalidMapKey "Struct")), .empty) := by decide +kernel
  have hroom (t : NodeTree) (ht : t.Spells {} mapInMap) :
      Heap.empty.RoomFor (t.nodes.countP Node.isSequence) (t.nodes.countP Node.isMap) := by
    have hlen : t.nodes.length ≤ 10 := ht.2.le_length
    have hten : Heap.empty.RoomFor 10 10 := ⟨by decide, by decide⟩
    exact hten.mono (List.countP_le_length.trans hlen) (List.countP_le_length.trans hlen)
  obtain ⟨-, hkeys, -⟩ := decode_invalidMapKey .empty mapInMap {} (by decide) hroom
  obtain ⟨-, t, u, offset, key, ht, hlast, hu, hkind⟩ := (hkeys _ _).mp hdecode
  exact ⟨hdecode, t, u, offset, key, ht, hlast, hu, hkind.symm⟩

end ScriptHost

import ScriptHost.Proofs.Bisimulation
import ScriptHost.Proofs.Decoding
import ScriptHost.Proofs.Writing

/-!
# ScriptHost.Proofs.Canonical

Encodings stand for contents one to one: what is written can be read as what was written
(`reads_encoding`), so different contents have different bytes, and items have equal bytes exactly
if they have the same content.
-/

namespace ScriptHost

variable {limits : Limits}

theorem Key.form_encoding {k : Key} (h : k.encoding.length ≤ limits.itemSize.toNat) :
    k.Form limits k.encoding := by
  cases k with
  | bytes b =>
    refine .bytes ?_
    simp only [Key.encoding, VarBytes.write, List.length_cons, List.length_append] at h
    omega
  | boolean v => cases v <;> exact .boolean _
  | integer n =>
    have hform : (Key.integer (Bytes.signed (Integer.toBytes n))).Form limits
        (0x02 :: VarBytes.write (Integer.toBytes n)) := by
      refine .integer ?_
      simp only [Key.encoding, VarBytes.write, List.length_cons, List.length_append] at h
      omega
    rwa [← Integer.ofBytes_eq_signed, Integer.ofBytes_toBytes] at hform

namespace Content

/-! ## Sizes -/

theorem length_le_of_mem_children {t c : Content} (hc : c ∈ t.children) :
    c.encoding.length ≤ t.encoding.length := by
  have hmem : c.encoding ∈ t.children.map encoding := List.mem_map_of_mem hc
  rw [encoding_eq t, List.length_append, List.flatMap_def]
  exact Nat.le_add_left_of_le (List.sublist_flatten_of_mem hmem).length_le

theorem length_le_of_mem_preorder {t c : Content} (hc : c ∈ t.preorder) :
    c.encoding.length ≤ t.encoding.length := by
  induction t using Content.induct with
  | step t ih =>
    rw [preorder_eq] at hc
    rcases List.mem_cons.mp hc with rfl | hc
    · exact Nat.le_refl _
    · obtain ⟨d, hd, hcd⟩ := List.mem_flatMap.mp hc
      exact Nat.le_trans (ih d hd hcd) (length_le_of_mem_children hd)

theorem length_children_le (t : Content) : t.children.length ≤ t.encoding.length := by
  have hflat (ts : List Content) : ts.length ≤ (ts.flatMap encoding).length := by
    induction ts with
    | nil => simp
    | cons c ts ih =>
      have := two_le_length_encoding c
      simp only [List.length_cons, List.flatMap_cons, List.length_append]
      omega
  rw [encoding_eq, List.length_append]
  exact Nat.le_add_left_of_le (hflat t.children)

theorem count_le_length (t : Content) : t.count ≤ t.encoding.length := by
  refine Nat.le_trans ?_ (length_children_le t)
  cases t with
  | leaf k => exact Nat.zero_le _
  | array ts => exact Nat.le_refl _
  | struct ts => exact Nat.le_refl _
  | map es => simp [count, children]; omega

/-! ## Reading what was written -/

/-- What holds of the nodes one by one holds of the whole. -/
theorem reads_of_forms {t : Content} (hcount : ∀ c ∈ t.preorder, c.count < UInt64.size)
    (h : ∀ c ∈ t.preorder, c.node.Form limits c.node.encoding) : Reads limits t.encoding t := by
  have forms (cs : List Content) (hcs : ∀ c ∈ cs, c.node.Form limits c.node.encoding) :
      Node.Forms limits (cs.flatMap fun c => c.node.encoding) (cs.map node) := by
    induction cs with
    | nil => exact .nil
    | cons c cs ih =>
      exact .cons (hcs c List.mem_cons_self) (ih fun d hd => hcs d (List.mem_cons_of_mem _ hd))
  refine reads_iff.mpr ⟨complete_outline hcount, ?_⟩
  rw [encoding_eq_flatMap, nodes_outline]
  exact forms t.preorder h

/-- A container node has its form if its count is within the limit. -/
theorem form_node {c : Content} (hsize : c.encoding.length ≤ limits.itemSize.toNat)
    (hcount : c.count ≤ limits.arraySize.toNat) : c.node.Form limits c.node.encoding := by
  have hle : UInt64.ofNat c.count ≤ limits.arraySize := by
    have hlt : c.count < UInt64.size := Nat.lt_of_le_of_lt hcount limits.arraySize.toNat_lt
    have hn : (UInt64.ofNat c.count).toNat = c.count := UInt64.toNat_ofNat_of_lt hlt
    rw [UInt64.le_iff_toNat_le, hn]
    exact hcount
  cases c with
  | leaf k =>
    rw [encoding_leaf] at hsize
    exact .leaf (Key.form_encoding hsize)
  | array ts => exact .container hle
  | struct ts => exact .container hle
  | map es => exact .container hle

theorem reads_encoding {t : Content} (hsize : t.encoding.length ≤ limits.itemSize.toNat)
    (hcount : ∀ c ∈ t.preorder, c.count ≤ limits.arraySize.toNat) :
    Reads limits t.encoding t := by
  refine reads_of_forms ?_ ?_
  · intro c hc
    exact Nat.lt_of_le_of_lt (hcount c hc) limits.arraySize.toNat_lt
  · intro c hc
    exact form_node (Nat.le_trans (length_le_of_mem_preorder hc) hsize) (hcount c hc)

/-- The limits that allow any count, so far as a word can tell it. -/
theorem reads_anyCount {t : Content} (hsize : t.encoding.length ≤ limits.itemSize.toNat) :
    Reads limits.anyCount t.encoding t := by
  refine reads_encoding hsize ?_
  intro c hc
  have := count_le_length c
  have := length_le_of_mem_preorder hc
  have : limits.itemSize.toNat < UInt64.size := limits.itemSize.toNat_lt
  have : limits.anyCount.arraySize.toNat = UInt64.size - 1 := rfl
  omega

theorem eq_of_encoding_eq {t u : Content} (ht : t.encoding.length ≤ limits.itemSize.toNat)
    (h : t.encoding = u.encoding) : t = u :=
  Reads.unique (Nat.lt_of_le_of_lt ht limits.itemSize.toNat_lt) (reads_anyCount ht)
    (h ▸ reads_anyCount (h ▸ ht))

end Content

/-! ## Equal bytes and equal content -/

/-- Written items have equal bytes exactly if they have the same content, and of two items with
the same content either both are written or neither is, however differently their containers are
shared. -/
theorem encode_canonical (heap : Heap) (a b : Item) (limits : Limits) :
    (∀ p q, encode heap a limits = .ok p → encode heap b limits = .ok q →
      (p = q ↔ heap.sameContent a b = .ok true)) ∧
    (heap.sameContent a b = .ok true →
      ∀ p, encode heap a limits = .ok p ↔ encode heap b limits = .ok p) := by
  have transfer (a b : Item) (p : Bytes) (h : heap.Bisimilar a b)
      (ha : encode heap a limits = .ok p) : encode heap b limits = .ok p := by
    obtain ⟨t, ht, hsize, rfl⟩ := encode_eq_ok_iff_unfolds.mp ha
    exact encode_eq_ok_iff_unfolds.mpr ⟨t, h.unfolds ht, hsize, rfl⟩
  rw [Heap.sameContent_iff]
  refine ⟨?_, ?_⟩
  · intro p q ha hb
    constructor
    · rintro rfl
      obtain ⟨t, ht, hsize, rfl⟩ := encode_eq_ok_iff_unfolds.mp ha
      obtain ⟨u, hu, _, henc⟩ := encode_eq_ok_iff_unfolds.mp hb
      rw [← Content.eq_of_encoding_eq hsize henc] at hu
      exact .of_unfolds ht hu
    · intro h
      have hq : encode heap b limits = .ok p := transfer a b p h ha
      rw [hq] at hb
      exact Except.ok.inj hb
  · intro h p
    constructor
    · intro ha
      exact transfer a b p h ha
    · intro hb
      exact transfer b a p h.symm hb

/-- Two arrays of two equal maps: the first array holds one map twice. -/
def sharedAndApart : Heap where
  arrays := #[[.map ⟨0⟩, .map ⟨0⟩], [.map ⟨0⟩, .map ⟨1⟩]]
  maps :=
    #[{ pairs := [(.bytes [0x6B], .boolean true)] }, { pairs := [(.bytes [0x6B], .boolean true)] }]

def oneMap : Content := .map [(.bytes [0x6B], .leaf (.boolean true))]

def twoMaps : Content := .array [oneMap, oneMap]

def twoMapsBytes : Bytes :=
  [0x80, 0x02, 0x82, 0x01, 0x00, 0x01, 0x6B, 0x01, 0x01, 0x82, 0x01, 0x00, 0x01, 0x6B, 0x01, 0x01]

theorem unfolds_first : sharedAndApart.Unfolds (.map ⟨0⟩) oneMap :=
  .map rfl rfl (.cons (.leaf rfl) .nil)

theorem unfolds_second : sharedAndApart.Unfolds (.map ⟨1⟩) oneMap :=
  .map rfl rfl (.cons (.leaf rfl) .nil)

theorem unfolds_shared : sharedAndApart.Unfolds (.array ⟨0⟩) twoMaps :=
  .array rfl (.cons unfolds_first (.cons unfolds_first .nil))

theorem unfolds_apart : sharedAndApart.Unfolds (.array ⟨1⟩) twoMaps :=
  .array rfl (.cons unfolds_first (.cons unfolds_second .nil))

theorem encode_of_unfolds_twoMaps {x : Item} (h : sharedAndApart.Unfolds x twoMaps) :
    encode sharedAndApart x {} = .ok twoMapsBytes := by
  have hcode : twoMaps.encoding = twoMapsBytes := by
    simp only [twoMaps, oneMap, Content.encoding, List.flatMap_cons, List.flatMap_nil]
    rfl
  exact encode_eq_ok_iff_unfolds.mpr ⟨twoMaps, h, by rw [hcode]; decide, hcode.symm⟩

theorem encode_canonical_shared :
    encode sharedAndApart (.array ⟨0⟩) {} = .ok twoMapsBytes ∧
      encode sharedAndApart (.array ⟨1⟩) {} = .ok twoMapsBytes ∧
      sharedAndApart.sameContent (.array ⟨0⟩) (.array ⟨1⟩) = .ok true := by
  have hshared := encode_of_unfolds_twoMaps unfolds_shared
  have hapart := encode_of_unfolds_twoMaps unfolds_apart
  refine ⟨hshared, hapart, ?_⟩
  exact ((encode_canonical sharedAndApart _ _ {}).1 _ _ hshared hapart).mp rfl

end ScriptHost

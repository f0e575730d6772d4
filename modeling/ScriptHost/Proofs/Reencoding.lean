import ScriptHost.Proofs.Relocation
import ScriptHost.Proofs.RoundTrip

/-!
# ScriptHost.Proofs.Reencoding

What comes out when decoded input is written again. Reading is lax in three ways: every byte but
zero is true, an integer may be padded, and a map may have a key more than once. Writing is not, so
the output is never longer than the input, and it is the input only where that has made no use of
the freedom (`decode_reencodes`). Node by node the output is compared with the `Spelling` of the
node in the input; what is left then is to drop the entries of repeated keys, which makes maps
smaller and the lengths in front of them no longer.
-/

namespace ScriptHost

open Content

/-! ## Spellings of a node -/

/-- A node as it stands in the input. -/
inductive Spelling
  | bytes (b : Bytes)
  | boolean (v : UInt8)
  | integer (b : Bytes)
  | container (kind : ContainerKind) (count : UInt64)

namespace Spelling

def written : Spelling → Bytes
  | bytes b => 0x00 :: VarBytes.write b
  | boolean v => [0x01, v]
  | integer b => 0x02 :: VarBytes.write b
  | container kind count => kind.tag.byte :: VarInt.write count

def node : Spelling → Node
  | bytes b => .leaf (.bytes b)
  | boolean v => .leaf (.boolean (v != 0))
  | integer b => .leaf (.integer (Bytes.signed b))
  | container kind count => .container kind count

/-- A boolean is the byte 0 or 1, and no fewer bytes have the value of an integer. -/
def Normal : Spelling → Prop
  | boolean v => v = 0 ∨ v = 1
  | integer b => ∀ b', Bytes.signed b' = Bytes.signed b → b.length ≤ b'.length
  | bytes _ | container _ _ => True

variable {limits : Limits} {data w : Bytes} {p : Spelling}

theorem length_lt_of_integer {b : Bytes} (h : (integer b).written.length < UInt64.size) :
    b.length < UInt64.size := by
  simp only [written, VarBytes.write, List.length_cons, List.length_append] at h
  omega

/-- No spelling is shorter than the one that is written. -/
theorem length_encoding_le (hp : p.written.length < UInt64.size) :
    p.node.encoding.length ≤ p.written.length := by
  cases p with
  | bytes b => exact Nat.le_refl _
  | boolean v => exact Nat.le_refl _
  | integer b =>
    exact Nat.succ_le_succ
      (VarBytes.length_write_mono (Integer.length_toBytes_le b) (length_lt_of_integer hp))
  | container kind count => exact Nat.le_refl _

theorem normal_iff (hp : p.written.length < UInt64.size) :
    p.Normal ↔ p.node.encoding = p.written := by
  cases p with
  | bytes b => exact ⟨fun _ => rfl, fun _ => trivial⟩
  | boolean v =>
    by_cases hv : v = 0
    · subst hv
      exact ⟨fun _ => rfl, fun _ => .inl rfl⟩
    · have hone : (boolean v).node.encoding = [0x01, 1] := by
        simp [node, Node.encoding, Key.encoding, Tag.byte, hv]
      rw [hone]
      constructor
      · rintro (hzero | rfl)
        · exact absurd hzero hv
        · rfl
      · intro h
        cases h
        exact .inr rfl
  | integer b =>
    rw [Normal, Integer.shortest_iff]
    constructor
    · intro h
      exact congrArg (fun b => 0x02 :: VarBytes.write b) h
    · intro h
      exact VarBytes.eq_of_write_eq (Integer.length_toBytes_le b) (length_lt_of_integer hp)
        (List.cons.inj h).2
  | container kind count => exact ⟨fun _ => rfl, fun _ => trivial⟩

theorem exists_of_form {node : Node} (h : node.Form limits w) :
    ∃ p : Spelling, p.written = w ∧ p.node = node := by
  cases h with
  | leaf hk =>
    cases hk with
    | bytes _ => exact ⟨.bytes _, rfl, rfl⟩
    | boolean v => exact ⟨.boolean v, rfl, rfl⟩
    | integer _ => exact ⟨.integer _, rfl, rfl⟩
  | container _ => exact ⟨.container _ _, rfl, rfl⟩

end Spelling

/-- The input has the nodes of the content in these spellings. -/
structure SpelledBy (data : Bytes) (t : Content) (ps : List Spelling) : Prop where
  bytes : data = ps.flatMap Spelling.written
  nodes : ps.map Spelling.node = t.preorder.map node

theorem exists_spellings {limits : Limits} {data : Bytes} {nodes : List Node}
    (h : Node.Forms limits data nodes) :
    ∃ ps : List Spelling, data = ps.flatMap Spelling.written ∧ ps.map Spelling.node = nodes := by
  induction h with
  | nil => exact ⟨[], rfl, rfl⟩
  | cons hw _ ih =>
    obtain ⟨p, rfl, rfl⟩ := Spelling.exists_of_form hw
    obtain ⟨ps, rfl, rfl⟩ := ih
    exact ⟨p :: ps, rfl, rfl⟩

theorem Reads.exists_spelledBy {limits : Limits} {data : Bytes} {t : Content}
    (h : Reads limits data t) : ∃ ps, SpelledBy data t ps := by
  obtain ⟨ps, hbytes, hnodes⟩ := exists_spellings h.spells.2
  exact ⟨ps, hbytes, hnodes.trans (nodes_outline t)⟩

/-! ## Lengths of lists of bytes -/

section Lengths

variable {α : Type} {f g : α → Bytes} {xs : List α}

theorem length_flatMap_le (h : ∀ x ∈ xs, (f x).length ≤ (g x).length) :
    (xs.flatMap f).length ≤ (xs.flatMap g).length := by
  induction xs with
  | nil => exact Nat.le_refl _
  | cons x xs ih =>
    have hx := h x List.mem_cons_self
    have hxs := ih fun y hy => h y (List.mem_cons_of_mem _ hy)
    simp only [List.flatMap_cons, List.length_append]
    omega

/-- Where no part is longer, the whole is only the same if all parts are. -/
theorem eq_of_flatMap_eq (h : ∀ x ∈ xs, (f x).length ≤ (g x).length)
    (heq : xs.flatMap f = xs.flatMap g) : ∀ x ∈ xs, f x = g x := by
  induction xs with
  | nil => simp
  | cons x xs ih =>
    have hx := h x List.mem_cons_self
    have hxs := length_flatMap_le fun y hy => h y (List.mem_cons_of_mem _ hy)
    have hlen := congrArg List.length heq
    simp only [List.flatMap_cons, List.length_append] at heq hlen
    obtain ⟨hhead, htail⟩ := List.append_inj heq (by omega)
    rw [List.forall_mem_cons]
    exact ⟨hhead, ih (fun y hy => h y (List.mem_cons_of_mem _ hy)) htail⟩

end Lengths

namespace SpelledBy

variable {data : Bytes} {t : Content} {ps : List Spelling}

theorem length_lt (h : SpelledBy data t ps) (hsize : data.length < UInt64.size) {p : Spelling}
    (hp : p ∈ ps) : p.written.length < UInt64.size := by
  refine Nat.lt_of_le_of_lt ?_ hsize
  rw [h.bytes, List.flatMap_def]
  exact (List.sublist_flatten_of_mem (List.mem_map_of_mem hp)).length_le

theorem encoding_eq (h : SpelledBy data t ps) :
    t.encoding = ps.flatMap fun p => p.node.encoding := by
  have hnodes : (ps.map Spelling.node).flatMap Node.encoding =
      (t.preorder.map Content.node).flatMap Node.encoding := by rw [h.nodes]
  rw [encoding_eq_flatMap, ← List.flatMap_map, ← hnodes, List.flatMap_map]

theorem length_encoding_le (h : SpelledBy data t ps) (hsize : data.length < UInt64.size) :
    t.encoding.length ≤ data.length := by
  rw [h.encoding_eq, h.bytes]
  exact length_flatMap_le fun p hp => Spelling.length_encoding_le (h.length_lt hsize hp)

/-- The encoding is the input if each node is in its normal spelling. -/
theorem encoding_eq_iff (h : SpelledBy data t ps) (hsize : data.length < UInt64.size) :
    t.encoding = data ↔ ∀ p ∈ ps, p.Normal := by
  rw [h.encoding_eq]
  constructor
  · intro heq p hp
    rw [Spelling.normal_iff (h.length_lt hsize hp)]
    rw [h.bytes] at heq
    exact eq_of_flatMap_eq
      (fun q hq => Spelling.length_encoding_le (h.length_lt hsize hq)) heq p hp
  · intro hnormal
    rw [h.bytes]
    refine List.flatMap_congr ?_
    intro p hp
    exact (Spelling.normal_iff (h.length_lt hsize hp)).mp (hnormal p hp)

end SpelledBy

/-! ## Contents without repeated keys -/

namespace Content

variable {limits : Limits} {t : Content}

/-- Merging changes a node by fewer entries only. -/
theorem node_merged (t : Content) :
    t.merged.node = t.node ∨
      ∃ n ≤ t.count, t.node = .container .map (UInt64.ofNat t.count) ∧
        t.merged.node = .container .map (UInt64.ofNat n) := by
  cases t with
  | leaf k => exact .inl (by rw [merged])
  | array xs => exact .inl (by rw [merged, node, node, List.length_map])
  | struct xs => exact .inl (by rw [merged, node, node, List.length_map])
  | map es =>
    have hle := (merge_subperm (es.map fun e => (e.1, e.2.merged))).length_le
    rw [List.length_map] at hle
    exact .inr ⟨_, hle, rfl, by rw [merged, node]⟩

theorem length_encoding_merged_le (h : ∀ c ∈ t.preorder, c.count < UInt64.size) :
    t.merged.encoding.length ≤ t.encoding.length := by
  induction t using induct with
  | step t ih =>
    have hnode : t.merged.node.encoding.length ≤ t.node.encoding.length := by
      rcases node_merged t with hsame | ⟨n, hle, hnode, hmerged⟩
      · rw [hsame]
      · rw [hnode, hmerged]
        exact Nat.succ_le_succ
          (VarInt.length_write_ofNat_mono hle (h t t.mem_preorder_self))
    have hchildren : (t.merged.children.flatMap encoding).length ≤
        (t.children.flatMap encoding).length := by
      calc (t.merged.children.flatMap encoding).length
          ≤ ((t.children.map merged).flatMap encoding).length := by
            obtain ⟨l, hperm, hsub⟩ := children_merged_subperm t
            rw [← (hperm.flatMap_right encoding).length_eq]
            exact (hsub.flatMap encoding).length_le
        _ = (t.children.flatMap fun c => c.merged.encoding).length := by rw [List.flatMap_map]
        _ ≤ (t.children.flatMap encoding).length :=
            length_flatMap_le fun c hc =>
              ih c hc fun d hd => h d (mem_preorder_of_children hc hd)
    rw [encoding_eq t.merged, encoding_eq t, List.length_append, List.length_append]
    omega

/-- What may be read for each node of a content may be read for each node once it is merged. -/
theorem form_merged (hcount : ∀ c ∈ t.preorder, c.count < UInt64.size)
    (h : ∀ c ∈ t.preorder, c.node.Form limits c.node.encoding) :
    ∀ c ∈ t.merged.preorder, c.node.Form limits c.node.encoding := by
  induction t using induct with
  | step t ih =>
    intro c hc
    rw [preorder_eq] at hc
    rcases List.mem_cons.mp hc with rfl | hc
    · have hform := h t t.mem_preorder_self
      rcases node_merged t with hsame | ⟨n, hle, hnode, hmerged⟩
      · rw [hsame]
        exact hform
      · rw [hnode] at hform
        rw [hmerged]
        have hlimit := hform.count_le
        have hlt := hcount t t.mem_preorder_self
        have hn : (UInt64.ofNat n).toNat = n :=
          UInt64.toNat_ofNat_of_lt (Nat.lt_of_le_of_lt hle hlt)
        have ht : (UInt64.ofNat t.count).toNat = t.count := UInt64.toNat_ofNat_of_lt hlt
        refine .container ?_
        rw [UInt64.le_iff_toNat_le] at hlimit ⊢
        omega
    · obtain ⟨d, hd, hcd⟩ := List.mem_flatMap.mp hc
      obtain ⟨u, hu, rfl⟩ := exists_of_mem_children_merged hd
      exact ih u hu (fun e he => hcount e (mem_preorder_of_children hu he))
        (fun e he => h e (mem_preorder_of_children hu he)) c hcd

end Content

/-! ## Reading the output -/

section Reading

variable {limits : Limits} {data : Bytes} {t : Content}

/-- A node that may be read in some spelling may be read in the normal one. -/
theorem Node.Form.encoding {node : Node} {w : Bytes} (h : node.Form limits w) :
    node.Form limits node.encoding := by
  cases h with
  | leaf hk =>
    refine .leaf ?_
    cases hk with
    | bytes hb => exact .bytes hb
    | boolean v => cases v != 0 <;> exact .boolean _
    | @integer b hb =>
      have hform : (Key.integer (Bytes.signed (Integer.toBytes (Bytes.signed b)))).Form limits
          (0x02 :: VarBytes.write (Integer.toBytes (Bytes.signed b))) :=
        .integer (Nat.le_trans (Integer.length_toBytes_le b) hb)
      rwa [Integer.signed_toBytes] at hform
  | container hn => exact .container hn

theorem Node.Forms.encoding {nodes : List Node} (h : Node.Forms limits data nodes) :
    ∀ node ∈ nodes, node.Form limits node.encoding := by
  induction h with
  | nil => simp
  | cons hw _ ih =>
    rw [List.forall_mem_cons]
    exact ⟨hw.encoding, ih⟩

theorem Reads.form_encoding (h : Reads limits data t) :
    ∀ c ∈ t.preorder, c.node.Form limits c.node.encoding := by
  intro c hc
  have hforms := h.spells.2
  rw [nodes_outline] at hforms
  exact hforms.encoding c.node (List.mem_map_of_mem hc)

theorem Reads.length_encoding_le (hsize : data.length < UInt64.size) (h : Reads limits data t) :
    t.encoding.length ≤ data.length := by
  obtain ⟨ps, hps⟩ := h.exists_spelledBy
  exact hps.length_encoding_le hsize

theorem Reads.count_lt (hsize : data.length < UInt64.size) (h : Reads limits data t) :
    ∀ c ∈ t.preorder, c.count < UInt64.size := by
  intro c hc
  calc c.count ≤ c.encoding.length := count_le_length c
    _ ≤ t.encoding.length := length_le_of_mem_preorder hc
    _ ≤ data.length := h.length_encoding_le hsize
    _ < UInt64.size := hsize

/-- The output is not longer than the input. -/
theorem Reads.length_merged_le (hsize : data.length < UInt64.size) (h : Reads limits data t) :
    t.merged.encoding.length ≤ data.length :=
  Nat.le_trans (length_encoding_merged_le (h.count_lt hsize)) (h.length_encoding_le hsize)

/-- The output may be read under the limits of the input. -/
theorem Reads.merged (hsize : data.length < UInt64.size) (h : Reads limits data t) :
    Reads limits t.merged.encoding t.merged := by
  refine reads_of_forms ?_ (form_merged (h.count_lt hsize) h.form_encoding)
  intro c hc
  calc c.count ≤ c.encoding.length := count_le_length c
    _ ≤ t.merged.encoding.length := length_le_of_mem_preorder hc
    _ ≤ data.length := h.length_merged_le hsize
    _ < UInt64.size := hsize

end Reading

/-! ## Written again -/

/-- Input that has a reading is refused for a lack of handles only. -/
theorem decode_exhausted {heap : Heap} {data : Bytes} {limits : Limits} {t : Content}
    (hsize : data.length < UInt64.size) (h : Reads limits data t)
    (hroom : ¬heap.RoomFor t.arraySlots t.mapSlots) :
    decode heap data limits = (.error (.heap .handlesExhausted), heap) := by
  rcases hdecode : decode heap data limits with ⟨e | x, heap'⟩
  · rw [heap_of_decode_error hdecode]
    rw [decode_of_reads hsize h] at hdecode
    split at hdecode
    · rename_i hmake
      cases hdecode
      rw [NodeTree.make_error h.spells.1 hmake]
    · cases hdecode
  · obtain ⟨u, hu, _, hgrows⟩ := decode_ok hsize hdecode
    rw [hu.unique hsize h] at hgrows
    exact absurd hgrows.room hroom

/-- What `c`, the encoding of an item that was decoded from `data`, has to do with `data`, of
which `t` is the reading. -/
structure Reencodes (heap : Heap) (y : Item) (limits : Limits) (data : Bytes) (t : Content)
    (c : Bytes) : Prop where
  shorter : c.length ≤ data.length
  written : encode heap y limits =
    if c.length ≤ limits.itemSize.toNat then .ok c else .error (.itemTooLarge limits.itemSize)
  spelled : ∃ ps, SpelledBy data t ps
  same_iff : ∀ ps, SpelledBy data t ps → (c = data ↔ (∀ p ∈ ps, p.Normal) ∧ t.DistinctKeys)
  /-- It is decoded to the same content as long as there are handles. -/
  again : heap.RoomFor t.merged.arraySlots t.merged.mapSlots →
    ∃ z heap', decode heap c limits = (.ok z, heap') ∧ heap'.sameContent y z = .ok true
  exhausted : ¬heap.RoomFor t.merged.arraySlots t.merged.mapSlots →
    decode heap c limits = (.error (.heap .handlesExhausted), heap)

/-- Decoded input that is written again comes out in normal form: not longer, the same bytes if it
was in normal form already, and otherwise bytes that are decoded to the same content. Writing can
be refused for the length of the bytes, and for nothing else. -/
theorem decode_reencodes {heap heap' : Heap} {data : Bytes} {limits : Limits} {y : Item}
    (hsize : data.length < UInt64.size) (h : decode heap data limits = (.ok y, heap')) :
    ∃ t, Reads limits data t ∧ heap'.Unfolds y t.merged ∧
      Reencodes heap' y limits data t t.merged.encoding := by
  obtain ⟨t, hreads, hy, _⟩ := decode_ok hsize h
  have hmerged := hreads.merged hsize
  have hshorter := hreads.length_merged_le hsize
  have hlt : t.merged.encoding.length < UInt64.size := Nat.lt_of_le_of_lt hshorter hsize
  refine ⟨t, hreads, hy, hshorter, ?_, hreads.exists_spelledBy, ?_, ?_, ?_⟩
  · have hfits : t.merged.encoding.length ≤ greatestWord.toNat := Nat.le_of_lt_succ hlt
    have hunlimited : encode heap' y { limits with itemSize := greatestWord } =
        .ok t.merged.encoding := encode_eq_ok_iff_unfolds.mpr ⟨_, hy, hfits, rfl⟩
    exact encode_of_encode hunlimited
  · intro ps hps
    rw [← hps.encoding_eq_iff hsize]
    constructor
    · intro hsame
      have hself : t.merged = t := Reads.unique hsize (hsame ▸ hmerged) hreads
      rw [hself] at hsame
      exact ⟨hsame, merged_eq_self_iff.mp hself⟩
    · rintro ⟨hsame, hdistinct⟩
      rw [merged_of_distinctKeys hdistinct, hsame]
  · intro hroom
    obtain ⟨z, heap'', hdecode⟩ := exists_decode hlt hmerged hroom
    obtain ⟨u, hu, hz, hgrows⟩ := decode_ok hlt hdecode
    rw [hu.unique hlt hmerged, merged_of_distinctKeys (distinctKeys_merged t)] at hz
    refine ⟨z, heap'', hdecode, Heap.sameContent_iff.mpr ?_⟩
    exact .of_unfolds (hy.extend hgrows.keeps) hz
  · exact decode_exhausted hlt hmerged

/-- A map that has the key `true` twice, the second time as the byte 5 and with the integer 5 in two
bytes. -/
def looseMap : Bytes :=
  [0x82, 0x02, 0x01, 0x01, 0x01, 0x07, 0x01, 0x05, 0x02, 0x02, 0x05, 0x00]

def looseMapHeap : Heap where
  maps := #[Entries.empty.insert (.boolean true) (.integer 5)]

theorem decode_reencodes_looseMap :
    decode .empty looseMap {} = (.ok (.map ⟨0⟩), looseMapHeap) ∧
      encode looseMapHeap (.map ⟨0⟩) {} = .ok [0x82, 0x01, 0x01, 0x01, 0x02, 0x01, 0x05] := by
  have hdecode : decode .empty looseMap {} = (.ok (.map ⟨0⟩), looseMapHeap) := by decide +kernel
  have hunfolds : looseMapHeap.Unfolds (.map ⟨0⟩)
      (.map [(.boolean true, .leaf (.integer 5))]) := .map rfl rfl (.cons (.leaf rfl) .nil)
  have hcode : (Content.map [(.boolean true, .leaf (.integer 5))]).encoding =
      [0x82, 0x01, 0x01, 0x01, 0x02, 0x01, 0x05] := by
    simp only [encoding, List.flatMap_cons, List.flatMap_nil]
    decide +kernel
  obtain ⟨t, _, ht, hreencodes⟩ := decode_reencodes (by decide) hdecode
  rw [ht.unique hunfolds, hcode] at hreencodes
  exact ⟨hdecode, hreencodes.written⟩

end ScriptHost

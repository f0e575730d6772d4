import Mathlib.Data.List.Basic
import ScriptHost.Proofs.Content
import ScriptHost.Proofs.Integer
import ScriptHost.Proofs.NodeTree

/-!
# ScriptHost.Proofs.Grammar

Which byte strings are encodings, and of what, said by recursion on the nesting: `Reads limits
data t`. The same grammar without nesting is `Node.Forms limits data nodes`, where each node has
its own bytes. A content is the tree of its nodes (`outline`), and `reads_iff` makes the two ways
of reading one.
-/

namespace ScriptHost

/-! ## The grammar -/

/-- The bytes that may stand for a leaf. -/
inductive Key.Form (limits : Limits) : Bytes → Key → Prop
  | bytes {b : Bytes} :
      b.length ≤ limits.itemSize.toNat → Form limits (0x00 :: VarBytes.write b) (.bytes b)
  | boolean (v : UInt8) : Form limits [0x01, v] (.boolean (v != 0))
  | integer {b : Bytes} :
      b.length ≤ limits.itemSize.toNat →
      Form limits (0x02 :: VarBytes.write b) (.integer (Bytes.signed b))

mutual

/-- The bytes, read by recursive descent, are one node and give the content. -/
inductive Reads (limits : Limits) : Bytes → Content → Prop
  | leaf {w : Bytes} {k : Key} : k.Form limits w → Reads limits w (.leaf k)
  | array {n : UInt64} {data : Bytes} {ts : List Content} :
      n ≤ limits.arraySize → ts.length = n.toNat → ReadsAll limits data ts →
      Reads limits (0x80 :: VarInt.write n ++ data) (.array ts)
  | struct {n : UInt64} {data : Bytes} {ts : List Content} :
      n ≤ limits.arraySize → ts.length = n.toNat → ReadsAll limits data ts →
      Reads limits (0x81 :: VarInt.write n ++ data) (.struct ts)
  | map {n : UInt64} {data : Bytes} {es : List (Key × Content)} :
      n ≤ limits.arraySize → es.length = n.toNat → ReadsEntries limits data es →
      Reads limits (0x82 :: VarInt.write n ++ data) (.map es)

/-- One node after the other. -/
inductive ReadsAll (limits : Limits) : Bytes → List Content → Prop
  | nil : ReadsAll limits [] []
  | cons {w data : Bytes} {t : Content} {ts : List Content} :
      Reads limits w t → ReadsAll limits data ts → ReadsAll limits (w ++ data) (t :: ts)

/-- Keys and values in turn; a key has no nodes inside it. -/
inductive ReadsEntries (limits : Limits) : Bytes → List (Key × Content) → Prop
  | nil : ReadsEntries limits [] []
  | cons {w w' data : Bytes} {k : Key} {t : Content} {es : List (Key × Content)} :
      k.Form limits w → Reads limits w' t → ReadsEntries limits data es →
      ReadsEntries limits (w ++ (w' ++ data)) ((k, t) :: es)

end

/-! ## The grammar without nesting -/

namespace Node

/-- The bytes that may stand for a node without the nodes inside it. -/
inductive Form (limits : Limits) : Bytes → Node → Prop
  | leaf {w : Bytes} {k : Key} : k.Form limits w → Form limits w (.leaf k)
  | container {kind : ContainerKind} {count : UInt64} :
      count ≤ limits.arraySize →
      Form limits (kind.tag.byte :: VarInt.write count) (.container kind count)

/-- The bytes of one node after the other. -/
inductive Forms (limits : Limits) : Bytes → List Node → Prop
  | nil : Forms limits [] []
  | cons {w data : Bytes} {node : Node} {nodes : List Node} :
      node.Form limits w → Forms limits data nodes → Forms limits (w ++ data) (node :: nodes)

variable {limits : Limits} {data data' : Bytes} {nodes nodes' : List Node}

theorem Forms.append (h : Forms limits data nodes) (h' : Forms limits data' nodes') :
    Forms limits (data ++ data') (nodes ++ nodes') := by
  induction h with
  | nil => exact h'
  | cons hw _ ih =>
    rw [List.append_assoc, List.cons_append]
    exact .cons hw ih

theorem Forms.split (h : Forms limits data (nodes ++ nodes')) :
    ∃ a b, data = a ++ b ∧ Forms limits a nodes ∧ Forms limits b nodes' := by
  induction nodes generalizing data with
  | nil => exact ⟨[], data, rfl, .nil, h⟩
  | cons node nodes ih =>
    cases h with
    | @cons w _ _ _ hw h =>
      obtain ⟨a, b, rfl, ha, hb⟩ := ih h
      exact ⟨w ++ a, b, by rw [List.append_assoc], .cons hw ha, hb⟩

theorem Form.pos {w : Bytes} {node : Node} (h : node.Form limits w) : 1 ≤ w.length := by
  cases h with
  | leaf hk => cases hk <;> simp
  | container _ => simp

theorem Form.count_le {w : Bytes} {kind : ContainerKind} {count : UInt64}
    (h : (Node.container kind count).Form limits w) : count ≤ limits.arraySize := by
  cases h with
  | container hle => exact hle

theorem Forms.le_length (h : Forms limits data nodes) : nodes.length ≤ data.length := by
  induction h with
  | nil => simp
  | cons hw _ ih =>
    have := hw.pos
    simp only [List.length_cons, List.length_append]
    omega

end Node

namespace NodeTree

/-- The bytes are those of the nodes of one whole tree. -/
def Spells (limits : Limits) (data : Bytes) (t : NodeTree) : Prop :=
  t.Complete ∧ Node.Forms limits data t.nodes

def SpellsAll (limits : Limits) (data : Bytes) (ts : List NodeTree) : Prop :=
  (∀ t ∈ ts, t.Complete) ∧ Node.Forms limits data (ts.flatMap nodes)

/-- The bytes are those of the first nodes of a tree, and at least one more is to come. -/
def SpellsPart (limits : Limits) (data : Bytes) : Prop :=
  ∃ nodes, Unfinished nodes ∧ Node.Forms limits data nodes

variable {limits : Limits} {data : Bytes}

theorem spells_mk_iff {node : Node} {parts : List NodeTree} :
    (mk node parts).Spells limits data ↔ parts.length = node.breadth ∧
      ∃ w rest, data = w ++ rest ∧ node.Form limits w ∧ SpellsAll limits rest parts := by
  constructor
  · rintro ⟨⟨hlen, hparts⟩, h⟩
    rw [nodes] at h
    cases h with
    | cons hw h => exact ⟨hlen, _, _, rfl, hw, hparts, h⟩
  · rintro ⟨hlen, w, rest, rfl, hw, hparts, h⟩
    refine ⟨.mk hlen hparts, ?_⟩
    rw [nodes]
    exact .cons hw h

theorem spellsAll_nil_iff : SpellsAll limits data [] ↔ data = [] := by
  constructor
  · rintro ⟨_, h⟩
    cases h
    rfl
  · rintro rfl
    exact ⟨by simp, .nil⟩

theorem spellsAll_cons_iff {t : NodeTree} {ts : List NodeTree} :
    SpellsAll limits data (t :: ts) ↔
      ∃ w rest, data = w ++ rest ∧ t.Spells limits w ∧ SpellsAll limits rest ts := by
  constructor
  · rintro ⟨hts, h⟩
    obtain ⟨w, rest, rfl, hw, hrest⟩ := h.split
    refine ⟨w, rest, rfl, ⟨hts t List.mem_cons_self, hw⟩, ?_, hrest⟩
    intro u hu
    exact hts u (List.mem_cons_of_mem _ hu)
  · rintro ⟨w, rest, rfl, ⟨ht, hw⟩, hts, hrest⟩
    refine ⟨?_, hw.append hrest⟩
    intro u hu
    rcases List.mem_cons.mp hu with rfl | hu
    · exact ht
    · exact hts u hu

theorem spells_leaf_iff {k : Key} :
    (mk (.leaf k) []).Spells limits data ↔ k.Form limits data := by
  rw [spells_mk_iff]
  constructor
  · rintro ⟨_, w, rest, rfl, hw, hrest⟩
    rw [spellsAll_nil_iff.mp hrest, List.append_nil]
    cases hw with
    | leaf hk => exact hk
  · intro hk
    exact ⟨rfl, data, [], (List.append_nil data).symm, .leaf hk, spellsAll_nil_iff.mpr rfl⟩

end NodeTree

/-! ## Contents as trees of nodes -/

namespace Content

def outline : Content → NodeTree
  | leaf k => .mk (.leaf k) []
  | array xs => .mk (array xs).node (xs.map outline)
  | struct xs => .mk (struct xs).node (xs.map outline)
  | map es => .mk (map es).node (es.flatMap fun e => [.mk (.leaf e.1) [], e.2.outline])
termination_by t => sizeOf t
decreasing_by
  · exact sizeOf_lt_of_mem_children (t := array _) ‹_›
  · exact sizeOf_lt_of_mem_children (t := struct _) ‹_›
  · exact sizeOf_lt_of_mem_children (value_mem_children ‹_›)

theorem outline_eq (t : Content) : t.outline = .mk t.node (t.children.map outline) := by
  cases t with
  | leaf k => simp [outline, node, children]
  | array xs => rw [outline]; rfl
  | struct xs => rw [outline]; rfl
  | map es =>
    rw [outline, children, List.map_flatMap]
    simp [outline]

theorem nodes_outline (t : Content) : t.outline.nodes = t.preorder.map node := by
  induction t using Content.induct with
  | step t ih =>
    rw [outline_eq, NodeTree.nodes, preorder_eq, List.map_cons, List.map_flatMap,
      List.flatMap_map]
    exact congrArg _ (List.flatMap_congr fun c hc => ih c hc)

/-- Counts that a word holds are those of the children. -/
theorem complete_outline {t : Content} (h : ∀ c ∈ t.preorder, c.count < UInt64.size) :
    t.outline.Complete := by
  induction t using Content.induct with
  | step t ih =>
    have hself := h t t.mem_preorder_self
    have hcount : (UInt64.ofNat t.count).toNat = t.count := UInt64.toNat_ofNat_of_lt hself
    rw [outline_eq]
    refine .mk ?_ ?_
    · rw [List.length_map]
      cases t with
      | leaf k => rfl
      | array xs => exact hcount.symm
      | struct xs => exact hcount.symm
      | map es =>
        rw [length_children_map]
        exact congrArg (2 * ·) hcount.symm
    · intro u hu
      obtain ⟨c, hc, rfl⟩ := List.mem_map.mp hu
      exact ih c hc fun d hd => h d (mem_preorder_of_children hc hd)

theorem entries_eq_of_children_eq {es es' : List (Key × Content)}
    (h : (map es).children = (map es').children) : es = es' := by
  induction es generalizing es' with
  | nil =>
    cases es' with
    | nil => rfl
    | cons e' es' => simp [children] at h
  | cons e es ih =>
    cases es' with
    | nil => simp [children] at h
    | cons e' es' =>
      simp only [children, List.flatMap_cons, List.cons_append, List.nil_append, List.cons.injEq,
        leaf.injEq] at h
      obtain ⟨hk, hv, h⟩ := h
      rw [Prod.ext hk hv, ih h]

theorem ext {t u : Content} (hnode : t.node = u.node) (hchildren : t.children = u.children) :
    t = u := by
  cases t <;> cases u <;> simp only [node, Node.leaf.injEq, Node.container.injEq, reduceCtorEq,
    false_and] at hnode
  · rw [hnode]
  · exact congrArg array hchildren
  · exact congrArg struct hchildren
  · exact congrArg map (entries_eq_of_children_eq hchildren)

theorem eq_of_outline_eq {t u : Content} (h : t.outline = u.outline) : t = u := by
  induction t using Content.induct generalizing u with
  | step t ih =>
    rw [outline_eq t, outline_eq u, NodeTree.mk.injEq] at h
    have children (ts us : List Content) (hmem : ∀ c ∈ ts, c ∈ t.children)
        (hmap : ts.map outline = us.map outline) : ts = us := by
      induction ts generalizing us with
      | nil => exact (List.map_eq_nil_iff.mp hmap.symm).symm
      | cons c ts ihts =>
        obtain ⟨d, us, rfl, hd, hus⟩ := List.map_eq_cons_iff.mp hmap.symm
        rw [ih c (hmem c List.mem_cons_self) hd.symm,
          ihts us (fun c hc => hmem c (List.mem_cons_of_mem _ hc)) hus.symm]
    exact ext h.1 (children _ _ (fun c hc => hc) h.2)

end Content

/-! ## One grammar -/

open NodeTree Content

mutual

theorem Reads.spells {limits : Limits} {data : Bytes} {t : Content} (h : Reads limits data t) :
    t.outline.Spells limits data := by
  cases h with
  | leaf hk =>
    rw [outline]
    exact spells_leaf_iff.mpr hk
  | @array n _ ts hn hlen h =>
    rw [outline, node, hlen, UInt64.ofNat_toNat]
    refine spells_mk_iff.mpr ⟨?_, _, _, rfl, @Node.Form.container limits .array n hn, ?_⟩
    · rw [List.length_map, hlen, Node.breadth]
    · exact ReadsAll.spellsAll h
  | @struct n _ ts hn hlen h =>
    rw [outline, node, hlen, UInt64.ofNat_toNat]
    refine spells_mk_iff.mpr ⟨?_, _, _, rfl, @Node.Form.container limits .struct n hn, ?_⟩
    · rw [List.length_map, hlen, Node.breadth]
    · exact ReadsAll.spellsAll h
  | @map n _ es hn hlen h =>
    rw [outline, node, hlen, UInt64.ofNat_toNat]
    refine spells_mk_iff.mpr ⟨?_, _, _, rfl, @Node.Form.container limits .map n hn, ?_⟩
    · simp [Node.breadth, ← hlen, Nat.mul_comm]
    · exact ReadsEntries.spellsAll h

theorem ReadsAll.spellsAll {limits : Limits} {data : Bytes} {ts : List Content}
    (h : ReadsAll limits data ts) :
    SpellsAll limits data (ts.map outline) := by
  cases h with
  | nil => exact spellsAll_nil_iff.mpr rfl
  | cons ht hts =>
    exact spellsAll_cons_iff.mpr ⟨_, _, rfl, Reads.spells ht, ReadsAll.spellsAll hts⟩

theorem ReadsEntries.spellsAll {limits : Limits} {data : Bytes} {es : List (Key × Content)}
    (h : ReadsEntries limits data es) :
    SpellsAll limits data (es.flatMap fun e => [.mk (.leaf e.1) [], e.2.outline]) := by
  cases h with
  | nil => exact spellsAll_nil_iff.mpr rfl
  | cons hk ht hes =>
    refine spellsAll_cons_iff.mpr ⟨_, _, rfl, spells_leaf_iff.mpr hk, ?_⟩
    exact spellsAll_cons_iff.mpr ⟨_, _, rfl, Reads.spells ht, ReadsEntries.spellsAll hes⟩

end

variable {limits : Limits} {data : Bytes}

theorem readsAll_of_spellsAll {ts : List Content}
    (ih : ∀ t ∈ ts, ∀ w, t.outline.Spells limits w → Reads limits w t)
    (h : SpellsAll limits data (ts.map outline)) : ReadsAll limits data ts := by
  induction ts generalizing data with
  | nil => rw [spellsAll_nil_iff.mp h]; exact .nil
  | cons t ts ihts =>
    obtain ⟨w, rest, rfl, ht, hts⟩ := spellsAll_cons_iff.mp h
    exact .cons (ih t List.mem_cons_self w ht)
      (ihts (fun t ht => ih t (List.mem_cons_of_mem _ ht)) hts)

theorem readsEntries_of_spellsAll {es : List (Key × Content)}
    (ih : ∀ e ∈ es, ∀ w, e.2.outline.Spells limits w → Reads limits w e.2)
    (h : SpellsAll limits data (es.flatMap fun e => [.mk (.leaf e.1) [], e.2.outline])) :
    ReadsEntries limits data es := by
  induction es generalizing data with
  | nil => rw [spellsAll_nil_iff.mp h]; exact .nil
  | cons e es ihes =>
    obtain ⟨w, rest, rfl, hk, h⟩ := spellsAll_cons_iff.mp h
    obtain ⟨w', rest', rfl, ht, hes⟩ := spellsAll_cons_iff.mp h
    exact .cons (spells_leaf_iff.mp hk) (ih e List.mem_cons_self w' ht)
      (ihes (fun e he => ih e (List.mem_cons_of_mem _ he)) hes)

theorem reads_iff {t : Content} : Reads limits data t ↔ t.outline.Spells limits data := by
  refine ⟨Reads.spells, ?_⟩
  intro h
  induction t using Content.induct generalizing data with
  | step t ih =>
    cases t with
    | leaf k =>
      rw [outline] at h
      exact .leaf (spells_leaf_iff.mp h)
    | array ts =>
      rw [outline, spells_mk_iff, List.length_map] at h
      obtain ⟨hlen, w, rest, rfl, ⟨_⟩ | ⟨hn⟩, h⟩ := h
      exact .array hn hlen (readsAll_of_spellsAll (fun t ht w => ih t ht) h)
    | struct ts =>
      rw [outline, spells_mk_iff, List.length_map] at h
      obtain ⟨hlen, w, rest, rfl, ⟨_⟩ | ⟨hn⟩, h⟩ := h
      exact .struct hn hlen (readsAll_of_spellsAll (fun t ht w => ih t ht) h)
    | map es =>
      rw [outline, spells_mk_iff] at h
      obtain ⟨hlen, w, rest, rfl, ⟨_⟩ | ⟨hn⟩, h⟩ := h
      refine .map hn ?_ (readsEntries_of_spellsAll (fun e he w => ih _ (value_mem_children he)) h)
      have htwice : es.length * 2 = 2 * (UInt64.ofNat es.length).toNat := by
        simpa [Node.breadth, node] using hlen
      omega

end ScriptHost

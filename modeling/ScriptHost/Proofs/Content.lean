import Mathlib.Algebra.Ring.Nat
import Mathlib.Data.List.Flatten
import ScriptHost.Codec.Encode
import ScriptHost.Codec.Layout
import ScriptHost.Proofs.Entries

/-!
# ScriptHost.Proofs.Content

Values with no handles left in them: what an item stands for once every container has been
replaced by what it holds, and what a byte string spells. A content is a finite tree, so it can be
gone through by recursion where items need a list of work.

* `children`, `node`: the view that all proofs go by. A content is one node and the contents
  directly inside it; in a map, a key stands before its value.
* `encoding`: the bytes of a content, written recursively (`encoding_eq` in terms of the view).
* `preorder`: a content and everything inside it, in the order of writing (`preorder_eq`).
* `arraySlots`, `mapSlots`: how many containers of either space there are in a content.
* `DistinctKeys`: no map in the content has a key twice.
* `merged`: the same content with no key twice in a map. It is what reading makes of a content
  that repeats a key.
-/

namespace ScriptHost

def ContainerKind.tag : ContainerKind → Tag
  | array => .array
  | struct => .struct
  | map => .map

def Node.encoding : Node → Bytes
  | leaf k => k.encoding
  | container kind count => kind.tag.byte :: VarInt.write count

inductive Content
  | leaf (k : Key)
  | array (xs : List Content)
  | struct (xs : List Content)
  | map (es : List (Key × Content))

namespace Content

/-! ## A node and what is inside it -/

def children : Content → List Content
  | leaf _ => []
  | array xs => xs
  | struct xs => xs
  | map es => es.flatMap fun e => [leaf e.1, e.2]

/-- How many elements or entries a container has. -/
def count : Content → Nat
  | leaf _ => 0
  | array xs => xs.length
  | struct xs => xs.length
  | map es => es.length

def node : Content → Node
  | leaf k => .leaf k
  | array xs => .container .array (UInt64.ofNat xs.length)
  | struct xs => .container .struct (UInt64.ofNat xs.length)
  | map es => .container .map (UInt64.ofNat es.length)

theorem length_children_map (es : List (Key × Content)) :
    (map es).children.length = 2 * es.length := by
  simp [children, Nat.mul_comm]

theorem value_mem_children {es : List (Key × Content)} {e : Key × Content} (h : e ∈ es) :
    e.2 ∈ (map es).children :=
  List.mem_flatMap.mpr ⟨e, h, by simp⟩

theorem key_mem_children {es : List (Key × Content)} {e : Key × Content} (h : e ∈ es) :
    leaf e.1 ∈ (map es).children :=
  List.mem_flatMap.mpr ⟨e, h, by simp⟩

theorem sizeOf_lt_of_mem_children {c t : Content} (h : c ∈ t.children) : sizeOf c < sizeOf t := by
  cases t with
  | leaf k => simp [children] at h
  | array xs =>
    have := List.sizeOf_lt_of_mem (show c ∈ xs from h)
    simp only [array.sizeOf_spec]
    omega
  | struct xs =>
    have := List.sizeOf_lt_of_mem (show c ∈ xs from h)
    simp only [struct.sizeOf_spec]
    omega
  | map es =>
    simp only [children, List.mem_flatMap, List.mem_cons, List.not_mem_nil, or_false] at h
    obtain ⟨⟨k, v⟩, he, rfl | rfl⟩ := h
    all_goals
      have := List.sizeOf_lt_of_mem he
      simp only [map.sizeOf_spec, leaf.sizeOf_spec, Prod.mk.sizeOf_spec] at *
      omega

/-- Induction on a content: what holds of a content once it holds of all its children holds of
every content. -/
theorem induct {motive : Content → Prop}
    (step : ∀ t : Content, (∀ c ∈ t.children, motive c) → motive t) (t : Content) : motive t :=
  step t fun c hc =>
    have := sizeOf_lt_of_mem_children hc
    induct step c
termination_by sizeOf t

/-! ## The recursive encoding -/

/-- The tag comes first, then how many bytes, elements or entries follow, and then these. A key
stands before its value. -/
def encoding : Content → Bytes
  | leaf (.bytes b) => 0x00 :: (VarInt.write (UInt64.ofNat b.length) ++ b)
  | leaf (.boolean v) => [0x01, if v then 1 else 0]
  | leaf (.integer n) =>
    0x02 :: (VarInt.write (UInt64.ofNat (Integer.toBytes n).length) ++ Integer.toBytes n)
  | array xs => 0x80 :: (VarInt.write (UInt64.ofNat xs.length) ++ xs.flatMap encoding)
  | struct xs => 0x81 :: (VarInt.write (UInt64.ofNat xs.length) ++ xs.flatMap encoding)
  | map es =>
    0x82 :: (VarInt.write (UInt64.ofNat es.length) ++
      es.flatMap fun e => (leaf e.1).encoding ++ e.2.encoding)
termination_by t => sizeOf t
decreasing_by
  · exact sizeOf_lt_of_mem_children (t := array _) ‹_›
  · exact sizeOf_lt_of_mem_children (t := struct _) ‹_›
  · exact sizeOf_lt_of_mem_children (key_mem_children ‹_›)
  · exact sizeOf_lt_of_mem_children (value_mem_children ‹_›)

theorem encoding_leaf (k : Key) : (leaf k).encoding = k.encoding := by
  cases k <;> rw [encoding] <;> rfl

theorem encoding_array (xs : List Content) :
    (array xs).encoding = Encoder.header .array xs.length ++ xs.flatMap encoding := by
  rw [encoding]
  rfl

theorem encoding_struct (xs : List Content) :
    (struct xs).encoding = Encoder.header .struct xs.length ++ xs.flatMap encoding := by
  rw [encoding]
  rfl

theorem encoding_map (es : List (Key × Content)) :
    (map es).encoding =
      Encoder.header .map es.length ++ es.flatMap fun e => e.1.encoding ++ e.2.encoding := by
  rw [encoding]
  simp only [encoding_leaf]
  rfl

theorem encoding_eq (t : Content) :
    t.encoding = t.node.encoding ++ t.children.flatMap encoding := by
  cases t with
  | leaf k => simp [encoding_leaf, node, Node.encoding, children]
  | array xs => exact encoding_array xs
  | struct xs => exact encoding_struct xs
  | map es =>
    rw [encoding_map]
    simp [children, List.flatMap_assoc, encoding_leaf, node, Node.encoding, Encoder.header,
      ContainerKind.tag]

theorem two_le_length_node (n : Node) : 2 ≤ n.encoding.length := by
  cases n with
  | leaf k => exact Encoder.two_le_length_encoding k
  | container kind count =>
    have := Encoder.two_le_length_header kind.tag count.toNat
    simpa [Node.encoding, Encoder.header] using this

theorem two_le_length_encoding (t : Content) : 2 ≤ t.encoding.length := by
  rw [encoding_eq, List.length_append]
  have := two_le_length_node t.node
  omega

/-! ## All nodes, in the order of writing -/

def preorder : Content → List Content
  | leaf k => [leaf k]
  | array xs => array xs :: xs.flatMap preorder
  | struct xs => struct xs :: xs.flatMap preorder
  | map es => map es :: es.flatMap fun e => leaf e.1 :: e.2.preorder
termination_by t => sizeOf t
decreasing_by
  · exact sizeOf_lt_of_mem_children (t := array _) ‹_›
  · exact sizeOf_lt_of_mem_children (t := struct _) ‹_›
  · exact sizeOf_lt_of_mem_children (value_mem_children ‹_›)

theorem preorder_eq (t : Content) : t.preorder = t :: t.children.flatMap preorder := by
  cases t with
  | leaf k => simp [preorder, children]
  | array xs => rw [preorder]; rfl
  | struct xs => rw [preorder]; rfl
  | map es => simp [preorder, children, List.flatMap_assoc]

theorem mem_preorder_self (t : Content) : t ∈ t.preorder := by
  rw [preorder_eq]
  exact List.mem_cons_self

theorem mem_preorder_of_children {t c d : Content} (hc : c ∈ t.children) (hd : d ∈ c.preorder) :
    d ∈ t.preorder := by
  rw [preorder_eq]
  exact List.mem_cons_of_mem _ (List.mem_flatMap.mpr ⟨c, hc, hd⟩)

/-- The bytes of a content are those of its nodes. -/
theorem encoding_eq_flatMap (t : Content) :
    t.encoding = t.preorder.flatMap fun c => c.node.encoding := by
  induction t using induct with
  | step t ih =>
    rw [encoding_eq, preorder_eq, List.flatMap_cons, List.flatMap_assoc]
    exact congrArg _ (List.flatMap_congr fun c hc => ih c hc)

/-! ## Containers in a content -/

def isSequence : Content → Bool
  | array _ | struct _ => true
  | leaf _ | map _ => false

def isMap : Content → Bool
  | map _ => true
  | leaf _ | array _ | struct _ => false

/-- How many handles of arrays and structs the content takes when it is put into a heap. -/
def arraySlots (t : Content) : Nat := t.preorder.countP isSequence

def mapSlots (t : Content) : Nat := t.preorder.countP isMap

theorem countP_preorder (p : Content → Bool) (t : Content) :
    t.preorder.countP p =
      (t.children.map fun c => c.preorder.countP p).sum + if p t then 1 else 0 := by
  rw [preorder_eq, List.countP_cons, List.countP_flatMap]
  rfl

/-! ## No key twice -/

/-- The keys of a map, as often as they stand there. -/
def keys : Content → List Key
  | map es => es.map (·.1)
  | leaf _ | array _ | struct _ => []

/-- No map in the content has a key twice. -/
def DistinctKeys (t : Content) : Prop := ∀ c ∈ t.preorder, c.keys.Nodup

theorem distinctKeys_iff {t : Content} :
    t.DistinctKeys ↔ t.keys.Nodup ∧ ∀ c ∈ t.children, c.DistinctKeys := by
  unfold DistinctKeys
  rw [preorder_eq, List.forall_mem_cons, List.forall_mem_flatMap]

def merged : Content → Content
  | leaf k => leaf k
  | array xs => array (xs.map merged)
  | struct xs => struct (xs.map merged)
  | map es => map (merge (es.map fun e => (e.1, e.2.merged)))
termination_by t => sizeOf t
decreasing_by
  · exact sizeOf_lt_of_mem_children (t := array _) ‹_›
  · exact sizeOf_lt_of_mem_children (t := struct _) ‹_›
  · exact sizeOf_lt_of_mem_children (value_mem_children ‹_›)

/-- Merging leaves children out, and merges the others. -/
theorem children_merged_subperm (t : Content) :
    t.merged.children.Subperm (t.children.map merged) := by
  cases t with
  | leaf k => simp [merged, children]
  | array xs =>
    rw [merged]
    exact .refl _
  | struct xs =>
    rw [merged]
    exact .refl _
  | map es =>
    rw [merged]
    obtain ⟨l, hperm, hsub⟩ := merge_subperm (es.map fun e => (e.1, e.2.merged))
    have hall : (map es).children.map merged =
        (es.map fun e => (e.1, e.2.merged)).flatMap fun e => [leaf e.1, e.2] := by
      simp [children, List.map_flatMap, List.flatMap_map, merged]
    rw [hall]
    exact ⟨_, hperm.flatMap_right _, hsub.flatMap _⟩

theorem exists_of_mem_children_merged {t c : Content} (hc : c ∈ t.merged.children) :
    ∃ d ∈ t.children, d.merged = c :=
  List.mem_map.mp ((children_merged_subperm t).subset hc)

theorem distinctKeys_merged (t : Content) : t.merged.DistinctKeys := by
  induction t using induct with
  | step t ih =>
    rw [distinctKeys_iff]
    refine ⟨?_, ?_⟩
    · cases t with
      | leaf k => simp [merged, keys]
      | array xs => simp [merged, keys]
      | struct xs => simp [merged, keys]
      | map es =>
        rw [merged]
        exact nodup_keys_merge _
    · intro c hc
      obtain ⟨d, hd, rfl⟩ := exists_of_mem_children_merged hc
      exact ih d hd

theorem merged_of_distinctKeys {t : Content} (h : t.DistinctKeys) : t.merged = t := by
  induction t using induct with
  | step t ih =>
    obtain ⟨hkeys, hchildren⟩ := distinctKeys_iff.mp h
    have hmap : t.children.map merged = t.children := by
      refine (List.map_congr_left ?_).trans (List.map_id _)
      intro c hc
      exact ih c hc (hchildren c hc)
    cases t with
    | leaf k => rw [merged]
    | array xs =>
      rw [merged]
      exact congrArg array hmap
    | struct xs =>
      rw [merged]
      exact congrArg struct hmap
    | map es =>
      have hvalues : es.map (fun e => (e.1, e.2.merged)) = es := by
        refine (List.map_congr_left ?_).trans (List.map_id es)
        intro e he
        rw [ih e.2 (value_mem_children he) (hchildren _ (value_mem_children he))]
        rfl
      rw [merged, hvalues, merge_of_nodup hkeys]

theorem merged_eq_self_iff {t : Content} : t.merged = t ↔ t.DistinctKeys := by
  constructor
  · intro h
    exact h ▸ distinctKeys_merged t
  · exact merged_of_distinctKeys

end Content

end ScriptHost

import ScriptHost.Codec.Decode
import ScriptHost.Proofs.Grammar
import ScriptHost.Proofs.Growth

/-!
# ScriptHost.Proofs.Rebuild

Going through the nodes of a tree from the last to the first with a stack of made items makes what
recursion on the tree makes (`rebuild_nodes`), parts before wholes and the last part first. From
there on only the recursion matters: `make_eq_ok` tells what it makes, and `exists_make` when it
does.
-/

namespace ScriptHost

namespace NodeTree

open Node

/-! ## Making the item of a tree -/

mutual

def make : NodeTree → Heap → Except DecodeError Item × Heap
  | mk (.leaf k) _, heap => (.ok k.item, heap)
  | mk (.container kind _) parts, heap =>
    match makeAll parts heap with
    | (.error e, heap') => (.error e, heap')
    | (.ok xs, heap') => build kind xs heap'

/-- The last tree is made first. -/
def makeAll : List NodeTree → Heap → Except DecodeError (List Item) × Heap
  | [], heap => (.ok [], heap)
  | t :: ts, heap =>
    match makeAll ts heap with
    | (.error e, heap') => (.error e, heap')
    | (.ok xs, heap') =>
      match t.make heap' with
      | (.error e, heap'') => (.error e, heap'')
      | (.ok x, heap'') => (.ok (x :: xs), heap'')

end

theorem makeAll_cons_eq_ok_iff {t : NodeTree} {ts : List NodeTree} {heap heap' : Heap}
    {xs : List Item} :
    makeAll (t :: ts) heap = (.ok xs, heap') ↔
      ∃ y ys heap₁, makeAll ts heap = (.ok ys, heap₁) ∧ t.make heap₁ = (.ok y, heap') ∧
        xs = y :: ys := by
  rw [makeAll]
  constructor
  · intro h
    split at h
    · cases h
    · rename_i ys heap₁ hys
      split at h
      · cases h
      · rename_i y heap₂ hy
        cases h
        exact ⟨y, ys, heap₁, hys, hy, rfl⟩
  · rintro ⟨y, ys, heap₁, hys, hy, rfl⟩
    simp only [hys, hy]

theorem length_of_makeAll {ts : List NodeTree} {heap heap' : Heap} {xs : List Item}
    (h : makeAll ts heap = (.ok xs, heap')) : xs.length = ts.length := by
  induction ts generalizing xs heap' with
  | nil => cases h; rfl
  | cons t ts ih =>
    obtain ⟨y, ys, heap₁, hys, _, rfl⟩ := makeAll_cons_eq_ok_iff.mp h
    rw [List.length_cons, List.length_cons, ih hys]

/-! ## The stack of made items -/

theorem toNat_arity {node : Node} (h : node.breadth < UInt64.size) :
    node.arity.toNat = node.breadth := by
  rcases node with k | ⟨kind, count⟩
  · rfl
  · cases kind
    · rfl
    · rfl
    · simp only [breadth] at h
      rw [arity, UInt64.toNat_mul, Nat.mod_eq_of_lt]
      · exact Nat.mul_comm _ _
      · rw [Nat.mul_comm]
        exact h

theorem splitFirst?_append (xs made : List Item) :
    splitFirst? xs.length (xs ++ made) = some (xs, made) := by
  simp [splitFirst?]

theorem make_of_makeAll_error {node : Node} {parts : List NodeTree} {heap heap' : Heap}
    {e : DecodeError} (hlen : parts.length = node.breadth)
    (h : makeAll parts heap = (.error e, heap')) :
    (mk node parts).make heap = (.error e, heap') := by
  rcases node with k | ⟨kind, count⟩
  · rw [List.length_eq_zero_iff.mp hlen] at h
    cases h
  · rw [make, h]

/-- The parts of a node have been made when the node is placed. -/
theorem place_parts {node : Node} {parts : List NodeTree} {heap heap' : Heap} {xs made : List Item}
    (hlen : parts.length = node.breadth) (hsize : node.breadth < UInt64.size)
    (h : makeAll parts heap = (.ok xs, heap')) :
    node.place (xs ++ made) heap' =
      match (mk node parts).make heap with
      | (.error e, heap'') => (.error e, heap'')
      | (.ok x, heap'') => (.ok (x :: made), heap'') := by
  have hxs := length_of_makeAll h
  rcases node with k | ⟨kind, count⟩
  · rw [List.length_eq_zero_iff.mp hlen] at h
    cases h
    rfl
  · have hsplit :
        splitFirst? (container kind count).arity.toNat (xs ++ made) = some (xs, made) := by
      rw [toNat_arity hsize, ← hlen, ← hxs, splitFirst?_append]
    cases hbuild : build kind xs heap' with
    | mk r heap'' => cases r <;> simp only [place, make, h, hsplit, hbuild]

theorem placeAll_append (ts : List NodeTree) (earlier : List Node) (made : List Item)
    (heap : Heap) (hts : ∀ t ∈ ts, t.Complete) (hsize : (ts.flatMap nodes).length < UInt64.size) :
    placeAll ((ts.flatMap nodes).reverse ++ earlier) made heap =
      match makeAll ts heap with
      | (.error e, heap') => (.error e, heap')
      | (.ok xs, heap') => placeAll earlier (xs ++ made) heap' := by
  induction ts using forestInduct generalizing earlier made heap with
  | nil => rfl
  | cons node parts ts ihparts ihts =>
    cases hts _ List.mem_cons_self with
    | mk hlen hparts =>
      have hbreadth := length_le_length_nodes parts
      simp only [List.flatMap_cons, nodes, List.cons_append, List.length_cons,
        List.length_append] at hsize
      have hreverse : (((mk node parts) :: ts).flatMap nodes).reverse ++ earlier =
          (ts.flatMap nodes).reverse ++
            ((parts.flatMap nodes).reverse ++ (node :: earlier)) := by
        simp [nodes]
      rw [hreverse, ihts _ _ _ (fun t ht => hts t (List.mem_cons_of_mem _ ht)) (by omega), makeAll]
      cases makeAll ts heap with
      | mk r heap₁ =>
        cases r with
        | error e => rfl
        | ok ys =>
          simp only
          rw [ihparts _ _ _ hparts (by omega)]
          cases hmade : makeAll parts heap₁ with
          | mk r heap₂ =>
            cases r with
            | error e => rw [make_of_makeAll_error hlen hmade]
            | ok xs =>
              simp only
              rw [placeAll, place_parts hlen (by omega) hmade]
              cases (mk node parts).make heap₁ with
              | mk r heap₃ => cases r <;> rfl

theorem rebuild_nodes {t : NodeTree} (ht : t.Complete) (hsize : t.nodes.length < UInt64.size)
    (heap : Heap) : rebuild t.nodes heap = t.make heap := by
  have h := placeAll_append [t] [] [] heap (by simpa using ht) (by simpa using hsize)
  simp only [List.flatMap_singleton, List.append_nil, makeAll] at h
  unfold rebuild
  rw [h]
  cases t.make heap with
  | mk r heap' => cases r <;> rfl

end NodeTree

/-! ## Entries -/

/-- Keys and values in turn are written as the pairs of them. -/
theorem Entries.insertAll_flatMap (es : Entries) (ps : List (Key × Item)) :
    es.insertAll (ps.flatMap fun e => [e.1.item, e.2]) = .ok (es.writeAll ps) := by
  induction ps generalizing es with
  | nil => rfl
  | cons e ps ih =>
    simp only [List.flatMap_cons, List.cons_append, List.nil_append, insertAll, Key.key?_item]
    exact ih (es.insert e.1 e.2)

theorem Entries.exists_pairs {es es' : Entries} {xs : List Item} {n : Nat}
    (h : es.insertAll xs = .ok es') (hlen : xs.length = 2 * n) :
    ∃ ps : List (Key × Item), xs = ps.flatMap fun e => [e.1.item, e.2] := by
  induction n generalizing es xs with
  | zero => exact ⟨[], List.length_eq_zero_iff.mp hlen⟩
  | succ n ih =>
    obtain ⟨key, xs, rfl⟩ := List.exists_cons_of_length_eq_add_one hlen
    rw [List.length_cons, Nat.mul_succ, Nat.succ_inj] at hlen
    obtain ⟨value, xs, rfl⟩ := List.exists_cons_of_length_eq_add_one hlen
    rw [List.length_cons, Nat.succ_inj] at hlen
    rw [insertAll] at h
    split at h
    · cases h
    · rename_i k hk
      obtain ⟨ps, rfl⟩ := ih h hlen
      refine ⟨(k, value) :: ps, ?_⟩
      simp [Item.key?_eq_some_iff.mp hk]

theorem Entries.insertAll_ok {es : Entries} {xs : List Item} {n : Nat}
    (h : Entries.empty.insertAll xs = .ok es) (hlen : xs.length = 2 * n) :
    ∃ ps : List (Key × Item), xs = (ps.flatMap fun e => [e.1.item, e.2]) ∧
      es.pairs = merge ps := by
  obtain ⟨ps, rfl⟩ := exists_pairs h hlen
  rw [insertAll_flatMap] at h
  cases h
  exact ⟨ps, rfl, pairs_writeAll_empty ps⟩

namespace Heap

open Content

variable {heap : Heap}

def EntryUnfolds (heap : Heap) (e : Key × Item) (c : Key × Content) : Prop :=
  e.1 = c.1 ∧ heap.Unfolds e.2 c.2

theorem unfolds_map {h : MapRef} {es : Entries} {cs : List (Key × Content)}
    (hes : heap.entries h = .ok es) (hcs : List.Forall₂ heap.EntryUnfolds es.pairs cs) :
    heap.Unfolds (.map h) (.map cs) := by
  refine .map hes ?_ ?_
  · rw [← List.forall₂_eq_eq_eq, Entries.keys, List.forall₂_map_left_iff,
      List.forall₂_map_right_iff]
    exact hcs.imp fun _ _ h => h.1
  · rw [Entries.values, List.forall₂_map_left_iff, List.forall₂_map_right_iff]
    exact hcs.imp fun _ _ h => h.2

/-- Keys are merged into themselves, and containers are no keys. -/
theorem eq_leaf_of_key? {x : Item} {t : Content} {k : Key} (hx : heap.Unfolds x t.merged)
    (hk : x.key? = some k) : t = .leaf k := by
  cases t <;> rw [merged] at hx <;> cases hx
  · rename_i hk'
    rw [hk] at hk'
    cases hk'
    rfl
  all_goals cases hk

/-- Pairs of a key and a value come from the entries of one content. -/
theorem exists_entries {ps : List (Key × Item)} {ts : List Content}
    (h : List.Forall₂ heap.Unfolds (ps.flatMap fun e => [e.1.item, e.2]) (ts.map merged)) :
    ∃ ds : List (Key × Content), (map ds).children = ts ∧
      List.Forall₂ heap.EntryUnfolds ps (ds.map fun e => (e.1, e.2.merged)) := by
  induction ps generalizing ts with
  | nil =>
    cases ts with
    | nil => exact ⟨[], rfl, .nil⟩
    | cons t ts => cases h
  | cons e ps ih =>
    cases ts with
    | nil => cases h
    | cons t₁ ts =>
      cases h with
      | cons hk h =>
        cases ts with
        | nil => cases h
        | cons t₂ ts =>
          cases h with
          | cons hv h =>
            obtain rfl := eq_leaf_of_key? hk e.1.key?_item
            obtain ⟨ds, rfl, hentries⟩ := ih h
            exact ⟨(e.1, t₂) :: ds, rfl, .cons ⟨rfl, hv⟩ hentries⟩

theorem keys_of_entries {ps : List (Key × Item)} {ds : List (Key × Content)}
    (h : List.Forall₂ heap.EntryUnfolds ps (ds.map fun e => (e.1, e.2.merged))) :
    ps.map (·.1) = ds.map (·.1) := by
  rw [← List.forall₂_eq_eq_eq, List.forall₂_map_left_iff, List.forall₂_map_right_iff]
  rw [List.forall₂_map_right_iff] at h
  exact h.imp fun _ _ h => h.1

/-- What stands for the children of a map is a key and a value in turn. -/
theorem exists_pairs_of_children {xs : List Item} {ds : List (Key × Content)}
    (hxs : List.Forall₂ heap.Unfolds xs ((map ds).children.map merged)) :
    ∃ ps : List (Key × Item), xs = (ps.flatMap fun e => [e.1.item, e.2]) ∧
      List.Forall₂ heap.EntryUnfolds ps (ds.map fun e => (e.1, e.2.merged)) := by
  induction ds generalizing xs with
  | nil =>
    cases hxs
    exact ⟨[], rfl, .nil⟩
  | cons d ds ih =>
    cases hxs with
    | cons hx₁ hxs =>
      cases hxs with
      | cons hx₂ hxs =>
        rw [merged] at hx₁
        cases hx₁ with
        | leaf hk =>
          obtain ⟨ps, rfl, hentries⟩ := ih hxs
          refine ⟨(d.1, _) :: ps, ?_, .cons ⟨rfl, hx₂⟩ hentries⟩
          rw [Item.key?_eq_some_iff.mp hk, List.flatMap_cons, List.cons_append, List.cons_append,
            List.nil_append]

/-! ## One container -/

/-- The container that is made stands for a content whose children are those of its parts. -/
theorem build_ok {kind : ContainerKind} {count : UInt64} {xs : List Item} {ts : List Content}
    {x : Item} {heap' : Heap} (hok : Node.build kind xs heap = (.ok x, heap'))
    (hxs : List.Forall₂ heap.Unfolds xs (ts.map merged))
    (hlen : ts.length = (Node.container kind count).breadth) :
    ∃ t : Content, t.node = .container kind count ∧ t.children = ts ∧
      heap'.Unfolds x t.merged ∧
      heap.Grows heap' (if t.isSequence then 1 else 0) (if t.isMap then 1 else 0) := by
  have hbuilt := Node.built kind xs heap
  rw [hok] at hbuilt
  cases hbuilt with
  | array ha =>
    have hgrows := grows_add_items ha xs
    refine ⟨.array ts, ?_, rfl, ?_, hgrows⟩
    · rw [node, hlen, Node.breadth, UInt64.ofNat_toNat]
    · rw [merged]
      exact .array (items_add ha xs) (hxs.imp fun _ _ hu => hu.extend hgrows.keeps)
  | struct ha =>
    have hgrows := grows_add_items ha xs
    refine ⟨.struct ts, ?_, rfl, ?_, hgrows⟩
    · rw [node, hlen, Node.breadth, UInt64.ofNat_toNat]
    · rw [merged]
      exact .struct (items_add ha xs) (hxs.imp fun _ _ hu => hu.extend hgrows.keeps)
  | @map _ es hes hm =>
    have hgrows := grows_add_entries hm es
    have hcount : xs.length = 2 * count.toNat := by
      rw [hxs.length_eq, List.length_map]
      exact hlen
    obtain ⟨ps, rfl, hmerge⟩ := Entries.insertAll_ok hes hcount
    obtain ⟨ds, rfl, hentries⟩ := exists_entries hxs
    have hall : List.Forall₂ heap.EntryUnfolds es.pairs
        (merge (ds.map fun e => (e.1, e.2.merged))) := hmerge ▸ forall₂_merge hentries
    refine ⟨.map ds, ?_, rfl, ?_, hgrows⟩
    · rw [length_children_map, Node.breadth] at hlen
      rw [node, show ds.length = count.toNat by omega, UInt64.ofNat_toNat]
    · rw [merged]
      exact unfolds_map (entries_add hm es)
        (hall.imp fun _ _ hu => ⟨hu.1, hu.2.extend hgrows.keeps⟩)

/-- The parts of a content can be put into a container, or the handles have run out. -/
theorem build_children {t : Content} {kind : ContainerKind} {count : UInt64} {xs : List Item}
    (ht : t.node = .container kind count)
    (hxs : List.Forall₂ heap.Unfolds xs (t.children.map merged)) :
    (∃ x heap', Node.build kind xs heap = (.ok x, heap')) ∨
      (Node.build kind xs heap = (.error (.heap .handlesExhausted), heap) ∧
        ¬heap.RoomFor (if t.isSequence then 1 else 0) (if t.isMap then 1 else 0)) := by
  have hbuilt := Node.built kind xs heap
  generalize Node.build kind xs heap = r at hbuilt ⊢
  cases hbuilt with
  | array _ => exact .inl ⟨_, _, rfl⟩
  | struct _ => exact .inl ⟨_, _, rfl⟩
  | map _ _ => exact .inl ⟨_, _, rfl⟩
  | badKey hbad =>
    cases t with
    | map ds =>
      obtain ⟨ps, rfl, _⟩ := exists_pairs_of_children hxs
      rw [Entries.insertAll_flatMap] at hbad
      cases hbad
    | _ => cases ht
  | noItems hkind hfull =>
    refine .inr ⟨rfl, ?_⟩
    cases t with
    | leaf k => cases ht
    | array _ => exact hfull
    | struct _ => exact hfull
    | map _ =>
      cases ht
      exact absurd rfl hkind
  | noEntries hfull =>
    refine .inr ⟨rfl, ?_⟩
    cases t with
    | map ds => exact hfull
    | _ => cases ht

end Heap

/-! ## Whole trees -/

namespace NodeTree

open Content

/-- The items stand for the contents, which have taken one handle for each container. -/
structure Made (heap heap' : Heap) (xs : List Item) (ts : List Content) : Prop where
  unfolds : List.Forall₂ heap'.Unfolds xs (ts.map merged)
  grows : heap.Grows heap' (ts.map arraySlots).sum (ts.map mapSlots).sum

variable {heap heap' : Heap}

theorem Made.cons {heap₁ : Heap} {x : Item} {xs : List Item} {t : Content} {ts : List Content}
    (h : Made heap heap₁ xs ts) (hx : heap'.Unfolds x t.merged)
    (hgrows : heap₁.Grows heap' t.arraySlots t.mapSlots) :
    Made heap heap' (x :: xs) (t :: ts) where
  unfolds := .cons hx (h.unfolds.imp fun _ _ hu => hu.extend hgrows.keeps)
  grows := by
    rw [List.map_cons, List.map_cons, List.sum_cons, List.sum_cons, Nat.add_comm,
      Nat.add_comm t.mapSlots]
    exact h.grows.trans hgrows

theorem makeAll_ok {trees : List NodeTree} {xs : List Item} (htrees : ∀ t ∈ trees, t.Complete)
    (h : makeAll trees heap = (.ok xs, heap')) :
    ∃ ts : List Content, ts.map outline = trees ∧ Made heap heap' xs ts := by
  induction trees using forestInduct generalizing heap heap' xs with
  | nil =>
    cases h
    exact ⟨[], rfl, .nil, Heap.Grows.refl heap⟩
  | cons node parts trees ihparts ihtrees =>
    obtain ⟨y, ys, heap₁, hys, hy, rfl⟩ := makeAll_cons_eq_ok_iff.mp h
    obtain ⟨ts, rfl, hmade⟩ := ihtrees (fun t ht => htrees t (List.mem_cons_of_mem _ ht)) hys
    cases htrees _ List.mem_cons_self with
    | mk hlen hparts =>
      rcases node with k | ⟨kind, count⟩
      · cases hy
        rw [List.length_eq_zero_iff.mp hlen]
        refine ⟨.leaf k :: ts, by simp [outline], hmade.cons ?_ ?_⟩
        · rw [merged]
          exact .leaf k.key?_item
        · simpa [arraySlots, mapSlots, preorder, isSequence, isMap] using Heap.Grows.refl _
      · rw [make] at hy
        split at hy
        · cases hy
        · rename_i zs heap₂ hzs
          obtain ⟨cs, rfl, hchildren⟩ := ihparts hparts hzs
          rw [List.length_map] at hlen
          obtain ⟨t, hnode, rfl, hunfolds, hgrows⟩ := Heap.build_ok hy hchildren.unfolds hlen
          refine ⟨t :: ts, by rw [List.map_cons, outline_eq, hnode], hmade.cons hunfolds ?_⟩
          rw [arraySlots, mapSlots, countP_preorder, countP_preorder]
          exact hchildren.grows.trans hgrows

theorem makeAll_outline_ok {ts : List Content} {xs : List Item}
    (hts : ∀ t ∈ ts, t.outline.Complete)
    (h : makeAll (ts.map outline) heap = (.ok xs, heap')) : Made heap heap' xs ts := by
  obtain ⟨us, hus, hmade⟩ := makeAll_ok (by simpa using hts) h
  rwa [(List.map_inj_right fun _ _ => eq_of_outline_eq).mp hus] at hmade

theorem exists_makeAll {ts : List Content} (hts : ∀ t ∈ ts, t.outline.Complete)
    (ih : ∀ t ∈ ts, ∀ heap : Heap, heap.RoomFor t.arraySlots t.mapSlots →
      ∃ x heap', t.outline.make heap = (.ok x, heap'))
    (hroom : heap.RoomFor (ts.map arraySlots).sum (ts.map mapSlots).sum) :
    ∃ xs heap', makeAll (ts.map outline) heap = (.ok xs, heap') := by
  induction ts with
  | nil => exact ⟨[], heap, rfl⟩
  | cons t ts ihts =>
    have hts' : ∀ u ∈ ts, u.outline.Complete := fun u hu => hts u (List.mem_cons_of_mem _ hu)
    rw [List.map_cons, List.map_cons, List.sum_cons, List.sum_cons, Nat.add_comm,
      Nat.add_comm t.mapSlots] at hroom
    obtain ⟨ys, heap₁, hys⟩ := ihts hts' (fun u hu => ih u (List.mem_cons_of_mem _ hu))
      (hroom.mono (Nat.le_add_right _ _) (Nat.le_add_right _ _))
    have hmade := makeAll_outline_ok hts' hys
    obtain ⟨y, heap₂, hy⟩ := ih t List.mem_cons_self heap₁ (hmade.grows.room_iff.mp hroom)
    exact ⟨y :: ys, heap₂, makeAll_cons_eq_ok_iff.mpr ⟨y, ys, heap₁, hys, hy, rfl⟩⟩

/-- The tree of a content can be made as long as there are handles. -/
theorem exists_make {t : Content} (ht : t.outline.Complete)
    (hroom : heap.RoomFor t.arraySlots t.mapSlots) :
    ∃ x heap', t.outline.make heap = (.ok x, heap') := by
  induction t using Content.induct generalizing heap with
  | step t ih =>
    rw [outline_eq] at ht ⊢
    cases ht with
    | mk hlen hparts =>
      have hchildren : ∀ c ∈ t.children, c.outline.Complete := by simpa using hparts
      cases hnode : t.node with
      | leaf k => exact ⟨k.item, heap, rfl⟩
      | container kind count =>
        rw [arraySlots, mapSlots, countP_preorder, countP_preorder] at hroom
        obtain ⟨xs, heap₁, hxs⟩ := exists_makeAll hchildren
          (fun c hc heap hroom => ih c hc (hchildren c hc) hroom)
          (hroom.mono (Nat.le_add_right _ _) (Nat.le_add_right _ _))
        have hmade := makeAll_outline_ok hchildren hxs
        rcases Heap.build_children hnode hmade.unfolds with ⟨x, heap₂, hx⟩ | ⟨_, hfull⟩
        · exact ⟨x, heap₂, by rw [make, hxs]; exact hx⟩
        · exact absurd (hmade.grows.room_iff.mp hroom) hfull

/-- Nothing but a lack of handles keeps the trees of contents from being made. -/
theorem makeAll_error {trees : List NodeTree} {ts : List Content} {e : DecodeError}
    (htrees : trees = ts.map outline) (hcomplete : ∀ t ∈ trees, t.Complete)
    (h : makeAll trees heap = (.error e, heap')) : e = .heap .handlesExhausted := by
  induction trees using forestInduct generalizing heap heap' ts with
  | nil => cases h
  | cons node parts trees ihparts ihtrees =>
    obtain ⟨t, ts, rfl, ht, rfl⟩ := List.map_eq_cons_iff.mp htrees.symm
    rw [outline_eq, NodeTree.mk.injEq] at ht
    obtain ⟨hnode, rfl⟩ := ht
    rw [makeAll] at h
    split at h
    · rename_i hrest
      cases h
      exact ihtrees rfl (fun t ht => hcomplete t (List.mem_cons_of_mem _ ht)) hrest
    · split at h
      · rename_i hmake
        cases h
        cases hcomplete _ List.mem_cons_self with
        | mk _ hparts =>
          rcases node with k | ⟨kind, count⟩
          · cases hmake
          · rw [make] at hmake
            split at hmake
            · rename_i hchildren
              cases hmake
              exact ihparts rfl hparts hchildren
            · rename_i hchildren
              have hmade := makeAll_outline_ok (by simpa using hparts) hchildren
              rcases Heap.build_children hnode hmade.unfolds with ⟨x, _, hx⟩ | ⟨hfull, _⟩
              · rw [hx] at hmake
                cases hmake
              · rw [hfull] at hmake
                cases hmake
                rfl
      · cases h

theorem make_error {t : Content} {e : DecodeError} (ht : t.outline.Complete)
    (h : t.outline.make heap = (.error e, heap')) : e = .heap .handlesExhausted := by
  have hall : makeAll ([t].map outline) heap = (.error e, heap') := by simp [makeAll, h]
  exact makeAll_error rfl (by simpa using ht) hall

/-- Only the trees of contents can be made, and the item stands for the content with each key of
a map kept once. -/
theorem make_eq_ok {tree : NodeTree} {x : Item} (htree : tree.Complete)
    (h : tree.make heap = (.ok x, heap')) :
    ∃ t : Content, t.outline = tree ∧ heap'.Unfolds x t.merged ∧
      heap.Grows heap' t.arraySlots t.mapSlots := by
  have hall : makeAll [tree] heap = (.ok [x], heap') :=
    makeAll_cons_eq_ok_iff.mpr ⟨x, [], heap, rfl, h, rfl⟩
  obtain ⟨ts, hts, hmade⟩ := makeAll_ok (by simpa using htree) hall
  obtain ⟨t, rfl, rfl⟩ := List.map_eq_singleton_iff.mp hts
  cases hmade.unfolds with
  | cons hx _ => exact ⟨t, rfl, hx, by simpa using hmade.grows⟩

end NodeTree

end ScriptHost

import ScriptHost.Proofs.Rebuild
import ScriptHost.Proofs.Relocation

/-!
# ScriptHost.Proofs.KeyFaults

What making the items of trees comes to when a map may have containers among its keys. Maps are
made from the last to the first, so of all maps with such a key it is the last one that is met
first (`lastBadKey?`); the keys of one map are looked at in order (`badKey?`). `makeAll_outcome`
says when trees are made, and which error comes of it otherwise: the word for the key, or that the
handles have run out.
-/

namespace ScriptHost

/-- The word for containers of this kind in messages. -/
def ContainerKind.name : ContainerKind → String
  | array => "Array"
  | struct => "Struct"
  | map => "Map"

namespace NodeTree

def root : NodeTree → Node
  | mk node _ => node

/-- The tree and all trees in it, in the order in which their first nodes are written. -/
def subtrees : NodeTree → List NodeTree
  | mk node parts => mk node parts :: parts.flatMap subtrees

/-- Every other tree, from the first on. -/
def keys : List NodeTree → List NodeTree
  | key :: _ :: rest => key :: keys rest
  | [_] | [] => []

/-- The kind of a container; leaves have none. -/
def kind? : NodeTree → Option ContainerKind
  | mk (.container kind _) _ => some kind
  | mk (.leaf _) _ => none

/-- The first container among the keys of a map. -/
def badKey? : NodeTree → Option ContainerKind
  | mk (.container .map _) parts => (keys parts).findSome? kind?
  | mk (.container .array _) _ | mk (.container .struct _) _ | mk (.leaf _) _ => none

/-- The bad key of the last map that has one. -/
def lastBadKey? (ts : List NodeTree) : Option ContainerKind :=
  (ts.flatMap subtrees).reverse.findSome? badKey?

theorem map_root_subtrees (ts : List NodeTree) :
    (ts.flatMap subtrees).map root = ts.flatMap nodes := by
  induction ts using forestInduct with
  | nil => rfl
  | cons node parts ts ihparts ihts => simp [subtrees, nodes, root, ihparts, ihts]

@[simp] theorem lastBadKey?_nil : lastBadKey? [] = none := rfl

theorem lastBadKey?_cons (node : Node) (parts ts : List NodeTree) :
    lastBadKey? (mk node parts :: ts) =
      ((lastBadKey? ts).or (lastBadKey? parts)).or (badKey? (mk node parts)) := by
  simp only [lastBadKey?, List.flatMap_cons, subtrees, List.cons_append, List.reverse_cons,
    List.reverse_append, List.findSome?_append, List.findSome?_singleton]

/-! ## The items of the trees -/

/-- The item is what the root of the tree says: this leaf, or a container of this kind. -/
def Fits (x : Item) : NodeTree → Prop
  | mk (.leaf k) _ => x = k.item
  | mk (.container kind _) _ => x.key? = none ∧ x.kindName = kind.name

theorem Fits.of_kind? {x : Item} {t : NodeTree} {kind : ContainerKind} (h : Fits x t)
    (hkind : t.kind? = some kind) : x.key? = none ∧ x.kindName = kind.name := by
  obtain ⟨node, parts⟩ := t
  cases node with
  | leaf k => cases hkind
  | container =>
    cases hkind
    exact h

theorem Fits.of_leaf {x : Item} {t : NodeTree} (h : Fits x t) (hkind : t.kind? = none) :
    ∃ k, x.key? = some k := by
  obtain ⟨node, parts⟩ := t
  cases node with
  | leaf k => exact ⟨k, by rw [show x = k.item from h, Key.key?_item]⟩
  | container => cases hkind

/-- Keys and values in turn are inserted up to the first key that is a container. -/
theorem insertAll_outcome {xs : List Item} {ts : List NodeTree} (hfits : List.Forall₂ Fits xs ts)
    (es : Entries) :
    match (keys ts).findSome? kind? with
    | none => ∃ es', es.insertAll xs = .ok es'
    | some kind => es.insertAll xs = .error (.invalidMapKey kind.name) := by
  fun_induction keys ts generalizing es xs with
  | case1 key value rest ih =>
    obtain _ | ⟨hkey, _ | ⟨_, hrest⟩⟩ := hfits
    rw [List.findSome?_cons, Entries.insertAll]
    cases hkind : key.kind? with
    | some kind =>
      obtain ⟨hnone, hname⟩ := hkey.of_kind? hkind
      simp only [hnone, hname]
    | none =>
      obtain ⟨k, hk⟩ := hkey.of_leaf hkind
      simp only [hk]
      exact ih hrest _
  | case2 t =>
    obtain _ | ⟨_, _ | _⟩ := hfits
    exact ⟨es, rfl⟩
  | case3 =>
    cases hfits
    exact ⟨es, rfl⟩

/-! ## Making the trees -/

/-- What comes of making something that meets the bad key `bad`, if any, and that takes `a` handles
of arrays and structs and `m` of maps. -/
inductive Outcome {α : Type} (R : α → Prop) (bad : Option ContainerKind) (a m : Nat) (heap : Heap) :
    Except DecodeError α × Heap → Prop
  | made {x : α} {heap' : Heap} : bad = none → R x → heap.Grows heap' a m →
      Outcome R bad a m heap (.ok x, heap')
  | badKey {kind : ContainerKind} {heap' : Heap} : bad = some kind →
      Outcome R bad a m heap (.error (.format (.invalidMapKey kind.name)), heap')
  | full {heap' : Heap} : ¬heap.RoomFor a m →
      Outcome R bad a m heap (.error (.heap .handlesExhausted), heap')

section

variable {α β : Type} {R : α → Prop} {S : β → Prop} {bad bad' : Option ContainerKind}
  {a a' m m' : Nat} {heap : Heap}

/-- What is made first meets its bad key first, and a failure is passed on. -/
theorem Outcome.andThen {r : Except DecodeError α × Heap} {r' : Except DecodeError β × Heap}
    (h : Outcome R bad a m heap r)
    (herror : ∀ e heap', r = (.error e, heap') → r' = (.error e, heap'))
    (hok : ∀ x heap', r = (.ok x, heap') → R x → Outcome S bad' a' m' heap' r') :
    Outcome S (bad.or bad') (a + a') (m + m') heap r' := by
  cases h with
  | @made x heap₁ hnone hx hgrows =>
    subst hnone
    rw [Option.none_or]
    cases hok x heap₁ rfl hx with
    | made hnone' hy hgrows' => exact .made hnone' hy (hgrows.trans hgrows')
    | badKey hsome => exact .badKey hsome
    | full hfull => exact .full fun hroom => hfull (hgrows.room_iff.mp hroom)
  | badKey hsome =>
    rw [herror _ _ rfl]
    exact .badKey (by rw [hsome, Option.some_or])
  | full hfull =>
    rw [herror _ _ rfl]
    exact .full fun hroom => hfull (hroom.mono (Nat.le_add_right _ _) (Nat.le_add_right _ _))

/-- If there is room, it is the bad key that decides. -/
theorem Outcome.badKey_iff {r : Except DecodeError α × Heap} (h : Outcome R bad a m heap r)
    (hroom : heap.RoomFor a m) {kind : String} :
    r.1 = .error (.format (.invalidMapKey kind)) ↔ ∃ key, bad = some key ∧ kind = key.name := by
  cases h with
  | made hnone => simp [hnone]
  | badKey hsome => simp [hsome, eq_comm]
  | full hfull => exact absurd hroom hfull

end

theorem build_outcome {kind : ContainerKind} (count : UInt64) {parts : List NodeTree}
    {xs : List Item} (hfits : List.Forall₂ Fits xs parts) (heap : Heap) :
    Outcome (Fits · (mk (.container kind count) parts))
      (badKey? (mk (.container kind count) parts))
      (if (Node.container kind count).isSequence then 1 else 0)
      (if (Node.container kind count).isMap then 1 else 0) heap (Node.build kind xs heap) := by
  have hbuilt := Node.built kind xs heap
  generalize Node.build kind xs heap = r at hbuilt ⊢
  cases hbuilt with
  | array ha => exact .made rfl ⟨rfl, rfl⟩ (Heap.grows_add_items ha xs)
  | struct ha => exact .made rfl ⟨rfl, rfl⟩ (Heap.grows_add_items ha xs)
  | @map _ es hes hm =>
    have hinsert := insertAll_outcome hfits .empty
    refine .made ?_ ⟨rfl, rfl⟩ (Heap.grows_add_entries hm es)
    rw [badKey?]
    split at hinsert
    · assumption
    · rw [hes] at hinsert
      cases hinsert
  | badKey hbad =>
    have hinsert := insertAll_outcome hfits .empty
    split at hinsert
    · obtain ⟨es, hes⟩ := hinsert
      rw [hbad] at hes
      cases hes
    · rename_i key hkey
      rw [hbad] at hinsert
      cases hinsert
      exact .badKey hkey
  | noItems hkind hfull =>
    refine .full fun hroom => hfull ?_
    cases kind with
    | array => exact hroom
    | struct => exact hroom
    | map => exact absurd rfl hkind
  | noEntries hfull => exact .full hfull

/-- The parts are made first, and the container of them last. -/
theorem make_outcome_of_parts {node : Node} {parts : List NodeTree}
    (hlen : parts.length = node.breadth) {heap : Heap}
    (hparts : Outcome (List.Forall₂ Fits · parts) (lastBadKey? parts)
      ((parts.flatMap nodes).countP Node.isSequence) ((parts.flatMap nodes).countP Node.isMap) heap
      (makeAll parts heap)) :
    Outcome (Fits · (mk node parts)) ((lastBadKey? parts).or (badKey? (mk node parts)))
      ((parts.flatMap nodes).countP Node.isSequence + if node.isSequence then 1 else 0)
      ((parts.flatMap nodes).countP Node.isMap + if node.isMap then 1 else 0) heap
      ((mk node parts).make heap) := by
  cases node with
  | leaf k =>
    rw [List.length_eq_zero_iff.mp hlen, make]
    exact .made rfl rfl (.refl heap)
  | container kind count =>
    refine hparts.andThen (fun e heap' h => ?_) fun xs heap' h hfits => ?_
    · rw [make, h]
    · rw [make, h]
      exact build_outcome count hfits heap'

theorem makeAll_outcome (ts : List NodeTree) (heap : Heap) (hts : ∀ t ∈ ts, t.Complete) :
    Outcome (List.Forall₂ Fits · ts) (lastBadKey? ts) ((ts.flatMap nodes).countP Node.isSequence)
      ((ts.flatMap nodes).countP Node.isMap) heap (makeAll ts heap) := by
  induction ts using forestInduct generalizing heap with
  | nil => exact .made rfl .nil (.refl heap)
  | cons node parts ts ihparts ihts =>
    cases hts _ List.mem_cons_self with
    | mk hlen hparts =>
      have hcount (p : Node → Bool) : ((mk node parts :: ts).flatMap nodes).countP p =
          (ts.flatMap nodes).countP p +
            ((parts.flatMap nodes).countP p + if p node then 1 else 0) := by
        rw [List.flatMap_cons, nodes, List.cons_append, List.countP_cons, List.countP_append]
        omega
      have hrest : ∀ t ∈ ts, t.Complete := fun t ht => hts t (List.mem_cons_of_mem _ ht)
      rw [lastBadKey?_cons, Option.or_assoc, hcount, hcount]
      refine (ihts heap hrest).andThen (fun e heap' h => ?_) fun xs heap₁ hxs hfits => ?_
      · rw [makeAll, h]
      · have hmake := make_outcome_of_parts hlen (ihparts heap₁ hparts)
        -- nothing more can fail once the first tree is made
        rw [makeAll, hxs, ← Option.or_none (o := (lastBadKey? parts).or _)]
        change Outcome _ _ (_ + 0) (_ + 0) _ _
        refine hmake.andThen (fun e heap' h => ?_) fun x heap₂ hx hfit => ?_
        · simp only [h]
        · simp only [hx]
          exact .made rfl (.cons hfit hfits) (.refl heap₂)

theorem make_outcome {t : NodeTree} (ht : t.Complete) (heap : Heap) :
    Outcome (Fits · t) (lastBadKey? [t]) (t.nodes.countP Node.isSequence)
      (t.nodes.countP Node.isMap) heap (t.make heap) := by
  cases ht with
  | @mk node parts hlen hparts =>
    have hmake := make_outcome_of_parts hlen (makeAll_outcome parts heap hparts)
    rwa [lastBadKey?_cons, lastBadKey?_nil, Option.none_or, nodes, List.countP_cons,
      List.countP_cons]

end NodeTree

end ScriptHost

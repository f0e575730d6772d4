import Mathlib.Algebra.Order.BigOperators.Group.List
import Mathlib.Algebra.Order.Group.Nat
import ScriptHost.Proofs.Decoding
import ScriptHost.Proofs.Separation

/-!
# ScriptHost.Proofs.FreshTree

The containers that decoding adds, as a graph. Each is made out of items on the stack of made
items, which thereby leave it, so nothing is ever in two containers. The invariant is a count of
references, among the items on the stack and in what the new containers hold: none to a place
outside of the new containers, and at most one to each of them (`Planted`). It is exactly one as
long as no map drops a value for a later one under the same key. A graph of which this is true and
in which every container unfolds is a tree (`FreshTree`), or a tree and some more that were dropped.
-/

namespace ScriptHost

open NodeTree Content

/-! ## References -/

/-- How many of the items refer to the container at this place. -/
def mentions (s : ArrayRef ⊕ MapRef) (xs : List Item) : Nat :=
  xs.countP fun x => x.slot? = some s

section Mentions

variable {s : ArrayRef ⊕ MapRef} {xs ys : List Item} {x : Item}

@[simp] theorem mentions_nil : mentions s [] = 0 := rfl

@[simp] theorem mentions_cons :
    mentions s (x :: xs) = mentions s xs + if x.slot? = some s then 1 else 0 := by
  simp [mentions, List.countP_cons]

@[simp] theorem mentions_append : mentions s (xs ++ ys) = mentions s xs + mentions s ys :=
  List.countP_append

theorem mentions_pos_iff : 0 < mentions s xs ↔ ∃ x ∈ xs, x.slot? = some s := by
  simp [mentions, List.countP_pos_iff]

end Mentions

/-! ## Containers made of items -/

/-- The items have been made for the contents, along with the containers behind those of `heap`.
All that is referred to is new, nothing is referred to twice, and every new container is
referred to if no map has dropped a value. -/
structure Planted (heap heap' : Heap) (xs : List Item) (ts : List Content)
    (arrays : List (List Item)) (maps : List Entries) : Prop where
  eq_add : heap' = heap.add arrays maps
  once : ∀ s, mentions s (references xs arrays maps) ≤ 1
  added : ∀ s, 0 < mentions s (references xs arrays maps) → heap.Added heap' s
  all : (∀ t ∈ ts, t.DistinctKeys) → ∀ s, heap.Added heap' s →
    0 < mentions s (references xs arrays maps)
  unfolds : ∀ x s, x.slot? = some s → heap.Added heap' s → ∃ t, heap'.Unfolds x t

section Planted

variable {heap heap₁ heap₂ : Heap} {xs : List Item} {x : Item} {ts : List Content} {t u : Content}
  {arrays arrays' : List (List Item)} {maps maps' : List Entries}

/-- Items that refer to nothing need no container. -/
theorem Planted.of_mentions_eq_zero (heap : Heap) (ts : List Content)
    (h : ∀ s, mentions s xs = 0) : Planted heap heap xs ts [] [] where
  eq_add := by simp
  once := by simp [references, h]
  added := by simp [references, h]
  all := by
    intro _ s hs
    exact absurd hs.1 hs.2
  unfolds := by
    intro x s _ hs
    exact absurd hs.1 hs.2

/-- Items that were made one after the other refer to different containers. -/
theorem Planted.cons (hxs : Planted heap heap₁ xs ts arrays maps)
    (hx : Planted heap₁ heap₂ [x] [t] arrays' maps') :
    Planted heap heap₂ (x :: xs) (t :: ts) (arrays ++ arrays') (maps ++ maps') := by
  have hsplit (s : ArrayRef ⊕ MapRef) :
      mentions s (references (x :: xs) (arrays ++ arrays') (maps ++ maps')) =
        mentions s (references xs arrays maps) + mentions s (references [x] arrays' maps') := by
    simp only [references, mentions_append, mentions_cons, mentions_nil, List.flatten_append,
      List.flatMap_append]
    omega
  have hkeeps (s : ArrayRef ⊕ MapRef) (h : heap.Has s) : heap₁.Has s := hxs.eq_add ▸ h.add _ _
  have hkeeps' (s : ArrayRef ⊕ MapRef) (h : heap₁.Has s) : heap₂.Has s := hx.eq_add ▸ h.add _ _
  refine { eq_add := ?eq_add, once := ?once, added := ?added, all := ?all, unfolds := ?unfolds }
  case eq_add =>
    rw [hx.eq_add, hxs.eq_add, Heap.add_add]
  case once =>
    intro s
    rw [hsplit]
    have h₁ := hxs.once s
    have h₂ := hx.once s
    rcases Nat.eq_zero_or_pos (mentions s (references xs arrays maps)) with hzero | hpos
    · omega
    · have hzero : ¬0 < mentions s (references [x] arrays' maps') := by
        intro hpos'
        exact (hx.added s hpos').2 (hxs.added s hpos).1
      omega
  case added =>
    intro s hpos
    rw [hsplit] at hpos
    rcases Nat.eq_zero_or_pos (mentions s (references xs arrays maps)) with hzero | hold
    · have hnew := hx.added s (by omega)
      exact ⟨hnew.1, fun h => hnew.2 (hkeeps s h)⟩
    · have hnew := hxs.added s hold
      exact ⟨hkeeps' s hnew.1, hnew.2⟩
  case all =>
    intro hdistinct s hs
    rw [List.forall_mem_cons] at hdistinct
    rw [hsplit]
    by_cases h : heap₁.Has s
    · have := hxs.all hdistinct.2 s ⟨h, hs.2⟩
      omega
    · have := hx.all (by simpa using hdistinct.1) s ⟨hs.1, h⟩
      omega
  case unfolds =>
    intro y s hy hs
    by_cases h : heap₁.Has s
    · obtain ⟨u, hu⟩ := hxs.unfolds y s hy ⟨h, hs.2⟩
      exact ⟨u, hu.extend (hx.eq_add ▸ Heap.extends_add heap₁ arrays' maps')⟩
    · exact hx.unfolds y s hy ⟨hs.1, h⟩

/-- A container takes the place of the items that it is made of: their references are now inside
it, or some of them, and one to the new container is there. -/
theorem Planted.hold {s₀ : ArrayRef ⊕ MapRef}
    (hxs : Planted heap heap₁ xs t.children arrays maps) (hslot : x.slot? = some s₀)
    (hadd : heap₂ = heap.add arrays' maps') (hext : heap₁.Extends heap₂)
    (hhas : ∀ s, heap₂.Has s ↔ heap₁.Has s ∨ s = s₀) (hfree : ¬heap₁.Has s₀)
    (hle : ∀ s, mentions s (references [x] arrays' maps') ≤
      mentions s (references xs arrays maps) + if s₀ = s then 1 else 0)
    (hge : t.DistinctKeys → ∀ s, mentions s (references xs arrays maps) +
      (if s₀ = s then 1 else 0) ≤ mentions s (references [x] arrays' maps'))
    (hx : heap₂.Unfolds x u) : Planted heap heap₂ [x] [t] arrays' maps' := by
  have hkeeps (s : ArrayRef ⊕ MapRef) (h : heap.Has s) : heap₁.Has s := hxs.eq_add ▸ h.add _ _
  refine { eq_add := hadd, once := ?once, added := ?added, all := ?all, unfolds := ?unfolds }
  case once =>
    intro s
    have hs := hle s
    split at hs
    · rename_i heq
      have hzero : ¬0 < mentions s (references xs arrays maps) := by
        intro hpos
        exact hfree (heq ▸ (hxs.added s hpos).1)
      omega
    · have := hxs.once s
      omega
  case added =>
    intro s hpos
    have hs := hle s
    split at hs
    · rename_i heq
      exact ⟨(hhas s).mpr (.inr heq.symm), fun h => hfree (heq ▸ hkeeps s h)⟩
    · have hold := hxs.added s (by omega)
      exact ⟨(hhas s).mpr (.inl hold.1), hold.2⟩
  case all =>
    intro hdistinct s hs
    have hkeys : t.DistinctKeys := by simpa using hdistinct
    have hmore := hge hkeys s
    rcases (hhas s).mp hs.1 with hold | rfl
    · have := hxs.all (distinctKeys_iff.mp hkeys).2 s ⟨hold, hs.2⟩
      omega
    · rw [if_pos rfl] at hmore
      omega
  case unfolds =>
    intro y s hy hs
    rcases (hhas s).mp hs.1 with hold | rfl
    · obtain ⟨v, hv⟩ := hxs.unfolds y s hy ⟨hold, hs.2⟩
      exact ⟨v, hv.extend hext⟩
    · obtain ⟨v, hv, _⟩ := hx.congr hslot hy
      exact ⟨v, hv⟩

end Planted

/-! ## Whole trees -/

/-- The keys among the items refer to nothing. -/
theorem mentions_pairs (s : ArrayRef ⊕ MapRef) (ps : List (Key × Item)) :
    mentions s (ps.flatMap fun e => [e.1.item, e.2]) = mentions s (ps.map (·.2)) := by
  induction ps with
  | nil => rfl
  | cons e ps ih => simp [ih, slot?_of_key? e.1.key?_item]

section Trees

variable {heap heap₁ heap₂ : Heap} {xs : List Item} {x : Item} {t u : Content}
  {arrays : List (List Item)} {maps : List Entries}

theorem Planted.items {a : ArrayRef} (hxs : Planted heap heap₁ xs t.children arrays maps)
    (ha : a.index.toNat = heap₁.arrays.size) (hslot : x.slot? = some (.inl a))
    (hx : (heap₁.add [xs] []).Unfolds x u) :
    Planted heap (heap₁.add [xs] []) [x] [t] (arrays ++ [xs]) maps := by
  have hcount (s : ArrayRef ⊕ MapRef) :
      mentions s (references [x] (arrays ++ [xs]) maps) =
        mentions s (references xs arrays maps) + if .inl a = s then 1 else 0 := by
    simp only [references, hslot, mentions_append, mentions_cons, mentions_nil,
      List.flatten_append, List.flatten_singleton, Option.some.injEq]
    omega
  refine hxs.hold hslot ?_ (Heap.extends_add _ _ _) (fun s => Heap.has_add_array ha xs) ?_
    (fun s => (hcount s).le) (fun _ s => (hcount s).ge) hx
  · simp [hxs.eq_add]
  · simp [Heap.Has, ha]

/-- A map drops the values that a later one under the same key has replaced. -/
theorem Planted.entries {m : MapRef} {es : Entries} {ds : List (Key × Content)}
    (hxs : Planted heap heap₁ xs (map ds).children arrays maps)
    (hparts : List.Forall₂ heap₁.Unfolds xs ((map ds).children.map merged))
    (hes : Entries.empty.insertAll xs = .ok es) (hm : m.index.toNat = heap₁.maps.size)
    (hx : (heap₁.add [] [es]).Unfolds (.map m) u) :
    Planted heap (heap₁.add [] [es]) [.map m] [map ds] arrays (maps ++ [es]) := by
  obtain ⟨ps, rfl, hentries⟩ := Heap.exists_pairs_of_children hparts
  have hmerge : es.pairs = merge ps := by
    rw [Entries.insertAll_flatMap] at hes
    cases hes
    exact Entries.pairs_writeAll_empty ps
  have hcount (s : ArrayRef ⊕ MapRef) :
      mentions s (references [.map m] arrays (maps ++ [es])) + mentions s (ps.map (·.2)) =
        mentions s (references (ps.flatMap fun e => [e.1.item, e.2]) arrays maps) +
          (if .inr m = s then 1 else 0) + mentions s ((merge ps).map (·.2)) := by
    simp only [references, Item.slot?, mentions_append, mentions_cons, mentions_nil,
      List.flatMap_append, List.flatMap_singleton, Option.some.injEq, mentions_pairs,
      Entries.values, hmerge]
    omega
  refine hxs.hold rfl ?_ (Heap.extends_add _ _ _) (fun s => Heap.has_add_map hm es) ?_ ?_ ?_ hx
  · simp [hxs.eq_add]
  · simp [Heap.Has, hm]
  · intro s
    have hle : mentions s ((merge ps).map (·.2)) ≤ mentions s (ps.map (·.2)) := by
      simp only [mentions, List.countP_map]
      exact (merge_subperm ps).countP_le _
    have := hcount s
    omega
  · intro hdistinct s
    have hkeys : (ps.map (·.1)).Nodup := by
      rw [Heap.keys_of_entries hentries]
      exact (distinctKeys_iff.mp hdistinct).1
    have hall := hcount s
    rw [merge_of_nodup hkeys] at hall
    omega

theorem Planted.build {kind : ContainerKind} {count : UInt64}
    (hxs : Planted heap heap₁ xs t.children arrays maps)
    (hparts : List.Forall₂ heap₁.Unfolds xs (t.children.map merged))
    (ht : t.node = .container kind count) (h : Node.build kind xs heap₁ = (.ok x, heap₂))
    (hx : heap₂.Unfolds x u) : ∃ arrays' maps', Planted heap heap₂ [x] [t] arrays' maps' := by
  have hbuilt := Node.built kind xs heap₁
  rw [h] at hbuilt
  cases hbuilt with
  | array ha => exact ⟨_, _, hxs.items ha rfl hx⟩
  | struct ha => exact ⟨_, _, hxs.items ha rfl hx⟩
  | map hes hm =>
    cases t with
    | map ds => exact ⟨_, _, hxs.entries hparts hes hm hx⟩
    | _ => cases ht

theorem planted_of_makeAll {trees : List NodeTree} {ts : List Content}
    (htrees : trees = ts.map outline) (hcomplete : ∀ t ∈ trees, t.Complete)
    (h : makeAll trees heap = (.ok xs, heap₂)) :
    ∃ arrays maps, Planted heap heap₂ xs ts arrays maps := by
  induction trees using forestInduct generalizing heap heap₂ xs ts with
  | nil =>
    cases h
    rw [List.map_eq_nil_iff.mp htrees.symm]
    exact ⟨[], [], .of_mentions_eq_zero heap [] fun _ => rfl⟩
  | cons node parts trees ihparts ihtrees =>
    obtain ⟨t, ts, rfl, ht, rfl⟩ := List.map_eq_cons_iff.mp htrees.symm
    obtain ⟨y, ys, heap₁, hys, hy, rfl⟩ := makeAll_cons_eq_ok_iff.mp h
    obtain ⟨arrays, maps, hmade⟩ :=
      ihtrees rfl (fun t ht => hcomplete t (List.mem_cons_of_mem _ ht)) hys
    obtain ⟨u, hu, hunfolds, _⟩ := make_eq_ok (hcomplete _ List.mem_cons_self) hy
    rw [outline_eq, NodeTree.mk.injEq] at ht
    obtain ⟨hnode, rfl⟩ := ht
    have hone : ∃ arrays' maps', Planted heap₁ heap₂ [y] [t] arrays' maps' := by
      cases hcomplete _ List.mem_cons_self with
      | mk hlen hparts =>
        rcases node with k | ⟨kind, count⟩
        · cases hy
          cases t <;> cases hnode
          exact ⟨[], [], .of_mentions_eq_zero _ _ fun s => by simp [slot?_of_key? k.key?_item]⟩
        · rw [make] at hy
          split at hy
          · cases hy
          · rename_i zs heap₃ hzs
            obtain ⟨arrays', maps', hchildren⟩ := ihparts rfl hparts hzs
            have hmade := makeAll_outline_ok (by simpa using hparts) hzs
            exact hchildren.build hmade.unfolds hnode hy hunfolds
    obtain ⟨arrays', maps', hone⟩ := hone
    exact ⟨arrays ++ arrays', maps ++ maps', hmade.cons hone⟩

end Trees

/-! ## One way to each container -/

section Table

variable {α : Type}

theorem index_unique {f : α → Nat} {xs : List α} (h : (xs.map f).sum ≤ 1) {i j : Nat} {x y : α}
    (hx : xs[i]? = some x) (hy : xs[j]? = some y) (hfx : 0 < f x) (hfy : 0 < f y) : i = j := by
  induction xs generalizing i j with
  | nil => simp at hx
  | cons z xs ih =>
    rw [List.map_cons, List.sum_cons] at h
    have hrest {k : Nat} {w : α} (hw : xs[k]? = some w) : f w ≤ (xs.map f).sum :=
      List.le_sum_of_mem (List.mem_map_of_mem (List.mem_of_getElem? hw))
    cases i with
    | zero =>
      cases j with
      | zero => rfl
      | succ j =>
        cases hx
        have := hrest hy
        omega
    | succ i =>
      cases j with
      | zero =>
        cases hy
        have := hrest hx
        omega
      | succ j => rw [ih (by omega) hx hy]

/-- A table that has it once has it in one place. -/
theorem place_unique {p : α → Bool} {table : List (List α)} (h : table.flatten.countP p ≤ 1)
    {a b i j : Nat} {row row' : List α} {x y : α} (ha : table[a]? = some row)
    (hb : table[b]? = some row') (hx : row[i]? = some x) (hy : row'[j]? = some y) (hpx : p x)
    (hpy : p y) : a = b ∧ i = j := by
  have hpos {row : List α} {i : Nat} {x : α} (hx : row[i]? = some x) (hpx : p x) :
      0 < row.countP p := List.countP_pos_iff.mpr ⟨x, List.mem_of_getElem? hx, hpx⟩
  rw [List.countP_flatten] at h
  obtain rfl : a = b := index_unique h ha hb (hpos hx hpx) (hpos hy hpy)
  obtain rfl : row = row' := Option.some.inj (ha.symm.trans hb)
  refine ⟨rfl, ?_⟩
  have hrow : (row.map fun z => [z].countP p).sum ≤ 1 := by
    calc (row.map fun z => [z].countP p).sum
        = (row.flatMap fun z => [z]).countP p := List.countP_flatMap.symm
      _ = row.countP p := by rw [List.flatMap_singleton']
      _ ≤ (table.map (List.countP p)).sum :=
          List.le_sum_of_mem (List.mem_map_of_mem (List.mem_of_getElem? ha))
      _ ≤ 1 := h
  exact index_unique hrow hx hy (by simp [hpx]) (by simp [hpy])

end Table

namespace Heap

/-- Going down from `x` leads to `y`; the path has the place that is taken in each container. -/
inductive Leads (heap : Heap) (x : Item) : List Nat → Item → Prop
  | here : heap.Leads x [] x
  | down {path : List Nat} {y z : Item} {s : ArrayRef ⊕ MapRef} {i : Nat} :
      heap.Leads x path y → y.slot? = some s → (heap.held s)[i]? = some z →
      heap.Leads x (path ++ [i]) z

end Heap

/-! ## Decoded graphs -/

/-- The containers of `heap'` that are not in `heap` are a tree below the item, or such a tree and
some more that nothing in it refers to. -/
structure FreshTree (heap heap' : Heap) (y : Item) (refs : List Item) : Prop where
  /-- What is added refers to other things added. -/
  closed : ∀ s, heap.Added heap' s → ∀ z ∈ heap'.held s, ∀ s', z.slot? = some s' →
    heap.Added heap' s' ∧ s' ≠ s
  acyclic : ∀ x s, x.slot? = some s → heap.Added heap' s → ¬heap'.Cyclic x
  once : ∀ s, heap.Added heap' s → mentions s refs ≤ 1
  onePath : ∀ p q x z s, heap'.Leads y p x → heap'.Leads y q z → x.slot? = some s →
    z.slot? = some s → p = q
  /-- Nothing that was there before is reached. -/
  apart : ∀ x s, heap'.Reaches y x → x.slot? = some s → heap.Added heap' s

section

variable {heap heap' : Heap} {y x z : Item} {ts : List Content} {arrays : List (List Item)}
  {maps : List Entries} {s s' : ArrayRef ⊕ MapRef} {p q : List Nat}

theorem Planted.getElem?_row (h : Planted heap heap' [y] ts arrays maps)
    (hs : heap.Added heap' s) :
    ([y] :: (arrays ++ maps.map Entries.values))[heap.row arrays s + 1]? =
      some (heap'.held s) := by
  obtain rfl := h.eq_add
  rw [List.getElem?_cons_succ, Heap.getElem?_row hs]

theorem Planted.apart (h : Planted heap heap' [y] ts arrays maps) :
    Apart heap heap' [y] arrays maps where
  eq_add := h.eq_add
  added := fun x hx s hs => h.added s (mentions_pos_iff.mpr ⟨x, hx, hs⟩)

theorem Planted.added_of_reaches (h : Planted heap heap' [y] ts arrays maps)
    (hx : heap'.Reaches y x) (hs : x.slot? = some s) : heap.Added heap' s :=
  h.apart.added_of_reaches (by simp) hx hs

theorem Heap.Leads.reaches (h : heap'.Leads y p x) : heap'.Reaches y x := by
  induction h with
  | here => exact .refl
  | down _ hs hz ih => exact ih.tail (holds_iff.mpr ⟨_, hs, List.mem_of_getElem? hz⟩)

/-- One place among the references refers to a container. -/
theorem Planted.place_unique (h : Planted heap heap' [y] ts arrays maps) {a b i j : Nat}
    {row row' : List Item} (ha : ([y] :: (arrays ++ maps.map Entries.values))[a]? = some row)
    (hb : ([y] :: (arrays ++ maps.map Entries.values))[b]? = some row') (hx : row[i]? = some x)
    (hz : row'[j]? = some z) (hxs : x.slot? = some s) (hzs : z.slot? = some s) :
    a = b ∧ i = j := by
  refine ScriptHost.place_unique (p := fun x => x.slot? = some s) ?_ ha hb hx hz (by simpa)
    (by simpa)
  rw [← references_eq_flatten]
  exact h.once s

/-- Two paths to one container end in the one place that refers to it, and so on upwards. -/
theorem Planted.path_unique (h : Planted heap heap' [y] ts arrays maps)
    (hp : heap'.Leads y p x) (hq : heap'.Leads y q z) (hx : x.slot? = some s)
    (hz : z.slot? = some s) : p = q := by
  induction hp generalizing q z s with
  | here =>
    cases hq with
    | here => rfl
    | down hq hw hget =>
      obtain ⟨htop, _⟩ := h.place_unique (a := 0) (i := 0) rfl
        (h.getElem?_row (h.added_of_reaches hq.reaches hw)) rfl hget hx hz
      cases htop
  | down hp hv hget ih =>
    have hrow := h.getElem?_row (h.added_of_reaches hp.reaches hv)
    cases hq with
    | here =>
      obtain ⟨htop, _⟩ := h.place_unique (b := 0) (j := 0) hrow rfl hget rfl hx hz
      cases htop
    | down hq hw hget' =>
      have hadded := h.added_of_reaches hp.reaches hv
      have hadded' := h.added_of_reaches hq.reaches hw
      obtain ⟨hsame, rfl⟩ := h.place_unique hrow (h.getElem?_row hadded') hget hget' hx hz
      rw [h.eq_add] at hadded hadded'
      obtain rfl := Heap.row_inj hadded hadded' (Nat.succ.inj hsame)
      rw [ih hq hv hw]

theorem Planted.freshTree (h : Planted heap heap' [y] ts arrays maps) :
    FreshTree heap heap' y (references [y] arrays maps) where
  closed := by
    intro s hs z hz s' hs'
    refine ⟨h.apart.added_of_held hs hz hs', ?_⟩
    rintro rfl
    have hself : heap'.Holds z z := Heap.holds_iff.mpr ⟨s', hs', hz⟩
    obtain ⟨t, ht⟩ := h.unfolds z s' hs' hs
    exact ht.not_cyclic ⟨z, .single hself, rfl⟩
  acyclic := by
    intro x s hx hs
    obtain ⟨t, ht⟩ := h.unfolds x s hx hs
    exact ht.not_cyclic
  once := fun s _ => h.once s
  onePath := fun p q x z s hp hq hx hz => h.path_unique hp hq hx hz
  apart := fun x s hx hs => h.added_of_reaches hx hs

end

/-- Decoding adds a tree. There is one new array or struct for each in the input and one new map
for each, behind the containers that were there, which stay as they were. The new ones hold
references to one another only, none of them can be reached from itself, and none of them is
referred to twice, so one path at most leads to each. It is referred to once if no map in the input
has a key twice; a value that was dropped for a later one is not referred to any more. -/
theorem decode_freshTree {heap heap' : Heap} {data : Bytes} {limits : Limits} {y : Item}
    (hsize : data.length < UInt64.size) (h : decode heap data limits = (.ok y, heap')) :
    ∃ t arrays maps, Reads limits data t ∧ heap' = heap.add arrays maps ∧
      arrays.length = t.arraySlots ∧ maps.length = t.mapSlots ∧
      FreshTree heap heap' y (references [y] arrays maps) ∧
      (t.DistinctKeys → ∀ s, heap.Added heap' s →
        mentions s (references [y] arrays maps) = 1) := by
  obtain ⟨tree, hspells, hmake⟩ := exists_spells_of_decode hsize h
  obtain ⟨t, rfl, _, hgrows⟩ := make_eq_ok hspells.1 hmake
  have hall : makeAll ([t].map outline) heap = (.ok [y], heap') :=
    makeAll_cons_eq_ok_iff.mpr ⟨y, [], heap, rfl, hmake, rfl⟩
  obtain ⟨arrays, maps, hplanted⟩ := planted_of_makeAll rfl (by simpa using hspells.1) hall
  have harrays := hgrows.arrays
  have hmaps := hgrows.maps
  rw [hplanted.eq_add, Heap.size_arrays_add, Nat.add_left_cancel_iff] at harrays
  rw [hplanted.eq_add, Heap.size_maps_add, Nat.add_left_cancel_iff] at hmaps
  refine ⟨t, arrays, maps, reads_iff.mpr hspells, hplanted.eq_add, harrays, hmaps,
    hplanted.freshTree, ?_⟩
  intro hdistinct s hs
  have hpos := hplanted.all (by simpa using hdistinct) s hs
  have := hplanted.once s
  omega

/-- A map that holds an array and then a struct under the key `true`. -/
def droppedArray : Bytes := [0x82, 0x02, 0x01, 0x01, 0x80, 0x00, 0x01, 0x05, 0x81, 0x00]

/-- The array is made after the struct. The map has dropped it, and nothing refers to it. -/
def droppedArrayHeap : Heap where
  arrays := #[[], []]
  maps := #[Entries.empty.insert (.boolean true) (.struct ⟨0⟩)]

theorem decode_freshTree_droppedArray :
    decode .empty droppedArray {} = (.ok (.map ⟨0⟩), droppedArrayHeap) ∧
      ∃ arrays maps, droppedArrayHeap = Heap.empty.add arrays maps ∧
        FreshTree .empty droppedArrayHeap (.map ⟨0⟩) (references [.map ⟨0⟩] arrays maps) := by
  have hdecode : decode .empty droppedArray {} = (.ok (.map ⟨0⟩), droppedArrayHeap) := by
    decide +kernel
  obtain ⟨_, arrays, maps, _, hadd, _, _, htree, _⟩ := decode_freshTree (by decide) hdecode
  exact ⟨hdecode, arrays, maps, hadd, htree⟩

end ScriptHost

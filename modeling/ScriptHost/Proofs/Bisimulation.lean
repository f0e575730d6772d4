import ScriptHost.Proofs.Comparing
import ScriptHost.Proofs.Unfolding

/-!
# ScriptHost.Proofs.Bisimulation

Having the same content, on graphs with cycles. A relation on items is a bisimulation if related
items agree at their own node and are related in everything directly inside. The comparison takes
a pair for equal as soon as it has been opened; that is sound because, when nothing is pending any
more, the opened pairs are a bisimulation (`Invariant`). Main statement: `sameContent_iff`. Items
with one unfolding have the same content (`Bisimilar.of_unfolds`), and an unfolding goes over to
every item with the same content (`Bisimilar.unfolds`).
-/

namespace ScriptHost

namespace Heap

/-- The items agree at their own node, and what is directly inside is related by `R`. -/
inductive Agrees (heap : Heap) (R : Item → Item → Prop) : Item → Item → Prop
  | same {a : Item} : a.isContainer = false → heap.Agrees R a a
  | array {x y : ArrayRef} {xs ys : List Item} : heap.items x = .ok xs → heap.items y = .ok ys →
      List.Forall₂ R xs ys → heap.Agrees R (.array x) (.array y)
  | struct {x y : ArrayRef} {xs ys : List Item} : heap.items x = .ok xs → heap.items y = .ok ys →
      List.Forall₂ R xs ys → heap.Agrees R (.struct x) (.struct y)
  | map {x y : MapRef} {xs ys : Entries} : heap.entries x = .ok xs → heap.entries y = .ok ys →
      xs.keys = ys.keys → List.Forall₂ R xs.values ys.values → heap.Agrees R (.map x) (.map y)

def Bisimulation (heap : Heap) (R : Item → Item → Prop) : Prop :=
  ∀ a b, R a b → heap.Agrees R a b

def Bisimilar (heap : Heap) (a b : Item) : Prop := ∃ R, heap.Bisimulation R ∧ R a b

end Heap

namespace Comparison

variable {heap : Heap} {R : Item → Item → Prop}

/-! ## A comparison that succeeds -/

/-- The pair has been settled: opened, or equal without being opened. -/
def Settled (c : Comparison) : Item → Item → Prop
  | .array x, .array y | .struct x, .struct y => (x, y) ∈ c.seenArrays
  | .map x, .map y => (x, y) ∈ c.seenMaps
  | a, b => a = b

/-- The pair has been settled or is still to come. -/
def Covered (c : Comparison) (a b : Item) : Prop := (a, b) ∈ c.pending ∨ c.Settled a b

/-- Everything inside the opened pairs is covered. -/
structure Invariant (heap : Heap) (c : Comparison) : Prop where
  arrays : ∀ x y, (x, y) ∈ c.seenArrays → ∃ xs ys, heap.items x = .ok xs ∧ heap.items y = .ok ys ∧
    List.Forall₂ c.Covered xs ys
  maps : ∀ x y, (x, y) ∈ c.seenMaps → ∃ xs ys, heap.entries x = .ok xs ∧ heap.entries y = .ok ys ∧
    xs.keys = ys.keys ∧ List.Forall₂ c.Covered xs.values ys.values

theorem Settled.mono {c c' : Comparison} (harrays : ∀ p ∈ c.seenArrays, p ∈ c'.seenArrays)
    (hmaps : ∀ p ∈ c.seenMaps, p ∈ c'.seenMaps) {a b : Item} (h : c.Settled a b) :
    c'.Settled a b := by
  cases a <;> cases b <;> first | exact harrays _ h | exact hmaps _ h | exact h

/-- A step on the first pair takes no pair away from those covered, once that pair is settled. -/
theorem Covered.mono {c c' : Comparison} {a b : Item} {rest : List (Item × Item)}
    (hp : c.pending = (a, b) :: rest) (hrest : ∀ p ∈ rest, p ∈ c'.pending)
    (harrays : ∀ p ∈ c.seenArrays, p ∈ c'.seenArrays) (hmaps : ∀ p ∈ c.seenMaps, p ∈ c'.seenMaps)
    (hab : c'.Settled a b) : ∀ d e, c.Covered d e → c'.Covered d e := by
  rintro d e (hmem | hs)
  · rw [hp] at hmem
    rcases List.mem_cons.mp hmem with heq | hmem
    · cases heq
      exact .inr hab
    · exact .inl (hrest _ hmem)
  · exact .inr (hs.mono harrays hmaps)

theorem covered_zip {c : Comparison} {xs ys : List Item} (hlen : xs.length = ys.length)
    (h : ∀ p ∈ (xs.zip ys).reverse, p ∈ c.pending) : List.Forall₂ c.Covered xs ys :=
  List.forall₂_iff_zip.mpr ⟨hlen, fun hab => .inl (h _ (List.mem_reverse.mpr hab))⟩

theorem Invariant.mono {c c' : Comparison} (h : c.Invariant heap)
    (hcov : ∀ {a b}, c.Covered a b → c'.Covered a b)
    (harrays : ∀ x y, (x, y) ∈ c'.seenArrays → (x, y) ∈ c.seenArrays ∨
      ∃ xs ys, heap.items x = .ok xs ∧ heap.items y = .ok ys ∧ List.Forall₂ c'.Covered xs ys)
    (hmaps : ∀ x y, (x, y) ∈ c'.seenMaps → (x, y) ∈ c.seenMaps ∨
      ∃ xs ys, heap.entries x = .ok xs ∧ heap.entries y = .ok ys ∧ xs.keys = ys.keys ∧
        List.Forall₂ c'.Covered xs.values ys.values) : c'.Invariant heap where
  arrays := by
    intro x y hxy
    rcases harrays x y hxy with hold | hnew
    · obtain ⟨xs, ys, hxs, hys, hall⟩ := h.arrays x y hold
      exact ⟨xs, ys, hxs, hys, hall.imp fun _ _ => hcov⟩
    · exact hnew
  maps := by
    intro x y hxy
    rcases hmaps x y hxy with hold | hnew
    · obtain ⟨xs, ys, hxs, hys, hkeys, hall⟩ := h.maps x y hold
      exact ⟨xs, ys, hxs, hys, hkeys, hall.imp fun _ _ => hcov⟩
    · exact hnew

theorem openArrays_ok {c c' : Comparison} {x y : ArrayRef}
    (h : c.openArrays heap x y = .ok (some c')) :
    (c' = c ∧ (x, y) ∈ c.seenArrays) ∨
    ∃ xs ys, heap.items x = .ok xs ∧ heap.items y = .ok ys ∧ xs.length = ys.length ∧
      c' = { c with
        pending := (xs.zip ys).reverse ++ c.pending
        seenArrays := c.seenArrays.insert (x, y) } := by
  rw [openArrays_eq] at h
  rcases openPlaces_ok h with hold | ⟨pairs, hpairs, rfl⟩
  · exact .inl hold
  · obtain ⟨xs, ys, hxs, hys, hjoin⟩ := lookupBoth_eq_ok_iff.mp hpairs
    split at hjoin
    · rename_i hlen
      cases hjoin
      exact .inr ⟨xs, ys, hxs, hys, hlen, rfl⟩
    · cases hjoin

theorem openMaps_ok {c c' : Comparison} {x y : MapRef}
    (h : c.openMaps heap x y = .ok (some c')) :
    (c' = c ∧ (x, y) ∈ c.seenMaps) ∨
    ∃ xs ys, heap.entries x = .ok xs ∧ heap.entries y = .ok ys ∧ xs.keys = ys.keys ∧
      c' = { c with
        pending := (xs.values.zip ys.values).reverse ++ c.pending
        seenMaps := c.seenMaps.insert (x, y) } := by
  rw [openMaps_eq] at h
  rcases openPlaces_ok h with hold | ⟨pairs, hpairs, rfl⟩
  · exact .inl hold
  · obtain ⟨xs, ys, hxs, hys, hjoin⟩ := lookupBoth_eq_ok_iff.mp hpairs
    split at hjoin
    · rename_i hkeys
      cases hjoin
      exact .inr ⟨xs, ys, hxs, hys, hkeys, rfl⟩
    · cases hjoin

/-- What a step that goes on has done with the pair. -/
theorem step_cases {c c' : Comparison} {a b : Item} (h : c.step heap (a, b) = .ok (some c')) :
    (c' = c ∧ c.Settled a b) ∨
    (∃ x y xs ys, (a = .array x ∧ b = .array y ∨ a = .struct x ∧ b = .struct y) ∧
      heap.items x = .ok xs ∧ heap.items y = .ok ys ∧ xs.length = ys.length ∧
      c' = { c with
        pending := (xs.zip ys).reverse ++ c.pending
        seenArrays := c.seenArrays.insert (x, y) }) ∨
    (∃ x y xs ys, a = .map x ∧ b = .map y ∧ heap.entries x = .ok xs ∧ heap.entries y = .ok ys ∧
      xs.keys = ys.keys ∧
      c' = { c with
        pending := (xs.values.zip ys.values).reverse ++ c.pending
        seenMaps := c.seenMaps.insert (x, y) }) := by
  unfold step at h
  split at h
  · rename_i x y heq
    cases heq
    rcases openArrays_ok h with hold | ⟨xs, ys, hnew⟩
    · exact .inl hold
    · exact .inr (.inl ⟨x, y, xs, ys, .inl ⟨rfl, rfl⟩, hnew⟩)
  · rename_i x y heq
    cases heq
    rcases openArrays_ok h with hold | ⟨xs, ys, hnew⟩
    · exact .inl hold
    · exact .inr (.inl ⟨x, y, xs, ys, .inr ⟨rfl, rfl⟩, hnew⟩)
  · rename_i x y heq
    cases heq
    rcases openMaps_ok h with hold | ⟨xs, ys, hnew⟩
    · exact .inl hold
    · exact .inr (.inr ⟨x, y, xs, ys, rfl, rfl, hnew⟩)
  · rename_i a' b' harrays hstructs hmaps heq
    cases heq
    split at h
    · rename_i hab
      cases h
      refine .inl ⟨rfl, ?_⟩
      subst hab
      cases a
      case array x => exact (harrays x x rfl rfl).elim
      case struct x => exact (hstructs x x rfl rfl).elim
      case map x => exact (hmaps x x rfl rfl).elim
      all_goals rfl
    · cases h

theorem keys_length_eq {xs ys : Entries} (h : xs.keys = ys.keys) :
    xs.values.length = ys.values.length := by
  simpa [Entries.keys, Entries.values] using congrArg List.length h

/-- A step keeps the invariant and loses no covered pair. -/
theorem step_invariant {c c' : Comparison} {a b : Item} {rest : List (Item × Item)}
    (hp : c.pending = (a, b) :: rest)
    (h : step heap { c with pending := rest } (a, b) = .ok (some c')) :
    (∀ d e, c.Covered d e → c'.Covered d e) ∧ (c.Invariant heap → c'.Invariant heap) := by
  rcases step_cases h with ⟨rfl, hs⟩ | ⟨x, y, xs, ys, hab, hxs, hys, hlen, rfl⟩ |
    ⟨x, y, xs, ys, rfl, rfl, hxs, hys, hkeys, rfl⟩
  · have hcov : ∀ d e, c.Covered d e → Covered { c with pending := rest } d e :=
      Covered.mono hp (fun _ hm => hm) (fun _ hm => hm) (fun _ hm => hm) hs
    refine ⟨hcov, ?_⟩
    intro hi
    exact hi.mono (hcov _ _) (fun _ _ => .inl) fun _ _ => .inl
  · have hcov : ∀ d e, c.Covered d e → Covered { c with
        pending := (xs.zip ys).reverse ++ rest
        seenArrays := c.seenArrays.insert (x, y) } d e := by
      refine Covered.mono hp (fun p hm => List.mem_append_right _ hm)
        (fun p hm => Std.HashSet.mem_insert.mpr (.inr hm)) (fun _ hm => hm) ?_
      rcases hab with ⟨rfl, rfl⟩ | ⟨rfl, rfl⟩ <;> exact Std.HashSet.mem_insert_self
    refine ⟨hcov, ?_⟩
    intro hi
    refine hi.mono (hcov _ _) ?_ fun _ _ => .inl
    intro x' y' hm
    rcases Std.HashSet.mem_insert.mp hm with heq | hm
    · cases eq_of_beq heq
      exact .inr ⟨xs, ys, hxs, hys, covered_zip hlen fun p hm => List.mem_append_left _ hm⟩
    · exact .inl hm
  · have hcov : ∀ d e, c.Covered d e → Covered { c with
        pending := (xs.values.zip ys.values).reverse ++ rest
        seenMaps := c.seenMaps.insert (x, y) } d e := by
      refine Covered.mono hp (fun p hm => List.mem_append_right _ hm) (fun _ hm => hm)
        (fun p hm => Std.HashSet.mem_insert.mpr (.inr hm)) ?_
      exact Std.HashSet.mem_insert_self
    refine ⟨hcov, ?_⟩
    intro hi
    refine hi.mono (hcov _ _) (fun _ _ => .inl) ?_
    intro x' y' hm
    rcases Std.HashSet.mem_insert.mp hm with heq | hm
    · cases eq_of_beq heq
      exact .inr ⟨xs, ys, hxs, hys, hkeys,
        covered_zip (keys_length_eq hkeys) fun p hm => List.mem_append_left _ hm⟩
    · exact .inl hm

theorem bisimulation_settled {c : Comparison} (hp : c.pending = []) (h : c.Invariant heap) :
    heap.Bisimulation c.Settled := by
  have covered : ∀ a b, c.Covered a b → c.Settled a b := by
    rintro a b (hm | hs)
    · rw [hp] at hm
      cases hm
    · exact hs
  intro a b hab
  unfold Settled at hab
  split at hab
  · obtain ⟨xs, ys, hxs, hys, hall⟩ := h.arrays _ _ hab
    exact .array hxs hys (hall.imp covered)
  · obtain ⟨xs, ys, hxs, hys, hall⟩ := h.arrays _ _ hab
    exact .struct hxs hys (hall.imp covered)
  · obtain ⟨xs, ys, hxs, hys, hkeys, hall⟩ := h.maps _ _ hab
    exact .map hxs hys hkeys (hall.imp covered)
  · rename_i harrays hstructs hmaps
    subst hab
    refine .same ?_
    cases a
    case array x => exact (harrays x x rfl rfl).elim
    case struct x => exact (hstructs x x rfl rfl).elim
    case map x => exact (hmaps x x rfl rfl).elim
    all_goals rfl

/-- When a comparison has found no difference, all its pairs are in a bisimulation. -/
theorem run_true {c : Comparison} (h : run heap c = .ok true) (hi : c.Invariant heap) :
    ∃ R, heap.Bisimulation R ∧ ∀ a b, c.Covered a b → R a b := by
  fun_induction run heap c with
  | case1 c hp =>
    refine ⟨c.Settled, bisimulation_settled hp hi, ?_⟩
    rintro a b (hm | hs)
    · rw [hp] at hm
      cases hm
    · exact hs
  | case2 => cases h
  | case3 => cases h
  | case4 c pair rest hp c' hstep _ _ ih =>
    obtain ⟨hcov, hinv⟩ := step_invariant hp hstep
    obtain ⟨R, hR, hall⟩ := ih h (hinv hi)
    exact ⟨R, hR, fun a b hab => hall a b (hcov a b hab)⟩

/-! ## A comparison of related items -/

/-- A step on items that agree goes on, and the pairs it adds are related. -/
theorem step_of_agrees {a b : Item} (h : heap.Agrees R a b) (c : Comparison) :
    ∃ c', c.step heap (a, b) = .ok (some c') ∧ ∀ p ∈ c'.pending, p ∈ c.pending ∨ R p.1 p.2 := by
  have zipped {xs ys : List Item} (hall : List.Forall₂ R xs ys) :
      ∀ p ∈ (xs.zip ys).reverse ++ c.pending, p ∈ c.pending ∨ R p.1 p.2 := by
    intro p hm
    rcases List.mem_append.mp hm with hm | hm
    · exact .inr ((List.forall₂_iff_zip.mp hall).2 (List.mem_reverse.mp hm))
    · exact .inl hm
  have arrays {x y : ArrayRef} {xs ys : List Item} (hxs : heap.items x = .ok xs)
      (hys : heap.items y = .ok ys) (hall : List.Forall₂ R xs ys) :
      ∃ c', c.openArrays heap x y = .ok (some c') ∧
        ∀ p ∈ c'.pending, p ∈ c.pending ∨ R p.1 p.2 := by
    by_cases hseen : c.seenArrays.contains (x, y)
    · exact ⟨c, by rw [openArrays, if_pos hseen], fun _ => .inl⟩
    · exact ⟨_, by rw [openArrays, if_neg hseen, hxs, hys]; exact if_pos hall.length_eq,
        zipped hall⟩
  cases h with
  | same ha =>
    refine ⟨c, ?_, fun _ => .inl⟩
    cases a <;> cases ha <;> simp [step]
  | array hxs hys hall => exact arrays hxs hys hall
  | struct hxs hys hall => exact arrays hxs hys hall
  | @map x y xs ys hxs hys hkeys hall =>
    by_cases hseen : c.seenMaps.contains (x, y)
    · exact ⟨c, by rw [step, openMaps, if_pos hseen], fun _ => .inl⟩
    · exact ⟨_, by rw [step, openMaps, if_neg hseen, hxs, hys]; exact if_pos hkeys, zipped hall⟩

theorem run_of_bisimulation {c : Comparison} (hR : heap.Bisimulation R)
    (hp : ∀ p ∈ c.pending, R p.1 p.2) : run heap c = .ok true := by
  fun_induction run heap c with
  | case1 => rfl
  | case2 c pair rest hpending e hstep =>
    obtain ⟨c', hc', _⟩ := step_of_agrees (hR _ _ (hp pair (by simp [hpending])))
      { c with pending := rest }
    rw [hstep] at hc'
    cases hc'
  | case3 c pair rest hpending hstep =>
    obtain ⟨c', hc', _⟩ := step_of_agrees (hR _ _ (hp pair (by simp [hpending])))
      { c with pending := rest }
    rw [hstep] at hc'
    cases hc'
  | case4 c pair rest hpending c' hstep _ _ ih =>
    obtain ⟨c'', hc'', hadded⟩ := step_of_agrees (hR _ _ (hp pair (by simp [hpending])))
      { c with pending := rest }
    rw [hstep] at hc''
    cases hc''
    refine ih ?_
    intro p hm
    rcases hadded p hm with hrest | hr
    · exact hp p (by rw [hpending]; exact List.mem_cons_of_mem _ hrest)
    · exact hr

end Comparison

namespace Heap

variable {heap : Heap}

theorem sameContent_iff {a b : Item} : heap.sameContent a b = .ok true ↔ heap.Bisimilar a b := by
  constructor
  · intro h
    have start : Comparison.Invariant heap { pending := [(a, b)] } :=
      ⟨fun _ _ hm => by simp at hm, fun _ _ hm => by simp at hm⟩
    obtain ⟨R, hR, hall⟩ := Comparison.run_true h start
    exact ⟨R, hR, hall a b (.inl (by simp))⟩
  · rintro ⟨R, hR, hab⟩
    refine Comparison.run_of_bisimulation hR ?_
    intro p hm
    rw [List.mem_singleton.mp hm]
    exact hab

/-! ## Bisimilar items and their unfoldings -/

/-- Items with one unfolding have the same content. -/
theorem Bisimilar.of_unfolds {a b : Item} {t : Content} (ha : heap.Unfolds a t)
    (hb : heap.Unfolds b t) : heap.Bisimilar a b := by
  refine ⟨Relation.Comp heap.Unfolds (flip heap.Unfolds), ?_, t, ha, hb⟩
  rintro a b ⟨t, ha, hb⟩
  cases ha with
  | leaf hk =>
    cases hb with
    | leaf hk' =>
      rw [Item.key?_eq_some_iff] at hk hk'
      subst hk hk'
      exact .same (by rename_i k; cases k <;> rfl)
  | array hxs hts =>
    cases hb with
    | array hys hus => exact .array hxs hys (forall₂_comp hts hus.flip)
  | struct hxs hts =>
    cases hb with
    | struct hys hus => exact .struct hxs hys (forall₂_comp hts hus.flip)
  | map hxs hkeys hts =>
    cases hb with
    | map hys hkeys' hus => exact .map hxs hys (hkeys.trans hkeys'.symm) (forall₂_comp hts hus.flip)

/-- An unfolding of an item is one of every item with the same content, whatever the two share. -/
theorem Bisimilar.unfolds {a b : Item} {t : Content} (h : heap.Bisimilar a b)
    (ha : heap.Unfolds a t) : heap.Unfolds b t := by
  obtain ⟨R, hR, hab⟩ := h
  have along {xs ys : List Item} {ts : List Content} (hxy : List.Forall₂ R xs ys)
      (hxt : List.Forall₂ heap.Unfolds xs ts)
      (each : ∀ c ∈ ts, ∀ x y, R x y → heap.Unfolds x c → heap.Unfolds y c) :
      List.Forall₂ heap.Unfolds ys ts :=
    forall₂_imp_of_mem (forall₂_comp hxy.flip hxt) fun y _ c hc ⟨x, hr, hx⟩ => each c hc x y hr hx
  induction t using Content.induct generalizing a b with
  | step t ih =>
    have each : ∀ c ∈ t.children, ∀ x y, R x y → heap.Unfolds x c → heap.Unfolds y c :=
      fun c hc x y hxy hx => ih c hc hx hxy
    cases hR a b hab with
    | same _ => exact ha
    | array hxs hys hall =>
      cases ha with
      | leaf hk => cases hk
      | array hxs' hts =>
        rw [hxs] at hxs'
        cases hxs'
        exact .array hys (along hall hts each)
    | struct hxs hys hall =>
      cases ha with
      | leaf hk => cases hk
      | struct hxs' hts =>
        rw [hxs] at hxs'
        cases hxs'
        exact .struct hys (along hall hts each)
    | map hxs hys hkeys hall =>
      cases ha with
      | leaf hk => cases hk
      | map hxs' hkeys' hts =>
        rw [hxs] at hxs'
        cases hxs'
        refine .map hys (hkeys.symm.trans hkeys') (along hall hts fun c hc => each c ?_)
        obtain ⟨e, he, rfl⟩ := List.mem_map.mp hc
        exact Content.value_mem_children he

theorem Bisimilar.symm {a b : Item} (h : heap.Bisimilar a b) : heap.Bisimilar b a := by
  obtain ⟨R, hR, hab⟩ := h
  refine ⟨flip R, fun x y hyx => ?_, hab⟩
  cases hR y x hyx with
  | same ha => exact .same ha
  | array hxs hys hall => exact .array hys hxs hall.flip
  | struct hxs hys hall => exact .struct hys hxs hall.flip
  | map hxs hys hkeys hall => exact .map hys hxs hkeys.symm hall.flip

end Heap

end ScriptHost

import Mathlib.Data.List.Zip
import ScriptHost.Proofs.ComparingWork
import ScriptHost.Proofs.Visits

/-!
# ScriptHost.Proofs.Mirroring

Comparing two items the other way round. The two runs go in step: the second takes up the same pairs
with their items exchanged, and has opened the same containers, exchanged too (`Mirrors`). So the
verdicts agree. A run that fails does so at the first pair that has a handle which leads nowhere
(`Loops.first_fault`), and the other order names the same handle unless both of that pair lead
nowhere. Main statement: `sameContent_mirrored`.
-/

namespace ScriptHost

def PlacePair.swap : PlacePair → PlacePair := Sum.map Prod.swap Prod.swap

@[simp] theorem PlacePair.swap_swap (s : PlacePair) : s.swap.swap = s := by
  rcases s with ⟨x, y⟩ | ⟨x, y⟩ <;> rfl

theorem places?_swap (p : Item × Item) : places? p.swap = (places? p).map PlacePair.swap := by
  obtain ⟨a, b⟩ := p
  cases a <;> cases b <;> rfl

namespace Heap

variable {heap : Heap} {p : Item × Item} {s : PlacePair}

/-! ## Handles that lead nowhere -/

/-- The handle of the item, if it leads nowhere. -/
def dangling? (heap : Heap) : Item → Option UInt32
  | .array h | .struct h => if heap.arrays.size ≤ h.index.toNat then some h.index else none
  | .map h => if heap.maps.size ≤ h.index.toNat then some h.index else none
  | .bytes _ | .boolean _ | .integer _ | .host _ => none

/-- The error of opening the pair: the handle of the first item is tried first. -/
def fault? (heap : Heap) (p : Item × Item) : Option HeapError :=
  ((heap.dangling? p.1).or (heap.dangling? p.2)).map .badHandle

theorem isSome_fault?_swap (heap : Heap) (p : Item × Item) :
    (heap.fault? p.swap).isSome = (heap.fault? p).isSome := by
  simp [fault?, Bool.or_comm]

/-- The two orders give one error unless both handles lead nowhere. -/
theorem fault?_eq_or {x y : Item} {e e' : HeapError} (h : heap.fault? (x, y) = some e)
    (h' : heap.fault? (y, x) = some e') :
    e = e' ∨ ∃ i j, heap.dangling? x = some i ∧ heap.dangling? y = some j ∧
      e = .badHandle i ∧ e' = .badHandle j := by
  have hone (hnone : heap.dangling? x = none ∨ heap.dangling? y = none) : e = e' := by
    have hsame : heap.fault? (x, y) = heap.fault? (y, x) := by
      rcases hnone with hx | hy
      · simp [fault?, hx]
      · simp [fault?, hy]
    exact Option.some.inj (h.symm.trans (hsame.trans h'))
  cases hx : heap.dangling? x with
  | none => exact .inl (hone (.inl hx))
  | some i =>
    cases hy : heap.dangling? y with
    | none => exact .inl (hone (.inr hy))
    | some j =>
      simp only [fault?, hx, hy, Option.some_or, Option.map_some, Option.some.injEq] at h h'
      exact .inr ⟨i, j, rfl, rfl, h.symm, h'.symm⟩

/-- The lookup fails exactly if the handle leads nowhere, and then names it. -/
def Names {α : Type} (i : Option UInt32) : Except HeapError α → Prop
  | .error e => i.map .badHandle = some e
  | .ok _ => i = none

theorem items_names (heap : Heap) (x : ArrayRef) :
    Names (heap.dangling? (.array x)) (heap.items x) := by
  cases hx : heap.items x with
  | error e =>
    obtain ⟨rfl, hnot⟩ := items_eq_error hx
    exact congrArg (Option.map HeapError.badHandle) (if_pos (Nat.not_lt.mp hnot))
  | ok xs => exact if_neg (Nat.not_le.mpr (exists_items_iff.mp ⟨xs, hx⟩))

theorem entries_names (heap : Heap) (x : MapRef) :
    Names (heap.dangling? (.map x)) (heap.entries x) := by
  cases hx : heap.entries x with
  | error e =>
    obtain ⟨rfl, hnot⟩ := entries_eq_error hx
    exact congrArg (Option.map HeapError.badHandle) (if_pos (Nat.not_lt.mp hnot))
  | ok es => exact if_neg (Nat.not_le.mpr (exists_entries_iff.mp ⟨es, hx⟩))

theorem Names.both {α β : Type} {i j : Option UInt32} {first second : Except HeapError α}
    (h : Names i first) (h' : Names j second) (join : α → α → β) :
    Names (i.or j) (lookupBoth first second join) := by
  cases first with
  | error e =>
    obtain ⟨k, rfl, hk⟩ := Option.map_eq_some_iff.mp h
    exact congrArg some hk
  | ok x =>
    rw [h, Option.none_or]
    cases second with
    | error e => exact h'
    | ok y => exact h'

theorem pairsInside_names (heap : Heap) (hplaces : places? p = some s) :
    Names ((heap.dangling? p.1).or (heap.dangling? p.2)) (heap.pairsInside s) := by
  obtain ⟨a, b⟩ := p
  cases a <;> cases b <;> cases hplaces
  case array x y => exact (items_names heap x).both (items_names heap y) _
  case struct x y => exact (items_names heap x).both (items_names heap y) _
  case map x y => exact (entries_names heap x).both (entries_names heap y) _

theorem fault?_of_pairsInside_error {e : HeapError} (hplaces : places? p = some s)
    (h : heap.pairsInside s = .error e) : heap.fault? p = some e := by
  have hnames := pairsInside_names heap hplaces
  rwa [h] at hnames

theorem fault?_of_pairsInside_ok {r : Option (List (Item × Item))} (hplaces : places? p = some s)
    (h : heap.pairsInside s = .ok r) : heap.fault? p = none := by
  have hnames := pairsInside_names heap hplaces
  rw [h] at hnames
  exact congrArg (Option.map HeapError.badHandle) hnames

/-- Items that are equal and no containers have no handle. -/
theorem fault?_of_same {a : Item} (h : places? (a, a) = none) : heap.fault? (a, a) = none := by
  cases a <;> first | rfl | cases h

/-- Opening containers the other way round gives the same pairs, exchanged. -/
theorem pairsInside_swap {r : Option (List (Item × Item))} (h : heap.pairsInside s = .ok r) :
    heap.pairsInside s.swap = .ok (r.map (·.map Prod.swap)) := by
  rcases s with ⟨x, y⟩ | ⟨x, y⟩
  · obtain ⟨xs, ys, hx, hy, rfl⟩ := lookupBoth_eq_ok_iff.mp h
    refine lookupBoth_eq_ok_iff.mpr ⟨ys, xs, hy, hx, ?_⟩
    by_cases hlen : xs.length = ys.length
    · simp [hlen, List.zip_swap]
    · simp [hlen, Ne.symm hlen]
  · obtain ⟨xs, ys, hx, hy, rfl⟩ := lookupBoth_eq_ok_iff.mp h
    refine lookupBoth_eq_ok_iff.mpr ⟨ys, xs, hy, hx, ?_⟩
    by_cases hkeys : xs.keys = ys.keys
    · simp [hkeys, List.zip_swap]
    · simp [hkeys, Ne.symm hkeys]

end Heap

namespace Comparison

open Heap

variable {heap : Heap} {c c' d : Comparison} {t t' : Turn} {turns : List Turn}

/-! ## Where a run fails -/

/-- Everything that has been opened leads somewhere. -/
def SeenResolves (heap : Heap) (c : Comparison) : Prop :=
  ∀ s, c.seen s = true → ∃ r, heap.pairsInside s = .ok r

theorem Turn.fault_of_error {e : HeapError} (h : t.step heap = .error e) :
    heap.fault? t.pair = some e := by
  cases hopens : t.opens? with
  | none =>
    rw [t.step_of_idle heap hopens] at h
    cases h
  | some s =>
    rw [Turn.step_of_opens hopens] at h
    split at h
    · rename_i e' he
      cases h
      exact fault?_of_pairsInside_error (Turn.opens?_eq_some_iff.mp hopens).1 he
    · cases h
    · cases h

/-- A turn after which the loop goes on had no handle that leads nowhere. -/
theorem Turn.no_fault_of_goes (hseen : SeenResolves heap t.state)
    (h : t.step heap = .ok (some c')) : heap.fault? t.pair = none ∧ SeenResolves heap c' := by
  cases hopens : t.opens? with
  | some s =>
    obtain ⟨pairs, hpairs, rfl⟩ := Turn.step_opened hopens h
    refine ⟨fault?_of_pairsInside_ok (Turn.opens?_eq_some_iff.mp hopens).1 hpairs, ?_⟩
    intro s' hs'
    rcases seen_enter.mp hs' with rfl | hs'
    · exact ⟨_, hpairs⟩
    · exact hseen s' hs'
  | none =>
    obtain ⟨rfl, hsame⟩ := Turn.step_idle hopens h
    refine ⟨?_, hseen⟩
    cases hplaces : places? t.pair with
    | none =>
      obtain ⟨state, x, y⟩ := t
      obtain rfl : x = y := by simpa [hplaces] using hsame
      exact fault?_of_same hplaces
    | some s =>
      obtain ⟨r, hr⟩ := hseen s (Turn.seen_of_idle hopens hplaces)
      exact fault?_of_pairsInside_ok hplaces hr

/-- The error of a run is the fault of its first pair that has one. -/
theorem Loops.first_fault {e : HeapError} (h : Loops heap c turns (.error e))
    (hseen : SeenResolves heap c) :
    ∃ p, (turns.map Turn.pair).find? (fun p => (heap.fault? p).isSome) = some p ∧
      heap.fault? p = some e := by
  generalize hr : Except.error (α := Bool) e = r at h
  induction h with
  | done => cases hr
  | differs => cases hr
  | @fails c t e' hnext hstep =>
    cases hr
    have hfault := Turn.fault_of_error hstep
    exact ⟨t.pair, by simp [hfault], hfault⟩
  | @goes c c' t turns r hnext hstep _ ih =>
    have hstate : SeenResolves heap t.state := by
      rw [SeenResolves, seen_next hnext]
      exact hseen
    obtain ⟨hnone, hseen'⟩ := Turn.no_fault_of_goes hstate hstep
    obtain ⟨p, hp, hfault⟩ := ih hseen' hr
    exact ⟨p, by simpa [hnone] using hp, hfault⟩

/-! ## Two runs in step -/

/-- The second comparison stands where the first does, with all pairs exchanged. -/
structure Mirrors (c d : Comparison) : Prop where
  pending : d.pending = c.pending.map Prod.swap
  seen : ∀ s : PlacePair, d.seen s.swap = c.seen s

theorem Mirrors.enter (h : c.Mirrors d) (pairs : List (Item × Item)) (s : PlacePair) :
    (c.enter pairs s).Mirrors (d.enter (pairs.map Prod.swap) s.swap) where
  pending := by simp [h.pending]
  seen := by
    intro s'
    rw [Bool.eq_iff_iff, seen_enter, seen_enter, h.seen]
    exact or_congr_left ⟨fun heq => by simpa using congrArg PlacePair.swap heq, congrArg _⟩

theorem Mirrors.next_none (h : c.Mirrors d) (hnext : c.next? = none) : d.next? = none := by
  rw [next?_eq_none_iff] at hnext ⊢
  rw [h.pending, hnext]
  rfl

/-- Two turns on the same pair, with its items exchanged. -/
structure Turn.Mirrors (t t' : Turn) : Prop where
  state : t.state.Mirrors t'.state
  pair : t'.pair = t.pair.swap

theorem Mirrors.next (h : c.Mirrors d) (hnext : c.next? = some t) :
    ∃ t', d.next? = some t' ∧ t.Mirrors t' := by
  obtain ⟨hpending, hstate⟩ := next?_eq_some_iff.mp hnext
  have hd := h.pending
  rw [hpending, List.map_cons] at hd
  refine ⟨⟨{ d with pending := t.state.pending.map Prod.swap }, t.pair.swap⟩,
    next?_eq_some_iff.mpr ⟨hd, rfl⟩, ⟨rfl, ?_⟩, rfl⟩
  intro s
  rw [hstate]
  exact h.seen s

theorem Turn.Mirrors.opens (h : t.Mirrors t') : t'.opens? = t.opens?.map PlacePair.swap := by
  rw [opens?, opens?, h.pair, places?_swap]
  cases places? t.pair with
  | none => rfl
  | some s =>
    simp only [Option.map_some, Option.filter_some, h.state.seen]
    split <;> rfl

/-- Two such turns end alike: they go on in step, both show a difference, or both fail. -/
theorem Turn.Mirrors.step (heap : Heap) (h : t.Mirrors t') :
    match t.step heap with
    | .error _ => ∃ e', t'.step heap = .error e'
    | .ok none => t'.step heap = .ok none
    | .ok (some c) => ∃ d, t'.step heap = .ok (some d) ∧ c.Mirrors d := by
  have hopens := h.opens
  cases hplace : t.opens? with
  | none =>
    rw [hplace, Option.map_none] at hopens
    have hequal : t'.pair.1 = t'.pair.2 ↔ t.pair.1 = t.pair.2 := by
      rw [h.pair]
      exact eq_comm
    have hplaces : (places? t'.pair).isSome = (places? t.pair).isSome := by
      rw [h.pair, places?_swap, Option.isSome_map]
    rw [Turn.step_of_idle heap hplace, Turn.step_of_idle heap hopens]
    simp only [hplaces, hequal]
    by_cases hsame : (places? t.pair).isSome ∨ t.pair.1 = t.pair.2
    · simp only [hsame, if_true]
      exact ⟨t'.state, rfl, h.state⟩
    · simp only [hsame, if_false]
  | some s =>
    rw [hplace, Option.map_some] at hopens
    rw [Turn.step_of_opens hplace, Turn.step_of_opens hopens]
    cases hpairs : heap.pairsInside s with
    | error e =>
      have hfault : (heap.fault? t'.pair).isSome := by
        rw [h.pair, isSome_fault?_swap, fault?_of_pairsInside_error
          (Turn.opens?_eq_some_iff.mp hplace).1 hpairs]
        rfl
      cases hpairs' : heap.pairsInside s.swap with
      | error e' => exact ⟨e', rfl⟩
      | ok r =>
        rw [fault?_of_pairsInside_ok (Turn.opens?_eq_some_iff.mp hopens).1 hpairs'] at hfault
        cases hfault
    | ok r =>
      rw [pairsInside_swap hpairs]
      cases r with
      | none => rfl
      | some pairs => exact ⟨_, rfl, h.state.enter pairs s⟩

/-- Runs from comparisons in step take up the same pairs, exchanged, and end alike. -/
theorem Loops.mirrored {r : Except HeapError Bool} (h : Loops heap c turns r) (hm : c.Mirrors d) :
    ∃ turns' r', Loops heap d turns' r' ∧
      turns'.map Turn.pair = (turns.map Turn.pair).map Prod.swap ∧
      ∀ v, r = .ok v ↔ r' = .ok v := by
  induction h generalizing d with
  | done hnext => exact ⟨[], _, .done (hm.next_none hnext), rfl, fun v => Iff.rfl⟩
  | @fails c t e hnext hstep =>
    obtain ⟨t', hnext', ht⟩ := hm.next hnext
    have hstep' := ht.step heap
    rw [hstep] at hstep'
    obtain ⟨e', hstep'⟩ := hstep'
    exact ⟨[t'], _, .fails hnext' hstep', by simp [ht.pair], fun v => by simp⟩
  | @differs c t hnext hstep =>
    obtain ⟨t', hnext', ht⟩ := hm.next hnext
    have hstep' := ht.step heap
    rw [hstep] at hstep'
    exact ⟨[t'], _, .differs hnext' hstep', by simp [ht.pair], fun v => Iff.rfl⟩
  | @goes c c' t turns r hnext hstep _ ih =>
    obtain ⟨t', hnext', ht⟩ := hm.next hnext
    have hstep' := ht.step heap
    rw [hstep] at hstep'
    obtain ⟨d', hstep', hm'⟩ := hstep'
    obtain ⟨turns', r', hloops, hpairs, hr⟩ := ih hm'
    exact ⟨t' :: turns', r', .goes hnext' hstep' hloops, by simp [ht.pair, hpairs], hr⟩

/-- Runs that give the same verdicts fail together. -/
theorem exists_error_iff {r r' : Except HeapError Bool} (h : ∀ v, r = .ok v ↔ r' = .ok v) :
    (∃ e, r = .error e) ↔ ∃ e, r' = .error e := by
  cases r with
  | error e =>
    cases r' with
    | error e' => simp
    | ok v => cases (h v).mpr rfl
  | ok v =>
    rw [(h v).mp rfl]

theorem mirrors_start (a b : Item) :
    Comparison.Mirrors { pending := [(a, b)] } { pending := [(b, a)] } where
  pending := rfl
  seen := by rintro (⟨x, y⟩ | ⟨x, y⟩) <;> simp [seen, PlacePair.swap]

theorem seenResolves_start (heap : Heap) (a b : Item) :
    SeenResolves heap { pending := [(a, b)] } := by
  rintro (⟨x, y⟩ | ⟨x, y⟩) hs <;> simp [seen] at hs

end Comparison

open Comparison

/-- Comparing two items the other way round gives the same verdict, and fails exactly when comparing
them does. The two runs take up the same pairs, exchanged. If they fail, it is at the first of these
pairs that has a handle which leads nowhere: each run names the handle of its own first item, if
that one leads nowhere, else the other. So both name one handle unless both of the pair lead
nowhere. -/
theorem sameContent_mirrored (heap : Heap) (a b : Item) :
    (∀ v, heap.sameContent a b = .ok v ↔ heap.sameContent b a = .ok v) ∧
    ((∃ e, heap.sameContent a b = .error e) ↔ ∃ e, heap.sameContent b a = .error e) ∧
    ∃ turns turns', Loops heap { pending := [(a, b)] } turns (heap.sameContent a b) ∧
      Loops heap { pending := [(b, a)] } turns' (heap.sameContent b a) ∧
      turns'.map Turn.pair = (turns.map Turn.pair).map Prod.swap ∧
      ∀ e e', heap.sameContent a b = .error e → heap.sameContent b a = .error e' →
        ∃ x y, (turns.map Turn.pair).find? (fun p => (heap.fault? p).isSome) = some (x, y) ∧
          heap.fault? (x, y) = some e ∧ heap.fault? (y, x) = some e' ∧
          (e = e' ∨ ∃ i j, heap.dangling? x = some i ∧ heap.dangling? y = some j ∧
            e = .badHandle i ∧ e' = .badHandle j) := by
  obtain ⟨turns, hloops⟩ : ∃ turns, Loops heap _ turns (heap.sameContent a b) :=
    exists_loops heap { pending := [(a, b)] }
  obtain ⟨turns', r', hloops', hpairs, hverdict⟩ := hloops.mirrored (mirrors_start a b)
  obtain ⟨_, hrun⟩ := exists_loops heap { pending := [(b, a)] }
  obtain rfl : r' = heap.sameContent b a := (hrun.unique hloops').2
  refine ⟨hverdict, exists_error_iff hverdict, turns, turns', hloops, hloops', hpairs, ?_⟩
  intro e e' he he'
  rw [he] at hloops
  rw [he'] at hloops'
  obtain ⟨⟨x, y⟩, hfirst, hfault⟩ := hloops.first_fault (seenResolves_start heap a b)
  obtain ⟨p, hfirst', hfault'⟩ := hloops'.first_fault (seenResolves_start heap b a)
  have hsame : (fun q => (heap.fault? q).isSome) ∘ Prod.swap = fun q => (heap.fault? q).isSome :=
    funext (Heap.isSome_fault?_swap heap)
  rw [hpairs, List.find?_map, hsame, hfirst] at hfirst'
  cases hfirst'
  exact ⟨x, y, hfirst, hfault, hfault', Heap.fault?_eq_or hfault hfault'⟩

end ScriptHost

import Mathlib.Algebra.Ring.Nat
import ScriptHost.Proofs.Comparing

/-!
# ScriptHost.Proofs.ComparingWork

How much work comparing is. `Comparison.Loops` is the loop as a finite run: the turns it takes, one
pending pair each, and what it returns. Comparing has exactly one such run on every heap. A turn
opens two containers that were not opened before, or it is done with its pair. So no two containers
are opened twice, and there are no more turns than the first pair and those that openings add
(`sameContent_terminates`).
-/

namespace ScriptHost

/-- How many pairs of items two containers add when they are opened. -/
def Heap.breadthInside (heap : Heap) (s : PlacePair) : Nat :=
  match heap.pairsInside s with
  | .ok (some pairs) => pairs.length
  | _ => 0

namespace Comparison

variable {heap : Heap}

/-! ## Turns -/

/-- One turn of the loop: the pair it takes up, and the comparison without that pair. -/
structure Turn where
  state : Comparison
  pair : Item × Item

/-- The turn that comes next; `none` when no pair is left. -/
def next? (c : Comparison) : Option Turn :=
  match c.pending with
  | [] => none
  | pair :: rest => some { state := { c with pending := rest }, pair }

/-- The two containers that the turn opens. -/
def Turn.opens? (t : Turn) : Option PlacePair := (places? t.pair).filter (!t.state.seen ·)

/-- What the loop goes on with after the turn; `none` is a difference. -/
def Turn.step (heap : Heap) (t : Turn) : Except HeapError (Option Comparison) :=
  t.state.step heap t.pair

variable {c c' : Comparison} {t : Turn} {s : PlacePair}

theorem next?_eq_none_iff : c.next? = none ↔ c.pending = [] := by
  unfold next?
  split <;> simp_all

theorem next?_eq_some_iff :
    c.next? = some t ↔ c.pending = t.pair :: t.state.pending ∧
      t.state = { c with pending := t.state.pending } := by
  obtain ⟨state, pair⟩ := t
  unfold next?
  split
  · simp_all
  · rename_i first rest hp
    simp only [hp, Option.some.injEq, Turn.mk.injEq, List.cons.injEq]
    constructor
    · rintro ⟨rfl, rfl⟩
      exact ⟨⟨rfl, rfl⟩, rfl⟩
    · rintro ⟨⟨rfl, rfl⟩, hstate⟩
      exact ⟨hstate.symm, rfl⟩

theorem seen_next (h : c.next? = some t) : t.state.seen = c.seen := by
  rw [(next?_eq_some_iff.mp h).2]
  rfl

theorem unopened_next (h : c.next? = some t) : unopened heap t.state = unopened heap c := by
  rw [(next?_eq_some_iff.mp h).2]
  rfl

theorem length_next (h : c.next? = some t) :
    c.pending.length = t.state.pending.length + 1 := by
  rw [(next?_eq_some_iff.mp h).1, List.length_cons]

theorem Turn.opens?_eq_some_iff :
    t.opens? = some s ↔ places? t.pair = some s ∧ t.state.seen s = false := by
  simp [opens?, Option.filter_eq_some_iff]

theorem Turn.step_of_opens (h : t.opens? = some s) :
    t.step heap =
      match heap.pairsInside s with
      | .error e => .error e
      | .ok none => .ok none
      | .ok (some pairs) => .ok (some (t.state.enter pairs s)) := by
  obtain ⟨hplaces, hnew⟩ := opens?_eq_some_iff.mp h
  rw [Turn.step, step_eq, hplaces]
  exact if_neg (Bool.eq_false_iff.mp hnew)

/-- A turn that goes on after opening two containers has added the pairs inside. -/
theorem Turn.step_opened (h : t.opens? = some s) (hstep : t.step heap = .ok (some c')) :
    ∃ pairs, heap.pairsInside s = .ok (some pairs) ∧ c' = t.state.enter pairs s := by
  rw [step_of_opens h] at hstep
  split at hstep
  · cases hstep
  · cases hstep
  · rename_i pairs hpairs
    cases hstep
    exact ⟨pairs, hpairs, rfl⟩

theorem Turn.seen_of_idle (h : t.opens? = none) (hplaces : places? t.pair = some s) :
    t.state.seen s = true := by
  cases hseen : t.state.seen s with
  | true => rfl
  | false =>
    rw [opens?_eq_some_iff.mpr ⟨hplaces, hseen⟩] at h
    cases h

/-- A turn that opens nothing has used up its pair, and changes nothing else. -/
theorem Turn.step_of_idle (heap : Heap) (h : t.opens? = none) :
    t.step heap =
      .ok (if (places? t.pair).isSome ∨ t.pair.1 = t.pair.2 then some t.state else none) := by
  rw [Turn.step, step_eq]
  cases hplaces : places? t.pair with
  | none => simp
  | some s => simp [openPlaces, Turn.seen_of_idle h hplaces]

theorem Turn.step_idle (h : t.opens? = none) (hstep : t.step heap = .ok (some c')) :
    c' = t.state ∧ ((places? t.pair).isSome ∨ t.pair.1 = t.pair.2) := by
  rw [step_of_idle heap h] at hstep
  split at hstep
  · rename_i hsame
    cases hstep
    exact ⟨rfl, hsame⟩
  · cases hstep

/-! ## The loop as a finite run -/

/-- The loop takes these turns and returns this. A turn that fails or shows a difference is the
last. -/
inductive Loops (heap : Heap) : Comparison → List Turn → Except HeapError Bool → Prop
  | done {c : Comparison} : c.next? = none → Loops heap c [] (.ok true)
  | fails {c : Comparison} {t : Turn} {e : HeapError} :
      c.next? = some t → t.step heap = .error e → Loops heap c [t] (.error e)
  | differs {c : Comparison} {t : Turn} :
      c.next? = some t → t.step heap = .ok none → Loops heap c [t] (.ok false)
  | goes {c c' : Comparison} {t : Turn} {turns : List Turn} {r : Except HeapError Bool} :
      c.next? = some t → t.step heap = .ok (some c') → Loops heap c' turns r →
      Loops heap c (t :: turns) r

variable {turns turns' : List Turn} {r r' : Except HeapError Bool}

theorem exists_loops (heap : Heap) (c : Comparison) : ∃ turns, Loops heap c turns (run heap c) := by
  fun_induction run heap c with
  | case1 c hp => exact ⟨[], .done (next?_eq_none_iff.mpr hp)⟩
  | case2 c pair rest hp e hstep =>
    exact ⟨[⟨_, pair⟩], .fails (next?_eq_some_iff.mpr ⟨hp, rfl⟩) hstep⟩
  | case3 c pair rest hp hstep =>
    exact ⟨[⟨_, pair⟩], .differs (next?_eq_some_iff.mpr ⟨hp, rfl⟩) hstep⟩
  | case4 c pair rest hp c' hstep _ _ ih =>
    obtain ⟨turns, hloops⟩ := ih
    exact ⟨⟨_, pair⟩ :: turns, .goes (next?_eq_some_iff.mpr ⟨hp, rfl⟩) hstep hloops⟩

theorem Loops.unique (h : Loops heap c turns r) (h' : Loops heap c turns' r') :
    turns' = turns ∧ r' = r := by
  induction h generalizing turns' r' with
  | done hnext => cases h' <;> grind
  | fails hnext hstep => cases h' <;> grind
  | differs hnext hstep => cases h' <;> grind
  | goes hnext hstep _ ih => cases h' <;> grind

/-! ## What is opened, and how often -/

/-- The containers opened in a run are all different, and none was opened before it. -/
theorem Loops.opened_new (h : Loops heap c turns r) :
    (turns.filterMap Turn.opens?).Nodup ∧
      ∀ s ∈ turns.filterMap Turn.opens?, c.seen s = false := by
  have single {c : Comparison} {t : Turn} (hnext : c.next? = some t) :
      ([t].filterMap Turn.opens?).Nodup ∧ ∀ s ∈ [t].filterMap Turn.opens?, c.seen s = false := by
    cases hopens : t.opens? with
    | none => simp [hopens]
    | some s => simpa [hopens, seen_next hnext] using (Turn.opens?_eq_some_iff.mp hopens).2
  induction h with
  | done => simp
  | fails hnext => exact single hnext
  | differs hnext => exact single hnext
  | @goes c c' t turns r hnext hstep _ ih =>
    obtain ⟨hnodup, hnew⟩ := ih
    cases hopens : t.opens? with
    | none =>
      rw [List.filterMap_cons_none hopens]
      rw [(Turn.step_idle hopens hstep).1, seen_next hnext] at hnew
      exact ⟨hnodup, hnew⟩
    | some s =>
      obtain ⟨pairs, -, rfl⟩ := Turn.step_opened hopens hstep
      have hs := (Turn.opens?_eq_some_iff.mp hopens).2
      rw [seen_next hnext] at hs
      have hlater : ∀ s' ∈ turns.filterMap Turn.opens?, s ≠ s' ∧ c.seen s' = false := by
        intro s' hs'
        have hunseen := Bool.eq_false_iff.mp (hnew s' hs')
        rw [ne_eq, seen_enter, not_or, seen_next hnext] at hunseen
        exact ⟨hunseen.1, Bool.eq_false_iff.mpr hunseen.2⟩
      rw [List.filterMap_cons_some hopens]
      exact ⟨List.nodup_cons.mpr ⟨fun hmem => (hlater s hmem).1 rfl, hnodup⟩,
        List.forall_mem_cons.mpr ⟨hs, fun s' hs' => (hlater s' hs').2⟩⟩

/-- Every opening but the last uses up a pair of containers that the heap has. -/
theorem Loops.opened_le (h : Loops heap c turns r) :
    (turns.filterMap Turn.opens?).length ≤ unopened heap c + 1 := by
  have single (t : Turn) (n : Nat) : ([t].filterMap Turn.opens?).length ≤ n + 1 :=
    Nat.le_trans (List.length_filterMap_le _ _) (Nat.le_add_left 1 n)
  induction h with
  | done => exact Nat.zero_le _
  | fails => exact single _ _
  | differs => exact single _ _
  | @goes c c' t turns r hnext hstep _ ih =>
    rw [← unopened_next hnext]
    cases hopens : t.opens? with
    | none =>
      rw [List.filterMap_cons_none hopens, ← (Turn.step_idle hopens hstep).1]
      exact ih
    | some s =>
      obtain ⟨pairs, -, rfl⟩ := Turn.step_opened hopens hstep
      have hfewer : unopened heap (t.state.enter pairs s) < unopened heap t.state := by
        refine (step_decreases hstep).resolve_right fun hsame => ?_
        have hseen : (t.state.enter pairs s).seen s = true := seen_enter.mpr (.inl rfl)
        rw [hsame, (Turn.opens?_eq_some_iff.mp hopens).2] at hseen
        cases hseen
      rw [List.filterMap_cons_some hopens, List.length_cons]
      omega

/-- A run takes no more turns than there are pairs at its start, and pairs that openings add. -/
theorem Loops.length_le (h : Loops heap c turns r) :
    turns.length ≤
      c.pending.length + ((turns.filterMap Turn.opens?).map heap.breadthInside).sum := by
  induction h with
  | done => exact Nat.zero_le _
  | fails hnext =>
    rw [length_next hnext, List.length_singleton]
    omega
  | differs hnext =>
    rw [length_next hnext, List.length_singleton]
    omega
  | @goes c c' t turns r hnext hstep _ ih =>
    rw [length_next hnext, List.length_cons]
    cases hopens : t.opens? with
    | none =>
      rw [(Turn.step_idle hopens hstep).1] at ih
      rw [List.filterMap_cons_none hopens]
      omega
    | some s =>
      obtain ⟨pairs, hpairs, rfl⟩ := Turn.step_opened hopens hstep
      have hadded : heap.breadthInside s = pairs.length := by rw [Heap.breadthInside, hpairs]
      rw [pending_enter, List.length_append, List.length_reverse] at ih
      rw [List.filterMap_cons_some hopens, List.map_cons, List.sum_cons, hadded]
      omega

theorem length_handlePairs (n : Nat) : (handlePairs n).length = n ^ 2 := by
  simp [handlePairs, List.length_flatMap, Function.comp_def, List.map_const', Nat.pow_two]

theorem unopened_le (heap : Heap) (c : Comparison) :
    unopened heap c ≤ heap.arrays.size ^ 2 + heap.maps.size ^ 2 := by
  rw [← length_handlePairs, ← length_handlePairs]
  exact Nat.add_le_add List.countP_le_length List.countP_le_length

end Comparison

open Comparison

/-- On every heap, with cycles, sharing and handles that lead nowhere, comparing is one finite run
of the loop. A turn opens two containers, or it has used up its pair and changes nothing else. No
two containers are opened twice, every opening but the last is of containers that the heap has, and
there are no more turns than the first pair and those that openings add. -/
theorem sameContent_terminates (heap : Heap) (a b : Item) :
    (∀ t : Turn, t.opens? = none →
      t.step heap = .ok (some t.state) ∨ t.step heap = .ok none) ∧
    ∃ turns, Loops heap { pending := [(a, b)] } turns (heap.sameContent a b) ∧
      (∀ turns' r, Loops heap { pending := [(a, b)] } turns' r →
        turns' = turns ∧ r = heap.sameContent a b) ∧
      (turns.filterMap Turn.opens?).Nodup ∧
      (turns.filterMap Turn.opens?).length ≤ heap.arrays.size ^ 2 + heap.maps.size ^ 2 + 1 ∧
      turns.length ≤ 1 + ((turns.filterMap Turn.opens?).map heap.breadthInside).sum := by
  have idle (t : Turn) (hopens : t.opens? = none) :
      t.step heap = .ok (some t.state) ∨ t.step heap = .ok none := by
    rw [Turn.step_of_idle heap hopens]
    split
    · exact .inl rfl
    · exact .inr rfl
  refine ⟨idle, ?_⟩
  obtain ⟨turns, hloops⟩ := exists_loops heap { pending := [(a, b)] }
  refine ⟨turns, hloops, fun turns' r h => hloops.unique h, hloops.opened_new.1, ?_,
    hloops.length_le⟩
  exact Nat.le_trans hloops.opened_le (Nat.add_le_add_right (unopened_le heap _) 1)

end ScriptHost

import Mathlib.Data.List.Lex
import Mathlib.Data.List.Sort
import ScriptHost.Proofs.Visits

/-!
# ScriptHost.Proofs.Positions

The nodes of the unfolding of an item, be it finite or not, by where they stand. A position is the
list of the indices by which one comes to a node from the outermost item, and writing goes through
the positions in lexicographic order: what stands around a node comes before it, and of two nodes
side by side all that is inside the first comes before the second. The positions up to one of them,
if they are finitely many, are one list in that order (`UpTo`, `UpTo.unique`), and `written` is what
their nodes add to the output. A walk that goes on from each position to those directly inside it
meets them in that order (`Frontier.upTo`, `Frontier.advance`).
-/

namespace ScriptHost

/-- Where a node stands: at each level, how many nodes stand in front of the one to go into. -/
abbrev Position := List Nat

namespace Position

variable {p q r : Position} {i j : Nat}

/-- All of what stands at `p` comes before what stands at `q`. -/
def Precedes (p q : Position) : Prop := p < q ∧ ¬p <+: q

theorem le_of_isPrefix (h : p <+: q) : p ≤ q := by
  obtain ⟨r, rfl⟩ := h
  exact not_lt.mp List.le_append_left

theorem concat_lt_concat (p : Position) (h : i < j) : p ++ [i] < p ++ [j] :=
  List.append_left_lt (List.cons_lt_cons_iff.mpr (.inl h))

theorem lt_concat (p : Position) (i : Nat) : p < p ++ [i] :=
  (le_of_isPrefix (List.prefix_append p [i])).lt_of_ne (by simp)

theorem Precedes.append_lt (h : Precedes p q) (r : Position) : p ++ r < q := by
  rcases List.lt_iff_exists.mp h.1 with ⟨hp, -⟩ | ⟨i, hi, hj, hsame, hlt⟩
  · exact absurd (List.prefix_iff_eq_take.mpr hp) h.2
  · refine List.lt_iff_exists.mpr (.inr ⟨i, by rw [List.length_append]; omega, hj, ?_, ?_⟩)
    · intro k hk
      rw [List.getElem_append_left (by omega)]
      exact hsame k hk
    · rw [List.getElem_append_left hi]
      exact hlt

theorem Precedes.append (h : Precedes p q) (r : Position) : Precedes (p ++ r) q :=
  ⟨h.append_lt r, fun hpre => h.2 ((List.prefix_append p r).trans hpre)⟩

/-- The positions directly inside this one. -/
def inside (p : Position) (count : Nat) : List Position := (List.range count).map fun i => p ++ [i]

theorem mem_inside {count : Nat} : q ∈ p.inside count ↔ ∃ i < count, q = p ++ [i] := by
  simp [inside, eq_comm]

theorem pairwise_inside (p : Position) (count : Nat) : (p.inside count).Pairwise Precedes := by
  rw [inside, List.pairwise_map]
  refine List.pairwise_lt_range.imp fun {i j} hij => ⟨concat_lt_concat p hij, fun hpre => ?_⟩
  rw [List.prefix_append_right_inj, List.cons_prefix_cons] at hpre
  omega

end Position

namespace Heap

/-- What stands at a position inside an item. -/
def itemAt (heap : Heap) (x : Item) : Position → Option Item
  | [] => some x
  | i :: p => (heap.parts x)[i]?.bind fun y => heap.itemAt y p

variable {heap : Heap} {x y : Item} {p q : Position} {i : Nat} {s : ArrayRef ⊕ MapRef}

theorem itemAt_append (x : Item) (p q : Position) :
    heap.itemAt x (p ++ q) = (heap.itemAt x p).bind fun y => heap.itemAt y q := by
  induction p generalizing x with
  | nil => rfl
  | cons i p ih =>
    rw [List.cons_append, itemAt, itemAt]
    cases (heap.parts x)[i]? with
    | none => rfl
    | some y => exact ih y

theorem itemAt_concat (h : heap.itemAt x p = some y) (i : Nat) :
    heap.itemAt x (p ++ [i]) = (heap.parts y)[i]? := by
  rw [itemAt_append, h, Option.bind_some, itemAt]
  cases (heap.parts y)[i]? <;> rfl

theorem itemAt_of_isPrefix (hpre : p <+: q) (h : (heap.itemAt x q).isSome) :
    ∃ y, heap.itemAt x p = some y := by
  obtain ⟨r, rfl⟩ := hpre
  rw [itemAt_append] at h
  exact Option.isSome_iff_exists.mp (Option.isSome_of_isSome_bind h)

/-- What stands below a position stands there or below one of those directly inside. -/
theorem eq_or_inside_of_isPrefix (h : heap.itemAt x p = some y) (hpre : p <+: q)
    (hq : (heap.itemAt x q).isSome) :
    q = p ∨ ∃ r ∈ p.inside (heap.parts y).length, r <+: q := by
  obtain ⟨r, rfl⟩ := hpre
  cases r with
  | nil => exact .inl (List.append_nil p)
  | cons i r =>
    have hcons : p ++ [i] <+: p ++ i :: r := ⟨r, by simp⟩
    obtain ⟨z, hz⟩ := itemAt_of_isPrefix hcons hq
    rw [itemAt_concat h] at hz
    obtain ⟨hi, _⟩ := List.getElem?_eq_some_iff.mp hz
    exact .inr ⟨p ++ [i], Position.mem_inside.mpr ⟨i, hi, rfl⟩, hcons⟩

/-- The container at the place `s` is one of those around the position. -/
def Around (heap : Heap) (x : Item) (p : Position) (s : ArrayRef ⊕ MapRef) : Prop :=
  ∃ q y, q <+: p ∧ q ≠ p ∧ heap.itemAt x q = some y ∧ y.slot? = some s

theorem not_around_nil : ¬heap.Around x [] s := by
  rintro ⟨q, y, hpre, hne, -⟩
  exact hne (List.prefix_nil.mp hpre)

theorem around_concat (h : heap.itemAt x p = some y) (i : Nat) :
    heap.Around x (p ++ [i]) s ↔ y.slot? = some s ∨ heap.Around x p s := by
  constructor
  · rintro ⟨q, z, hpre, hne, hz, hslot⟩
    rcases List.prefix_concat_iff.mp hpre with rfl | hpre
    · exact absurd rfl hne
    · by_cases hq : q = p
      · subst hq
        rw [h] at hz
        cases hz
        exact .inl hslot
      · exact .inr ⟨q, z, hpre, hq, hz, hslot⟩
  · rintro (hslot | ⟨q, z, hpre, hne, hz, hslot⟩)
    · exact ⟨p, y, List.prefix_append p [i], by simp, h, hslot⟩
    · refine ⟨q, z, hpre.trans (List.prefix_append p [i]), ?_, hz, hslot⟩
      rintro rfl
      have hlen := hpre.length_le
      rw [List.length_append, List.length_singleton] at hlen
      omega

/-! ## The positions up to one -/

/-- The positions that come no later than `p`, in order. -/
structure UpTo (heap : Heap) (x : Item) (p : Position) (ps : List Position) : Prop where
  sorted : ps.SortedLT
  mem_iff : ∀ q, q ∈ ps ↔ q ≤ p ∧ (heap.itemAt x q).isSome

theorem UpTo.unique {ps qs : List Position} (hps : heap.UpTo x p ps) (hqs : heap.UpTo x p qs) :
    ps = qs :=
  hps.sorted.eq_of_mem_iff hqs.sorted fun q => by rw [hps.mem_iff, hqs.mem_iff]

/-! ## A walk through the positions -/

/-- What is left after the positions of `done`, in order: all that stands at a position of `front`
or inside of it. -/
structure Frontier (heap : Heap) (x : Item) (done front : List Position) : Prop where
  sorted : done.SortedLT
  apart : front.Pairwise Position.Precedes
  before : ∀ q ∈ done, ∀ r ∈ front, q < r
  found : ∀ q ∈ done, (heap.itemAt x q).isSome
  cover : ∀ q, (heap.itemAt x q).isSome → q ∈ done ∨ ∃ r ∈ front, r <+: q

theorem frontier_start : heap.Frontier x [] [[]] where
  sorted := List.Pairwise.nil.sortedLT
  apart := List.pairwise_singleton _ _
  before := by simp
  found := by simp
  cover q _ := .inr ⟨[], List.mem_singleton_self _, List.nil_prefix⟩

variable {done front : List Position}

theorem Frontier.upTo (h : heap.Frontier x done (p :: front)) (hp : heap.itemAt x p = some y) :
    heap.UpTo x p (done ++ [p]) where
  sorted := by
    refine (List.pairwise_append.mpr ⟨h.sorted.pairwise, List.pairwise_singleton _ _, ?_⟩).sortedLT
    intro q hq r hr
    rw [List.mem_singleton.mp hr]
    exact h.before q hq p List.mem_cons_self
  mem_iff q := by
    rw [List.mem_append, List.mem_singleton]
    constructor
    · rintro (hq | rfl)
      · exact ⟨(h.before q hq p List.mem_cons_self).le, h.found q hq⟩
      · exact ⟨le_refl q, by rw [hp]; rfl⟩
    · rintro ⟨hle, hq⟩
      rcases h.cover q hq with hdone | ⟨r, hr, hpre⟩
      · exact .inl hdone
      · have hrq := Position.le_of_isPrefix hpre
        rcases List.mem_cons.mp hr with rfl | hr
        · exact .inr (le_antisymm hle hrq)
        · have hpr := (List.rel_of_pairwise_cons h.apart hr).1
          exact absurd (hpr.trans_le hrq) (not_lt.mpr hle)

/-- Past `p` comes what stands directly inside. -/
theorem Frontier.advance (h : heap.Frontier x done (p :: front)) (hp : heap.itemAt x p = some y) :
    heap.Frontier x (done ++ [p]) (p.inside (heap.parts y).length ++ front) where
  sorted := (h.upTo hp).sorted
  apart := by
    refine List.pairwise_append.mpr ⟨Position.pairwise_inside p _, h.apart.of_cons, ?_⟩
    intro q hq r hr
    obtain ⟨i, -, rfl⟩ := Position.mem_inside.mp hq
    exact (List.rel_of_pairwise_cons h.apart hr).append [i]
  before q hq r hr := by
    have hqp : q ≤ p := ((h.upTo hp).mem_iff q).mp hq |>.1
    rcases List.mem_append.mp hr with hr | hr
    · obtain ⟨i, -, rfl⟩ := Position.mem_inside.mp hr
      exact hqp.trans_lt (Position.lt_concat p i)
    · exact hqp.trans_lt (List.rel_of_pairwise_cons h.apart hr).1
  found q hq := ((h.upTo hp).mem_iff q).mp hq |>.2
  cover q hq := by
    rcases h.cover q hq with hdone | ⟨r, hr, hpre⟩
    · exact .inl (List.mem_append_left _ hdone)
    · rcases List.mem_cons.mp hr with rfl | hr
      · rcases eq_or_inside_of_isPrefix hp hpre hq with rfl | ⟨r, hr, hpre⟩
        · exact .inl (List.mem_append_right _ (List.mem_singleton_self _))
        · exact .inr ⟨r, List.mem_append_left _ hr, hpre⟩
      · exact .inr ⟨r, List.mem_append_right _ hr, hpre⟩

theorem Frontier.mem_done (h : heap.Frontier x done []) {q : Position}
    (hq : (heap.itemAt x q).isSome) : q ∈ done := by
  rcases h.cover q hq with hdone | ⟨r, hr, -⟩
  · exact hdone
  · cases hr

/-- What the nodes at these positions add to the output. -/
def written (heap : Heap) (x : Item) (ps : List Position) : Bytes :=
  ps.flatMap fun p => ((heap.itemAt x p).map heap.ownBytes).getD []

theorem written_concat (hp : heap.itemAt x p = some y) (ps : List Position) :
    heap.written x (ps ++ [p]) = heap.written x ps ++ heap.ownBytes y := by
  simp [written, hp]

end Heap

end ScriptHost

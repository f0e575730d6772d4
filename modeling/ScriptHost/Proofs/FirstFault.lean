import ScriptHost.Proofs.Positions
import ScriptHost.Proofs.Writing

/-!
# ScriptHost.Proofs.FirstFault

Which error comes of writing. `Encoder.Fault` is what can be wrong at a position of the unfolding:
a host reference, a container inside itself, a handle that dangles, or an output that is too long
once the node there is written. An error is that of the first position, in the order of writing, at
which anything is wrong (`encode_firstFault`), and there is one as soon as anything is wrong
anywhere. The unfolding may be infinite; what comes up to the first fault is not.

The invariant of the run is `Walking`: the pending nodes stand at the front of a walk through the
positions, and the containers whose markers are pending behind a node are those around it.
-/

namespace ScriptHost

namespace Encoder

/-- What is wrong at a position; what is looked at later does not count where an earlier check
has failed. -/
inductive Fault (heap : Heap) (x : Item) (limits : Limits) (p : Position) : EncodeError → Prop
  | host {r : HostRef} : heap.itemAt x p = some (.host r) →
      Fault heap x limits p (.unsupportedValue "Interop")
  | circular {y : Item} {c : ArrayRef ⊕ MapRef} : heap.itemAt x p = some y → y.slot? = some c →
      heap.Around x p c → Fault heap x limits p .circularReference
  | dangling {y : Item} {c : ArrayRef ⊕ MapRef} : heap.itemAt x p = some y → y.slot? = some c →
      ¬heap.Around x p c → ¬heap.Has c →
      Fault heap x limits p (.heap (.badHandle (c.elim ArrayRef.index MapRef.index)))
  | tooLarge {y : Item} {ps : List Position} : heap.itemAt x p = some y → (∀ r, y ≠ .host r) →
      (∀ c, y.slot? = some c → ¬heap.Around x p c ∧ heap.Has c) → heap.UpTo x p ps →
      limits.itemSize.toNat < (heap.written x ps).length →
      Fault heap x limits p (.itemTooLarge limits.itemSize)

/-- Nothing is wrong before `p`, and there it is this. -/
structure FirstFault (heap : Heap) (x : Item) (limits : Limits) (p : Position) (e : EncodeError) :
    Prop where
  fault : Fault heap x limits p e
  first : ∀ q < p, ∀ e', ¬Fault heap x limits q e'

variable {heap : Heap} {limits : Limits} {x y : Item} {p q : Position} {e e' : EncodeError}
  {c : ArrayRef ⊕ MapRef}

theorem Fault.found (h : Fault heap x limits p e) : (heap.itemAt x p).isSome := by
  cases h with
  | host hp => rw [hp]; rfl
  | circular hp => rw [hp]; rfl
  | dangling hp => rw [hp]; rfl
  | tooLarge hp => rw [hp]; rfl

theorem Fault.unique (h : Fault heap x limits p e) (h' : Fault heap x limits p e') : e = e' := by
  have host (r : HostRef) : (Item.host r).slot? = none := rfl
  cases h with
  | host hp => cases h' <;> grind
  | circular hp hc haround => cases h' <;> grind
  | dangling hp hc hout hdangling => cases h' <;> grind
  | tooLarge hp hhost hfine => cases h' <;> grind

/-- Where nothing else is wrong, a fault means that the output is too long. -/
theorem Fault.long {ps : List Position} (h : Fault heap x limits p e)
    (hp : heap.itemAt x p = some y) (hhost : ∀ r, y ≠ .host r)
    (hfine : ∀ c, y.slot? = some c → ¬heap.Around x p c ∧ heap.Has c)
    (hps : heap.UpTo x p ps) : limits.itemSize.toNat < (heap.written x ps).length := by
  cases h with
  | host hp' => grind
  | circular hp' hc haround => grind
  | dangling hp' hc _ hdangling => grind
  | tooLarge _ _ _ hps' hlong =>
    rw [hps.unique hps']
    exact hlong

theorem FirstFault.unique (h : FirstFault heap x limits p e) (h' : FirstFault heap x limits q e') :
    p = q ∧ e = e' := by
  obtain rfl : p = q := by
    rcases lt_trichotomy p q with hlt | rfl | hlt
    · exact absurd h.fault (h'.first p hlt e)
    · rfl
    · exact absurd h'.fault (h.first q hlt e')
  exact ⟨rfl, h.fault.unique h'.fault⟩

/-! ## The pending nodes and where they stand -/

/-- The nodes among these stand at these positions, and the markers behind each of them are those of
the containers around it. -/
inductive Stands (heap : Heap) (x : Item) : List Pending → List Position → Prop
  | nil : Stands heap x [] []
  | node {node : Pending} {y : Item} {p : Position} {rest : List Pending} {ps : List Position} :
      node.item? = some y → heap.itemAt x p = some y →
      (∀ c, c ∈ closings rest ↔ heap.Around x p c) → Stands heap x rest ps →
      Stands heap x (node :: rest) (p :: ps)
  | marker {node : Pending} {c : ArrayRef ⊕ MapRef} {rest : List Pending} {ps : List Position} :
      node.closes? = some c → c ∉ closings rest → Stands heap x rest ps →
      Stands heap x (node :: rest) ps

variable {node marker : Pending} {contents rest : List Pending} {ps qs : List Position}

theorem Stands.nodes (h : Stands heap x rest ps)
    (hcontents : List.Forall₂ (fun node p => ∃ y, node.item? = some y ∧ heap.itemAt x p = some y ∧
      ∀ c, c ∈ closings rest ↔ heap.Around x p c) contents qs) :
    Stands heap x (contents ++ rest) (qs ++ ps) := by
  induction hcontents with
  | nil => exact h
  | cons hnode hcontents ih =>
    obtain ⟨y, hy, hp, haround⟩ := hnode
    refine .node hy hp (fun c => ?_) ih
    rw [List.append_eq, closings_contents hcontents fun _ _ ⟨y, hy, _⟩ => ⟨y, hy⟩]
    exact haround c

/-- The contents of a container stand directly inside it, in front of its marker. -/
theorem Stands.enter (h : Stands heap x rest ps) (hp : heap.itemAt x p = some y)
    (haround : ∀ c, c ∈ closings rest ↔ heap.Around x p c)
    (hslot : y.slot? = some c) (hout : ¬heap.Around x p c) (hmarker : marker.closes? = some c)
    (hcontents : List.Forall₂ (fun node z => node.item? = some z) contents (heap.parts y)) :
    Stands heap x (contents ++ marker :: rest) (p.inside (heap.parts y).length ++ ps) := by
  refine Stands.nodes (.marker hmarker (by rwa [haround]) h) ?_
  obtain ⟨hlen, hget⟩ := List.forall₂_iff_get.mp hcontents
  refine List.forall₂_iff_get.mpr ⟨by simp [Position.inside, hlen], fun i hi hi' => ?_⟩
  have hpart : i < (heap.parts y).length := hlen ▸ hi
  refine ⟨(heap.parts y)[i], hget i hi hpart, ?_, fun c' => ?_⟩
  · simp [Position.inside, Heap.itemAt_concat hp, hpart]
  · simp only [Position.inside, List.get_eq_getElem, List.getElem_map, List.getElem_range]
    rw [Heap.around_concat hp, closings_marker hmarker, List.mem_cons, haround, hslot,
      Option.some_inj, eq_comm]

/-! ## The run -/

/-- Where writing stands in a walk through the positions, those of `done` being written and in
order. -/
structure Walking (heap : Heap) (x : Item) (limits : Limits) (s : Encoder)
    (done front : List Position) : Prop extends heap.Frontier x done front where
  stands : Stands heap x s.pending front
  opened : ∀ c, s.Open c ↔ c ∈ closings s.pending
  written : s.out.toList = heap.written x done
  sound : ∀ q ∈ done, ∀ e, ¬Fault heap x limits q e
  short : s.out.size ≤ limits.itemSize.toNat

variable {s s' : Encoder} {done front : List Position}

/-- What a step makes of a walk: it goes on, or it has come to the first fault. -/
def Comes (heap : Heap) (x : Item) (limits : Limits) : Except EncodeError Encoder → Prop
  | .ok s' => ∃ done front, Walking heap x limits s' done front
  | .error e => ∃ p, FirstFault heap x limits p e ∧ ∃ ps, heap.UpTo x p ps

theorem Walking.firstFault (h : Walking heap x limits s done (p :: front))
    (hp : heap.itemAt x p = some y) (hfault : Fault heap x limits p e) :
    FirstFault heap x limits p e ∧ ∃ ps, heap.UpTo x p ps := by
  refine ⟨⟨hfault, fun q hq e' hearlier => ?_⟩, _, h.upTo hp⟩
  have hmem := ((h.upTo hp).mem_iff q).mpr ⟨hq.le, hearlier.found⟩
  rcases List.mem_append.mp hmem with hdone | hself
  · exact h.sound q hdone e' hearlier
  · exact hq.ne (List.mem_singleton.mp hself)

/-- A node that has been written is checked against the limit; what it has queued stands directly
inside it. -/
theorem Walking.checked (h : Walking heap x limits s done (p :: front))
    (hp : heap.itemAt x p = some y) (hhost : ∀ r, y ≠ .host r)
    (hfine : ∀ c, y.slot? = some c → ¬heap.Around x p c ∧ heap.Has c)
    (hout : s'.out = s.out ++ heap.ownBytes y)
    (hstands : Stands heap x s'.pending (p.inside (heap.parts y).length ++ front))
    (hopened : ∀ c, s'.Open c ↔ c ∈ closings s'.pending) :
    Comes heap x limits
      (if limits.itemSize.toNat < s'.out.size then .error (.itemTooLarge limits.itemSize)
        else .ok s') := by
  have hwritten : s'.out.toList = heap.written x (done ++ [p]) := by
    rw [Heap.written_concat hp, hout, Array.toList_appendList, h.written]
  have hsize : s'.out.size = (heap.written x (done ++ [p])).length := by
    rw [← hwritten, Array.length_toList]
  split
  · rename_i hlong
    exact ⟨p, h.firstFault hp (.tooLarge hp hhost hfine (h.upTo hp) (hsize ▸ hlong))⟩
  · rename_i hshort
    refine ⟨_, _, { h.toFrontier.advance hp with
      stands := hstands, opened := hopened, written := hwritten, sound := ?_,
      short := Nat.le_of_not_lt hshort }⟩
    intro q hq e hfault
    rcases List.mem_append.mp hq with hq | hq
    · exact h.sound q hq e hfault
    · rw [List.mem_singleton.mp hq] at hfault
      have hlong := hfault.long hp hhost hfine (h.upTo hp)
      rw [← hsize] at hlong
      exact hshort hlong

theorem Walking.visitNode (h : Walking heap x limits s done (p :: front))
    (hs : s.pending = node :: rest) (hnode : node.item? = some y) (hp : heap.itemAt x p = some y)
    (haround : ∀ c, c ∈ closings rest ↔ heap.Around x p c)
    (hrest : Stands heap x rest front) :
    Comes heap x limits (step heap limits { s with pending := rest } node) := by
  have hopened (c) : s.Open c ↔ c ∈ closings rest := by
    rw [h.opened, hs, closings_node hnode]
  have hsame (z) (hz : node.item? = some z) : y = z := by
    rw [hnode] at hz
    exact Option.some_inj.mp hz
  have hvisited := visited heap { s with pending := rest } node
  unfold step
  generalize visit heap { s with pending := rest } node = r at hvisited
  cases hvisited with
  | leaf hz hk =>
    obtain rfl := hsame _ hz
    have hslot := slot?_of_key? hk
    refine h.checked hp ?_ ?_ ?_ ?_ hopened
    · rintro r rfl
      cases hk
    · intro c hc
      rw [hslot] at hc
      cases hc
    · rw [Heap.ownBytes_of_key? hk]
      rfl
    · rw [Heap.parts_of_key? hk]
      exact hrest
  | host hz =>
    obtain rfl := hsame _ hz
    exact ⟨p, h.firstFault hp (.host hp)⟩
  | circular hz hc hopen =>
    obtain rfl := hsame _ hz
    exact ⟨p, h.firstFault hp (.circular hp hc ((haround _).mp ((hopened _).mp hopen)))⟩
  | dangling hz hc hclosed hdangling =>
    obtain rfl := hsame _ hz
    have hout := mt (haround _).mpr (mt (hopened _).mpr hclosed)
    exact ⟨p, h.firstFault hp (.dangling hp hc hout hdangling)⟩
  | enter hz hc hclosed hhas hout hpending hcontents hmarker hopens =>
    obtain rfl := hsame _ hz
    have hfree := mt (haround _).mpr (mt (hopened _).mpr hclosed)
    refine h.checked hp ?_ ?_ hout ?_ ?_
    · rintro r rfl
      cases hc
    · intro c hc'
      rw [hc] at hc'
      cases hc'
      exact ⟨hfree, hhas⟩
    · rw [hpending]
      exact hrest.enter hp haround hc hfree hmarker hcontents
    · intro c
      rw [hopens, hpending, closings_contents hcontents fun _ z hz => ⟨z, hz⟩,
        closings_marker hmarker, List.mem_cons, ← hopened]
      rfl
  | leave hclose =>
    rw [Pending.closes?_of_item? hnode] at hclose
    cases hclose

/-- A marker adds nothing, and closes the innermost container. -/
theorem Walking.visitMarker (h : Walking heap x limits s done front)
    (hs : s.pending = node :: rest) (hclose : node.closes? = some c)
    (hfree : c ∉ closings rest) (hrest : Stands heap x rest front) :
    Comes heap x limits (step heap limits { s with pending := rest } node) := by
  have hopened (b) : s.Open b ↔ b = c ∨ b ∈ closings rest := by
    rw [h.opened, hs, closings_marker hclose, List.mem_cons]
  obtain ⟨s', hs', hout, hpending, hopens⟩ :=
    (visited heap { s with pending := rest } node).of_marker hclose
  simp only at hout hpending
  unfold step
  simp only [hs']
  rw [hout, if_neg (Nat.not_lt.mpr h.short)]
  refine ⟨done, front, { h.toFrontier with
    stands := hpending ▸ hrest, opened := fun b => ?_, written := hout ▸ h.written,
    sound := h.sound, short := hout ▸ h.short }⟩
  have hsame : Open { s with pending := rest } b ↔ s.Open b := by cases b <;> rfl
  rw [hopens, hsame, hopened, hpending]
  constructor
  · rintro ⟨hne, heq | hb⟩
    · exact absurd heq hne
    · exact hb
  · intro hb
    refine ⟨?_, .inr hb⟩
    rintro rfl
    exact hfree hb

theorem step_comes (h : Walking heap x limits s done front) (hs : s.pending = node :: rest) :
    Comes heap x limits (step heap limits { s with pending := rest } node) := by
  have hstands := h.stands
  rw [hs] at hstands
  cases hstands with
  | node hnode hp haround hrest => exact h.visitNode hs hnode hp haround hrest
  | marker hclose hfree hrest => exact h.visitMarker hs hclose hfree hrest

theorem run_comes (h : Walking heap x limits s done front) :
    match run heap limits s with
    | .ok _ => ∀ p e, ¬Fault heap x limits p e
    | .error e => ∃ p, FirstFault heap x limits p e ∧ ∃ ps, heap.UpTo x p ps := by
  fun_induction run heap limits s generalizing done front with
  | case1 s hp =>
    intro p e hfault
    have hstands := h.stands
    rw [hp] at hstands
    cases hstands
    exact h.sound p (h.mem_done hfault.found) e hfault
  | case2 s node rest hp e hstep =>
    have hcomes := step_comes h hp
    rw [hstep] at hcomes
    exact hcomes
  | case3 s node rest hp s' hstep _ _ ih =>
    have hcomes := step_comes h hp
    rw [hstep] at hcomes
    obtain ⟨done', front', h'⟩ := hcomes
    exact ih h'

theorem walking_start (heap : Heap) (x : Item) (limits : Limits) :
    Walking heap x limits { pending := [.item x] } [] [[]] :=
  { Heap.frontier_start with
    stands := .node rfl rfl (fun c => by simp [Heap.not_around_nil]) .nil
    opened := fun c => by rw [closings_node rfl]; cases c <;> simp [Open]
    written := rfl
    sound := by simp
    short := Nat.zero_le _ }

end Encoder

open Encoder

/-- Writing fails exactly if something is wrong at some position that nothing wrong comes before,
with the error of this position. There is one such position at most, the positions up to it are
finitely many, and if there is none then nothing is wrong anywhere. -/
theorem encode_firstFault (heap : Heap) (x : Item) (limits : Limits) :
    (∀ e, encode heap x limits = .error e ↔ ∃ p, FirstFault heap x limits p e) ∧
      (∀ p e, FirstFault heap x limits p e → (∃ ps, heap.UpTo x p ps) ∧
        ∀ q e', FirstFault heap x limits q e' → q = p ∧ e' = e) ∧
      ((∃ b, encode heap x limits = .ok b) ↔ ∀ p e, ¬Fault heap x limits p e) := by
  have hrun := run_comes (walking_start heap x limits)
  unfold encode
  generalize Encoder.run heap limits { pending := [.item x] } = r at hrun
  cases r with
  | ok b =>
    refine ⟨fun e => ?_, fun p e h => absurd h.fault (hrun p e), ?_⟩
    · simpa using fun p (h : FirstFault heap x limits p e) => hrun p e h.fault
    · simpa using hrun
  | error e =>
    obtain ⟨p, hfirst, hps⟩ := hrun
    refine ⟨fun e' => ?_, fun q e' h => ?_, ?_⟩
    · constructor
      · intro he
        cases he
        exact ⟨p, hfirst⟩
      · rintro ⟨q, h⟩
        rw [(hfirst.unique h).2]
    · obtain ⟨rfl, rfl⟩ := hfirst.unique h
      exact ⟨hps, fun q e' h' => h'.unique hfirst⟩
    · simpa using ⟨p, e, hfirst.fault⟩

/-- An array whose first element is the array itself, and whose second a host reference. -/
def loopBeforeHost : Heap := { arrays := #[[.array ⟨0⟩, .host ⟨7⟩]] }

theorem encode_firstFault_loopBeforeHost :
    (∃ p, FirstFault loopBeforeHost (.array ⟨0⟩) {} p .circularReference) ∧
      ∃ p, FirstFault loopBeforeHost (.array ⟨0⟩) { itemSize := 1 } p (.itemTooLarge 1) := by
  have hitems : loopBeforeHost.items ⟨0⟩ = .ok [.array ⟨0⟩, .host ⟨7⟩] := rfl
  refine ⟨((encode_firstFault _ _ _).1 _).mp ?_, ((encode_firstFault _ _ _).1 _).mp ?_⟩
  · simp [encode, run_cons, step, visit, enterItems, hitems, header, VarInt.write]
  · simp [encode, run_cons, step, visit, enterItems, hitems, header, VarInt.write]

end ScriptHost

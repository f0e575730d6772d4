import ScriptHost.Proofs.Visits
import ScriptHost.Proofs.Writing

/-!
# ScriptHost.Proofs.WritingWork

How much work writing is. `Encoder.Loops` is the loop as a finite run: the nodes and markers that
it visits, one after the other, and what it returns. Writing has exactly one such run on every heap.
A node that is written adds two bytes or more, so the limit on the output bounds their number; every
marker visited has been queued by a container visited before it (`encode_bounded`). The loop itself
keeps no count: what lasts from step to step is that the output is within the limit.
-/

namespace ScriptHost

theorem Heap.two_le_length_ownBytes {heap : Heap} {x : Item} {c : ArrayRef ⊕ MapRef}
    (hslot : x.slot? = some c) (hhas : heap.Has c) : 2 ≤ (heap.ownBytes x).length := by
  cases x with
  | array a =>
    cases hslot
    obtain ⟨xs, hxs⟩ := exists_items_iff.mpr hhas
    simpa only [ownBytes, hxs] using Encoder.two_le_length_header .array xs.length
  | struct a =>
    cases hslot
    obtain ⟨xs, hxs⟩ := exists_items_iff.mpr hhas
    simpa only [ownBytes, hxs] using Encoder.two_le_length_header .struct xs.length
  | map m =>
    cases hslot
    obtain ⟨es, hes⟩ := exists_entries_iff.mpr hhas
    simpa only [ownBytes, hes] using Encoder.two_le_length_header .map es.size
  | bytes b => cases hslot
  | boolean v => cases hslot
  | integer n => cases hslot
  | host r => cases hslot

namespace Encoder

/-- The loop visits these nodes and markers and returns this. The visit that fails is the last. -/
inductive Loops (heap : Heap) (limits : Limits) :
    Encoder → List Pending → Except EncodeError Bytes → Prop
  | done {s : Encoder} : s.pending = [] → Loops heap limits s [] (.ok s.out.toList)
  | fails {s : Encoder} {node : Pending} {rest : List Pending} {e : EncodeError} :
      s.pending = node :: rest → step heap limits { s with pending := rest } node = .error e →
      Loops heap limits s [node] (.error e)
  | goes {s s' : Encoder} {node : Pending} {rest nodes : List Pending}
      {r : Except EncodeError Bytes} :
      s.pending = node :: rest → step heap limits { s with pending := rest } node = .ok s' →
      Loops heap limits s' nodes r → Loops heap limits s (node :: nodes) r

variable {heap : Heap} {limits : Limits} {s s' : Encoder} {node : Pending}
  {rest nodes nodes' : List Pending} {r r' : Except EncodeError Bytes}

theorem exists_loops (heap : Heap) (limits : Limits) (s : Encoder) :
    ∃ nodes, Loops heap limits s nodes (run heap limits s) := by
  fun_induction run heap limits s with
  | case1 s hp => exact ⟨[], .done hp⟩
  | case2 s node rest hp e hstep => exact ⟨[node], .fails hp hstep⟩
  | case3 s node rest hp s' hstep _ _ ih =>
    obtain ⟨nodes, hloops⟩ := ih
    exact ⟨node :: nodes, .goes hp hstep hloops⟩

theorem Loops.unique (h : Loops heap limits s nodes r) (h' : Loops heap limits s nodes' r') :
    nodes' = nodes ∧ r' = r := by
  induction h generalizing nodes' r' with
  | done hp => cases h' <;> grind
  | fails hp hstep => cases h' <;> grind
  | goes hp hstep _ ih => cases h' <;> grind

/-- A node that is written adds at least two bytes, and queues at most one marker. -/
theorem visit_node (hv : s.visit heap node = .ok s') (hnode : node.item?.isSome) :
    s.out.size + 2 ≤ s'.out.size ∧
      (closings s'.pending).length ≤ (closings s.pending).length + 1 := by
  obtain ⟨y, hy⟩ := Option.isSome_iff_exists.mp hnode
  have hvisited := visited heap s node
  rw [hv] at hvisited
  cases hvisited with
  | @leaf _ k _ _ =>
    have := two_le_length_encoding k
    simp only [writeLeaf, size_append]
    omega
  | enter hz hc _ hhas hout hpending hcontents hmarker =>
    have := Heap.two_le_length_ownBytes hc hhas
    rw [hout, size_append, hpending, closings_contents hcontents fun _ z hz => ⟨z, hz⟩,
      closings_marker hmarker, List.length_cons]
    omega
  | leave hclose =>
    rw [Pending.closes?_of_item? hy] at hclose
    cases hclose

theorem visit_marker (hv : s.visit heap node = .ok s') (hmarker : node.item? = none) :
    s'.out = s.out ∧ s'.pending = s.pending := by
  obtain ⟨c, hclose⟩ := Pending.exists_closes? hmarker
  obtain ⟨_, h, hout, hpending, _⟩ := (visited heap s node).of_marker hclose
  rw [hv] at h
  cases h
  exact ⟨hout, hpending⟩

/-! ## The length of a run -/

theorem Loops.nodes_le (h : Loops heap limits s nodes r) (hs : s.out.size ≤ limits.itemSize.toNat) :
    2 * (nodes.filterMap Pending.item?).length ≤ limits.itemSize.toNat - s.out.size + 2 := by
  induction h with
  | done => exact Nat.zero_le _
  | @fails s node _ _ _ _ =>
    have hone := List.length_filterMap_le Pending.item? [node]
    rw [List.length_singleton] at hone
    omega
  | @goes s s' node rest nodes r _ hstep _ ih =>
    obtain ⟨hv, hle⟩ := step_eq_ok_iff.mp hstep
    have ih := ih hle
    cases hnode : node.item? with
    | none =>
      rw [List.filterMap_cons_none hnode]
      rwa [(visit_marker hv hnode).1] at ih
    | some y =>
      have hgrow := (visit_node hv (by rw [hnode]; rfl)).1
      simp only at hgrow
      rw [List.filterMap_cons_some hnode, List.length_cons]
      omega

theorem Loops.markers_le (h : Loops heap limits s nodes r) :
    (closings nodes).length ≤
      (closings s.pending).length + (nodes.filterMap Pending.item?).length := by
  induction h with
  | done => exact Nat.zero_le _
  | @fails s node rest _ hp _ =>
    rw [hp]
    cases hnode : node.item? with
    | none =>
      obtain ⟨c, hc⟩ := Pending.exists_closes? hnode
      rw [closings_marker hc, closings_marker hc, List.length_cons, List.length_cons, closings_nil,
        List.length_nil]
      omega
    | some y =>
      rw [closings_node hnode]
      exact Nat.zero_le _
  | @goes s s' node rest nodes r hp hstep _ ih =>
    have hv := (step_eq_ok_iff.mp hstep).1
    rw [hp]
    cases hnode : node.item? with
    | none =>
      obtain ⟨c, hc⟩ := Pending.exists_closes? hnode
      simp only [(visit_marker hv hnode).2] at ih
      rw [closings_marker hc, closings_marker hc, List.filterMap_cons_none hnode,
        List.length_cons, List.length_cons]
      omega
    | some y =>
      have hqueued := (visit_node hv (by rw [hnode]; rfl)).2
      simp only at hqueued
      rw [closings_node hnode, closings_node hnode, List.filterMap_cons_some hnode,
        List.length_cons]
      omega

end Encoder

open Encoder

/-- On every heap, cyclic ones and shared ones included, writing is one finite run of the loop. A
node that is written adds two bytes or more; so at most one node more is visited than half the limit
says, and no more markers than nodes. -/
theorem encode_bounded (heap : Heap) (x : Item) (limits : Limits) :
    (∀ s s' node, node.item?.isSome → step heap limits s node = .ok s' →
      s.out.size + 2 ≤ s'.out.size) ∧
    ∃ nodes, Loops heap limits { pending := [.item x] } nodes (encode heap x limits) ∧
      (∀ nodes' r, Loops heap limits { pending := [.item x] } nodes' r →
        nodes' = nodes ∧ r = encode heap x limits) ∧
      (nodes.filterMap Pending.item?).length ≤ limits.itemSize.toNat / 2 + 1 ∧
      (closings nodes).length ≤ (nodes.filterMap Pending.item?).length := by
  refine ⟨fun s s' node hnode hstep => (visit_node (step_eq_ok_iff.mp hstep).1 hnode).1, ?_⟩
  obtain ⟨nodes, hloops⟩ := exists_loops heap limits { pending := [.item x] }
  refine ⟨nodes, hloops, fun nodes' r h => hloops.unique h, ?_, ?_⟩
  · have hnodes := hloops.nodes_le (Nat.zero_le _)
    omega
  · have hmarkers := hloops.markers_le
    rwa [closings_node rfl, closings_nil, List.length_nil, Nat.zero_add] at hmarkers

end ScriptHost

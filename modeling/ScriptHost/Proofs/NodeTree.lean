import ScriptHost.Codec.Layout

/-!
# ScriptHost.Proofs.NodeTree

Trees of nodes, and the flat lists that stand for them. In a list, a node stands before the nodes
inside it, and how many those are is all that it says about them; so a list can be cut into trees
in one way only. `Fills n nodes` is what a count of the nodes to come checks on its way through a
list: it comes down to zero at the end and not earlier. `fills_iff` says that it does so exactly
for the lists of `n` trees.
-/

namespace ScriptHost

/-- How many nodes stand directly inside this one, without a bound on the count. -/
def Node.breadth : Node → Nat
  | leaf _ => 0
  | container .array count => count.toNat
  | container .struct count => count.toNat
  | container .map count => 2 * count.toNat

inductive NodeTree
  | mk (node : Node) (parts : List NodeTree)

namespace NodeTree

/-- Induction on a list of trees along their nodes: the parts of the first tree come before the
other trees. -/
theorem forestInduct {motive : List NodeTree → Prop} (nil : motive [])
    (cons : ∀ node parts ts, motive parts → motive ts → motive (.mk node parts :: ts))
    (ts : List NodeTree) : motive ts :=
  match ts with
  | [] => nil
  | .mk node parts :: ts =>
    cons node parts ts (forestInduct nil cons parts) (forestInduct nil cons ts)

/-- The nodes of a tree in the order in which they are written. -/
def nodes : NodeTree → List Node
  | mk node parts => node :: parts.flatMap nodes

/-- Every node has as many parts as it says. -/
inductive Complete : NodeTree → Prop
  | mk {node : Node} {parts : List NodeTree} :
      parts.length = node.breadth → (∀ t ∈ parts, Complete t) → Complete (.mk node parts)

theorem one_le_length_nodes (t : NodeTree) : 1 ≤ t.nodes.length := by
  cases t
  simp [nodes]

theorem length_le_length_nodes (ts : List NodeTree) : ts.length ≤ (ts.flatMap nodes).length := by
  induction ts with
  | nil => simp
  | cons t ts ih =>
    have := one_le_length_nodes t
    simp only [List.length_cons, List.flatMap_cons, List.length_append]
    omega

/-! ## Counting the nodes to come -/

/-- With `n` nodes to come before the first, none is to come behind the last, and one always is in
between. -/
inductive Fills : Nat → List Node → Prop
  | nil : Fills 0 []
  | cons {n : Nat} {node : Node} {nodes : List Node} :
      Fills (n + node.breadth) nodes → Fills (n + 1) (node :: nodes)

theorem Fills.le_length {n : Nat} {nodes : List Node} (h : Fills n nodes) : n ≤ nodes.length := by
  induction h with
  | nil => simp
  | cons _ ih =>
    simp only [List.length_cons]
    omega

theorem fills_append {ts : List NodeTree} {n : Nat} {nodes : List Node}
    (hts : ∀ t ∈ ts, t.Complete) (h : Fills n nodes) :
    Fills (n + ts.length) (ts.flatMap NodeTree.nodes ++ nodes) := by
  induction ts using forestInduct generalizing n nodes with
  | nil => exact h
  | cons node parts ts ihparts ihts =>
    cases hts _ List.mem_cons_self with
    | mk hlen hparts =>
      have hrest := ihts (fun t ht => hts t (List.mem_cons_of_mem _ ht)) h
      have hall := ihparts hparts hrest
      rw [hlen] at hall
      simpa [NodeTree.nodes, Nat.add_assoc] using hall.cons

theorem exists_of_fills {n : Nat} {nodes : List Node} (h : Fills n nodes) :
    ∃ ts : List NodeTree, ts.length = n ∧ (∀ t ∈ ts, t.Complete) ∧
      nodes = ts.flatMap NodeTree.nodes := by
  induction h with
  | nil => exact ⟨[], rfl, by simp, rfl⟩
  | @cons n node nodes _ ih =>
    obtain ⟨ts, hlen, hts, rfl⟩ := ih
    refine ⟨.mk node (ts.take node.breadth) :: ts.drop node.breadth, ?_, ?_, ?_⟩
    · simp
      omega
    · intro t ht
      rcases List.mem_cons.mp ht with rfl | ht
      · refine .mk (by simp; omega) fun t ht => hts t (List.mem_of_mem_take ht)
      · exact hts t (List.mem_of_mem_drop ht)
    · rw [List.flatMap_cons, NodeTree.nodes, List.cons_append, ← List.flatMap_append,
        List.take_append_drop]

theorem fills_iff {n : Nat} {nodes : List Node} :
    Fills n nodes ↔ ∃ ts : List NodeTree, ts.length = n ∧ (∀ t ∈ ts, t.Complete) ∧
      nodes = ts.flatMap NodeTree.nodes := by
  constructor
  · exact exists_of_fills
  · rintro ⟨ts, rfl, hts, rfl⟩
    simpa using fills_append hts .nil

theorem Complete.fills {t : NodeTree} (h : t.Complete) : Fills 1 t.nodes :=
  fills_iff.mpr ⟨[t], rfl, by simpa using h, by simp⟩

/-- The nodes are the first of a whole tree, and at least one more is to come. -/
def Unfinished (nodes : List Node) : Prop :=
  ∃ (t : NodeTree) (later : List Node), t.Complete ∧ t.nodes = nodes ++ later ∧ later ≠ []

theorem fills_replicate (n : Nat) : Fills n (List.replicate n (.leaf (.boolean false))) := by
  induction n with
  | zero => exact .nil
  | succ n ih => exact .cons ih

/-- As long as a count of nodes to come is open, any nodes that fill it finish the tree. -/
theorem unfinished_of_fills {nodes : List Node} {n : Nat}
    (h : ∀ later, Fills (n + 1) later → Fills 1 (nodes ++ later)) : Unfinished nodes := by
  obtain ⟨ts, hlen, hts, hnodes⟩ := exists_of_fills (h _ (fills_replicate (n + 1)))
  obtain ⟨t, rfl⟩ := List.length_eq_one_iff.mp hlen
  rw [List.flatMap_singleton] at hnodes
  exact ⟨t, _, hts t List.mem_cons_self, hnodes.symm, by simp⟩

/-- The nodes that come first tell how many belong to the first trees. -/
theorem flatMap_nodes_unique {ts us : List NodeTree} {rest rest' : List Node}
    (hts : ∀ t ∈ ts, t.Complete) (hus : ∀ u ∈ us, u.Complete) (hlen : ts.length = us.length)
    (h : ts.flatMap nodes ++ rest = us.flatMap nodes ++ rest') : ts = us ∧ rest = rest' := by
  induction ts using forestInduct generalizing us rest rest' with
  | nil =>
    rw [List.eq_nil_of_length_eq_zero hlen.symm] at h ⊢
    exact ⟨rfl, h⟩
  | cons node parts ts ihparts ihts =>
    obtain ⟨u, us, rfl⟩ := List.exists_cons_of_length_eq_add_one hlen.symm
    obtain ⟨node', parts'⟩ := u
    cases hts _ List.mem_cons_self with
    | mk hlen₁ hparts =>
      cases hus _ List.mem_cons_self with
      | mk hlen₂ hparts' =>
        simp only [List.flatMap_cons, nodes, List.cons_append, List.append_assoc,
          List.cons.injEq] at h
        obtain ⟨rfl, h⟩ := h
        obtain ⟨rfl, htail⟩ := ihparts hparts hparts' (hlen₁.trans hlen₂.symm) h
        obtain ⟨rfl, hrest⟩ := ihts (fun t ht => hts t (List.mem_cons_of_mem _ ht))
          (fun u hu => hus u (List.mem_cons_of_mem _ hu)) (by simpa using hlen) htail
        exact ⟨rfl, hrest⟩

theorem nodes_unique {t u : NodeTree} (ht : t.Complete) (hu : u.Complete)
    (h : t.nodes = u.nodes) : t = u := by
  have hsingle : [t].flatMap nodes ++ [] = [u].flatMap nodes ++ [] := by simpa using h
  have hall : [t] = [u] ∧ [] = [] :=
    flatMap_nodes_unique (by simpa using ht) (by simpa using hu) rfl hsingle
  exact List.singleton_inj.mp hall.1

end NodeTree

end ScriptHost

import ScriptHost.Proofs.Figure

/-!
# ScriptHost.Proofs.Indentation

What the indentation of a drawn figure tells. The lines inside a node are the ones that follow its
line and stand deeper; those one level deeper are the lines of the nodes directly inside
(`countBelow_parts`). So the number in the line of a container is that of the lines directly below
it (`lines_below`).
-/

namespace ScriptHost

namespace Figure

/-- The level at which a line stands. -/
def depthOf (line : String) : Nat := (line.toList.takeWhile (· == ' ')).length / 2

/-- How many lines stand directly below a line at level `depth`, if `following` come behind it:
those one level deeper, before the first that is not deeper. -/
def countBelow (depth : Nat) (following : List String) : Nat :=
  (following.takeWhile fun l => depth < depthOf l).countP fun l => depthOf l = depth + 1

@[simp] theorem depthOf_line (depth : Nat) (f : Figure) : depthOf (f.line depth) = depth := by
  have hhead : ∃ c cs, (heading f.label).toList ++ (f.word.toList ++ ' ' :: f.detail.toList) =
      c :: cs ∧ c ≠ ' ' := by
    have first {c : Char} {cs xs : List Char} (hxs : Inked xs) (hc : xs = c :: cs) : c ≠ ' ' := by
      rintro rfl
      exact hxs.not_mem (by decide) (hc ▸ List.mem_cons_self)
    cases f.label with
    | none =>
      obtain ⟨c, cs, hc, -⟩ := f.word_eq_cons
      exact ⟨c, _, by rw [toList_heading_none, hc]; rfl, first f.inked_word hc⟩
    | some k =>
      obtain ⟨c, cs, hc⟩ := List.exists_cons_of_ne_nil (shown_ne_nil k)
      exact ⟨c, _, by rw [toList_heading_some, hc]; rfl, first (inked_shown k) hc⟩
  obtain ⟨c, cs, hc, hne⟩ := hhead
  rw [depthOf, toList_line, hc, List.takeWhile_append_of_pos (by simp), List.takeWhile_cons]
  simp [hne]

theorem le_depthOf_of_mem (fs : List Figure) (depth : Nat) :
    ∀ l ∈ fs.flatMap (fun f => f.lines depth), depth ≤ depthOf l := by
  induction fs using forestInduct generalizing depth with
  | nil => simp
  | cons f fs ihparts ihfs =>
    intro l hl
    rw [List.flatMap_cons, lines_eq, List.cons_append, List.mem_cons, List.mem_append] at hl
    rcases hl with rfl | hl | hl
    · exact Nat.le_of_eq (depthOf_line depth f).symm
    · exact Nat.le_of_succ_le (ihparts _ l hl)
    · exact ihfs _ l hl

theorem countP_depthOf (fs : List Figure) (depth : Nat) :
    (fs.flatMap fun f => f.lines depth).countP (fun l => depthOf l = depth) = fs.length := by
  induction fs with
  | nil => rfl
  | cons f fs ih =>
    have hparts : (f.parts.flatMap fun p => p.lines (depth + 1)).countP
        (fun l => depthOf l = depth) = 0 := by
      refine List.countP_eq_zero.mpr fun l hl => ?_
      have := le_depthOf_of_mem f.parts (depth + 1) l hl
      simp only [decide_eq_true_eq]
      omega
    rw [List.flatMap_cons, lines_eq, List.countP_append, List.countP_cons, hparts, ih]
    simp [Nat.add_comm]

/-- The lines inside a node are those that follow its line and lie deeper. -/
theorem countBelow_parts (fs : List Figure) {depth : Nat} {rest : List String}
    (hrest : ∀ l ∈ rest.head?, depthOf l ≤ depth) :
    countBelow depth ((fs.flatMap fun f => f.lines (depth + 1)) ++ rest) = fs.length := by
  have hdeep : ∀ l ∈ fs.flatMap (fun f => f.lines (depth + 1)), decide (depth < depthOf l) = true :=
    fun l hl => decide_eq_true (le_depthOf_of_mem fs (depth + 1) l hl)
  have hstop : (rest.takeWhile fun l => depth < depthOf l) = [] := by
    cases rest with
    | nil => rfl
    | cons l rest =>
      have := hrest l rfl
      rw [List.takeWhile_cons_of_neg (by simpa using this)]
  rw [countBelow, List.takeWhile_append_of_pos hdeep, hstop, List.append_nil, countP_depthOf]

/-- Each line is that of a node, and the node has as many others directly inside it as there are
lines directly below. -/
theorem lines_below {fs : List Figure} {depth : Nat} {before after rest : List String}
    {line : String} (hrest : ∀ l ∈ rest.head?, depthOf l ≤ depth)
    (h : fs.flatMap (fun f => f.lines depth) = before ++ line :: after) :
    ∃ g : Figure, line = g.line (depthOf line) ∧
      g.parts.length = countBelow (depthOf line) (after ++ rest) := by
  induction fs using forestInduct generalizing depth before after rest with
  | nil => simp at h
  | cons f fs ihparts ihfs =>
    rw [List.flatMap_cons, lines_eq, List.cons_append] at h
    -- What comes behind the lines inside this node stands no deeper than the node.
    have hnext : ∀ l ∈ ((fs.flatMap fun f => f.lines depth) ++ rest).head?, depthOf l ≤ depth := by
      cases fs with
      | nil => simpa using hrest
      | cons g gs =>
        rw [List.flatMap_cons, lines_eq, List.cons_append, List.cons_append, List.head?_cons]
        rintro l ⟨⟩
        exact Nat.le_of_eq (depthOf_line depth g)
    cases before with
    | nil =>
      obtain ⟨rfl, rfl⟩ := List.cons.inj h
      refine ⟨f, by rw [depthOf_line], ?_⟩
      rw [depthOf_line, List.append_assoc, countBelow_parts f.parts hnext]
    | cons first before =>
      obtain ⟨-, h⟩ := List.cons.inj h
      rcases List.append_eq_append_iff.mp h with ⟨mid, rfl, hmid⟩ | ⟨mid, hmid, hfs⟩
      · exact ihfs hrest hmid
      · cases mid with
        | nil =>
          have hfirst : fs.flatMap (fun f => f.lines depth) = [] ++ line :: after := hfs.symm
          exact ihfs hrest hfirst
        | cons first mid =>
          obtain ⟨rfl, hafter⟩ :
              line = first ∧ after = mid ++ fs.flatMap (fun f => f.lines depth) :=
            List.cons.inj hfs
          rw [hafter, List.append_assoc]
          exact ihparts (fun l hl => Nat.le_succ_of_le (hnext l hl)) hmid

end Figure

end ScriptHost

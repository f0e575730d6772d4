import ScriptHost.Proofs.Grammar
import ScriptHost.Proofs.Wire

/-!
# ScriptHost.Proofs.Layout

The layout of input is the list of nodes of the one tree that the input spells
(`layout_eq_ok_iff`). A count of the nodes to come stands in for a stack: it is exact as long as
the input is shorter than the greatest word, and since every node to come takes a byte at least,
the check of the count against the bytes left refuses nothing that could be read.

Counts above the limit are found one after the other. `run_of_forms` tells for input that breaks
no other rule which of them is reported.
-/

namespace ScriptHost

/-- The limits without the one on the size of containers. -/
def Limits.anyCount (limits : Limits) : Limits := { limits with arraySize := greatestWord }

/-- The name of a count in the refusal of one that is too great. -/
def ContainerKind.sizeName : ContainerKind → String
  | array | struct => "array length"
  | map => "map size"

namespace Node

open Cursor

variable {limits : Limits} {c c₁ : Cursor}

/-! ## One node -/

theorem container_form (kind : ContainerKind) {what : String} {count : UInt64} {d : Cursor}
    (hfirst : c.Moves [kind.tag.byte] d)
    (hread : VarInt.read limits.arraySize what d = .ok (count, c₁)) :
    ∃ w, (container kind count).Form limits w ∧ c.Moves w c₁ := by
  obtain ⟨hle, hmoves⟩ := VarInt.read_eq_ok_iff.mp hread
  exact ⟨_, .container hle, hfirst.trans hmoves⟩

theorem read_form {node : Node} (h : read limits c = .ok (node, c₁)) :
    ∃ w, node.Form limits w ∧ c.Moves w c₁ := by
  unfold read at h
  split at h
  · cases h
  · rename_i tag d htag
    have hfirst := byte_eq_ok_iff.mp htag
    split at h
    · rename_i hkind
      cases Tag.ofByte?_eq_some_iff.mp hkind
      split at h
      · cases h
      · rename_i hread
        cases h
        obtain ⟨hlen, hmoves⟩ := VarBytes.read_eq_ok_iff.mp hread
        exact ⟨_, .leaf (.bytes hlen), hfirst.trans hmoves⟩
    · rename_i hkind
      cases Tag.ofByte?_eq_some_iff.mp hkind
      split at h
      · cases h
      · rename_i hread
        cases h
        exact ⟨_, .leaf (.boolean _), hfirst.trans (byte_eq_ok_iff.mp hread)⟩
    · rename_i hkind
      cases Tag.ofByte?_eq_some_iff.mp hkind
      split at h
      · cases h
      · rename_i b _ hread
        cases h
        obtain ⟨hlen, hmoves⟩ := VarBytes.read_eq_ok_iff.mp hread
        rw [Integer.ofBytes_eq_signed]
        exact ⟨_, .leaf (.integer hlen), hfirst.trans hmoves⟩
    · rename_i hkind
      cases Tag.ofByte?_eq_some_iff.mp hkind
      split at h
      · cases h
      · rename_i hread
        cases h
        exact container_form .array hfirst hread
    · rename_i hkind
      cases Tag.ofByte?_eq_some_iff.mp hkind
      split at h
      · cases h
      · rename_i hread
        cases h
        exact container_form .struct hfirst hread
    · rename_i hkind
      cases Tag.ofByte?_eq_some_iff.mp hkind
      split at h
      · cases h
      · rename_i hread
        cases h
        exact container_form .map hfirst hread
    · cases h
    · cases h

theorem read_of_form {node : Node} {w : Bytes} (h : node.Form limits w) (hmoves : c.Moves w c₁) :
    read limits c = .ok (node, c₁) := by
  unfold read
  rcases h with @⟨_, _, hlen | v | hlen⟩ | @⟨kind, _, hle⟩
  · obtain ⟨d, hfirst, hrest⟩ := Moves.split (a := [0x00]) hmoves
    simp only [byte_eq_ok_iff.mpr hfirst, VarBytes.read_eq_ok_iff.mpr ⟨hlen, hrest⟩]
    rfl
  · obtain ⟨d, hfirst, hrest⟩ := Moves.split (a := [0x01]) hmoves
    simp only [byte_eq_ok_iff.mpr hfirst, byte_eq_ok_iff.mpr hrest]
    rfl
  · obtain ⟨d, hfirst, hrest⟩ := Moves.split (a := [0x02]) hmoves
    rw [← Integer.ofBytes_eq_signed]
    simp only [byte_eq_ok_iff.mpr hfirst, VarBytes.read_eq_ok_iff.mpr ⟨hlen, hrest⟩]
    rfl
  · obtain ⟨d, hfirst, hrest⟩ := Moves.split (a := [kind.tag.byte]) hmoves
    simp only [byte_eq_ok_iff.mpr hfirst, Tag.ofByte?_eq_some_iff.mpr rfl]
    cases kind <;> simp only [ContainerKind.tag, VarInt.read_eq_ok_iff.mpr ⟨hle, hrest⟩]

theorem read_eq_ok_iff {node : Node} :
    read limits c = .ok (node, c₁) ↔ ∃ w, node.Form limits w ∧ c.Moves w c₁ := by
  constructor
  · exact read_form
  · rintro ⟨w, h, hmoves⟩
    exact read_of_form h hmoves

theorem read_of_limit_lt {kind : ContainerKind} {count : UInt64}
    (hlt : limits.arraySize < count)
    (hmoves : c.Moves (kind.tag.byte :: VarInt.write count) c₁) :
    read limits c = .error (.limitExceeded kind.sizeName limits.arraySize count) := by
  obtain ⟨d, hfirst, hrest⟩ := Moves.split (a := [kind.tag.byte]) hmoves
  unfold read
  simp only [byte_eq_ok_iff.mpr hfirst, Tag.ofByte?_eq_some_iff.mpr rfl]
  cases kind <;>
    simp only [ContainerKind.tag, ContainerKind.sizeName, VarInt.read_of_limit_lt hlt hrest]

theorem le_greatestWord (v : UInt64) : v ≤ greatestWord := by
  rw [UInt64.le_iff_toNat_le]
  exact Nat.le_of_lt_succ v.toNat_lt

/-- What is wrong with the node by itself: a count above the limit. -/
def refusal (limits : Limits) : Node → Option DecodeError
  | leaf _ => none
  | container kind count =>
    if limits.arraySize < count then some (.limitExceeded kind.sizeName limits.arraySize count)
    else none

theorem form_iff {node : Node} {w : Bytes} :
    node.Form limits w ↔ node.Form limits.anyCount w ∧ node.refusal limits = none := by
  constructor
  · intro h
    rcases h with @⟨_, _, hlen | v | hlen⟩ | @⟨kind, count, hle⟩
    · exact ⟨.leaf (.bytes hlen), rfl⟩
    · exact ⟨.leaf (.boolean v), rfl⟩
    · exact ⟨.leaf (.integer hlen), rfl⟩
    · exact ⟨.container (le_greatestWord count), if_neg (UInt64.not_lt.mpr hle)⟩
  · rintro ⟨h, hnone⟩
    rcases h with @⟨_, _, hlen | v | hlen⟩ | @⟨kind, count, _⟩
    · exact .leaf (.bytes hlen)
    · exact .leaf (.boolean v)
    · exact .leaf (.integer hlen)
    · refine .container (UInt64.not_lt.mp fun hlt => ?_)
      rw [refusal, if_pos hlt] at hnone
      cases hnone

theorem read_of_anyCount {node : Node} {w : Bytes} (h : node.Form limits.anyCount w)
    (hmoves : c.Moves w c₁) :
    read limits c =
      match node.refusal limits with
      | some e => .error e
      | none => .ok (node, c₁) := by
  split
  · rename_i e he
    cases h with
    | leaf _ => cases he
    | container _ =>
      simp only [refusal] at he
      split at he
      · rename_i hlt
        cases he
        exact read_of_limit_lt hlt hmoves
      · cases he
  · rename_i hnone
    exact read_eq_ok_iff.mpr ⟨w, form_iff.mpr ⟨h, hnone⟩, hmoves⟩

theorem Forms.iff_anyCount {nodes : List Node} {data : Bytes} :
    Forms limits data nodes ↔
      Forms limits.anyCount data nodes ∧ nodes.findSome? (refusal limits) = none := by
  constructor
  · intro h
    induction h with
    | nil => exact ⟨.nil, rfl⟩
    | cons hw _ ih =>
      obtain ⟨hw, hnone⟩ := form_iff.mp hw
      exact ⟨.cons hw ih.1, by rw [List.findSome?_cons, hnone]; exact ih.2⟩
  · rintro ⟨h, hnone⟩
    rw [List.findSome?_eq_none_iff] at hnone
    induction h with
    | nil => exact .nil
    | cons hw _ ih =>
      refine .cons (form_iff.mpr ⟨hw, hnone _ List.mem_cons_self⟩) (ih fun n hn => ?_)
      exact hnone n (List.mem_cons_of_mem _ hn)

end Node

namespace LayoutReader

open Node NodeTree

variable {limits : Limits}

/-! ## The count of the nodes to come -/

theorem toNat_addSaturating_inside (pending : UInt64) (node : Node) :
    (addSaturating pending node.inside).toNat =
      min (pending.toNat + node.breadth) (UInt64.size - 1) := by
  rw [toNat_addSaturating]
  rcases node with k | ⟨kind, count⟩
  · rfl
  · cases kind
    · rfl
    · rfl
    · simp only [inside, breadth, toNat_addSaturating]
      omega

theorem exists_toNat_eq_succ {pending : UInt64} (h : pending ≠ 0) :
    ∃ n, pending.toNat = n + 1 := by
  refine Nat.exists_eq_succ_of_ne_zero fun hzero => h ?_
  exact UInt64.toNat_inj.mp hzero

theorem toNat_sub_one {pending : UInt64} {n : Nat} (h : pending.toNat = n + 1) :
    (pending - 1).toNat = n := by
  rw [UInt64.toNat_sub_of_le _ _ (by rw [UInt64.le_iff_toNat_le, h]; simp), h]
  simp

theorem step_of_form (nodes : List Node) {node : Node} {w : Bytes} {c c₁ : Cursor}
    {pending : UInt64} {n : Nat} (hw : node.Form limits.anyCount w) (hmoves : c.Moves w c₁)
    (hpending : pending.toNat = n + 1) (hle : n + node.breadth ≤ c₁.unread) :
    step limits ⟨c, pending, nodes⟩ =
      match node.refusal limits with
      | some e => .error e
      | none => .ok ⟨c₁, addSaturating (pending - 1) node.inside, node :: nodes⟩ := by
  unfold step
  rw [read_of_anyCount hw hmoves]
  cases node.refusal limits with
  | some e => rfl
  | none =>
    simp only
    rw [if_neg]
    rw [toNat_addSaturating_inside, toNat_sub_one hpending]
    omega

/-- What a step that goes on has read, and the check that it has passed. -/
theorem node_of_step {r r' : LayoutReader} (h : r.step limits = .ok r') :
    ∃ w node, node.Form limits w ∧ r.cursor.Moves w r'.cursor ∧
      r'.pending = addSaturating (r.pending - 1) node.inside ∧
      r'.pending.toNat ≤ r'.cursor.unread ∧ r'.nodes = node :: r.nodes := by
  unfold step at h
  split at h
  · cases h
  · rename_i node c hread
    obtain ⟨w, hw, hmoves⟩ := read_eq_ok_iff.mp hread
    simp only at h
    split at h
    · cases h
    · rename_i hle
      cases h
      exact ⟨w, node, hw, hmoves, rfl, Nat.not_lt.mp hle, rfl⟩

theorem form_of_step {r r' : LayoutReader} {n : Nat} (h : r.step limits = .ok r')
    (hpending : r.pending.toNat = n + 1) (hsize : r.cursor.unread < UInt64.size) :
    ∃ w node, node.Form limits w ∧ r.cursor.Moves w r'.cursor ∧
      r'.pending.toNat = n + node.breadth ∧ r'.nodes = node :: r.nodes := by
  obtain ⟨w, node, hw, hmoves, hnext, hle, hnodes⟩ := node_of_step h
  have hshorter := unread_of_step h
  refine ⟨w, node, hw, hmoves, ?_, hnodes⟩
  rw [hnext, toNat_addSaturating_inside, toNat_sub_one hpending] at hle ⊢
  omega

/-! ## All nodes -/

theorem run_eq (r : LayoutReader) :
    run limits r =
      if r.pending = 0 then .ok r
      else
        match r.step limits with
        | .error e => .error e
        | .ok r' => run limits r' := by
  rw [run]
  split
  · rfl
  · split <;> rename_i h <;> simp only [h]

theorem run_of_forms {data : Bytes} {nodes earlier : List Node} {c c₁ : Cursor}
    {pending : UInt64} (h : Forms limits.anyCount data nodes)
    (hfills : Fills pending.toNat nodes) (hmoves : c.Moves data c₁)
    (hsize : c.unread < UInt64.size) :
    run limits ⟨c, pending, earlier⟩ =
      match nodes.findSome? (refusal limits) with
      | some e => .error e
      | none => .ok ⟨c₁, 0, nodes.reverse ++ earlier⟩ := by
  induction h generalizing c pending earlier with
  | nil =>
    have hzero : pending = 0 := by
      cases hp : pending.toNat with
      | zero => exact UInt64.toNat_inj.mp hp
      | succ n => rw [hp] at hfills; cases hfills
    rw [hmoves.eq_of_nil, hzero, run]
    rfl
  | @cons w data node nodes hw h ih =>
    obtain ⟨d, hfirst, hrest⟩ := hmoves.split
    cases hp : pending.toNat with
    | zero => rw [hp] at hfills; cases hfills
    | succ n =>
      rw [hp] at hfills
      cases hfills with
      | cons hfills =>
        have hunread := hfirst.unread
        have hle : n + node.breadth ≤ d.unread := by
          have := hfills.le_length
          have := h.le_length
          have := hrest.unread
          omega
        have hne : pending ≠ 0 := by
          rintro rfl
          cases hp
        have hstep := step_of_form earlier hw hfirst hp hle
        have hnext : (addSaturating (pending - 1) node.inside).toNat = n + node.breadth := by
          rw [toNat_addSaturating_inside, toNat_sub_one hp]
          omega
        rw [run_eq, if_neg hne, hstep, List.findSome?_cons]
        cases node.refusal limits with
        | some e => rfl
        | none =>
          simp only
          rw [ih (by rw [hnext]; exact hfills) hrest (by omega)]
          simp

theorem forms_of_run {r r' : LayoutReader} (h : r.run limits = .ok r')
    (hsize : r.cursor.unread < UInt64.size) :
    ∃ data nodes, Forms limits data nodes ∧ Fills r.pending.toNat nodes ∧
      r.cursor.Moves data r'.cursor ∧ r'.nodes = nodes.reverse ++ r.nodes := by
  fun_induction run limits r with
  | case1 r hzero =>
    cases h
    rw [hzero]
    exact ⟨[], [], .nil, .nil, .nil _, rfl⟩
  | case2 r _ e _ => cases h
  | case3 r hne r₁ hstep _ ih =>
    obtain ⟨n, hpending⟩ := exists_toNat_eq_succ hne
    have hshorter := unread_of_step hstep
    obtain ⟨w, node, hw, hfirst, hnext, hnodes⟩ := form_of_step hstep hpending hsize
    obtain ⟨data, nodes, hforms, hfills, hrest, hall⟩ := ih h (by omega)
    refine ⟨w ++ data, node :: nodes, .cons hw hforms, ?_, hfirst.trans hrest, ?_⟩
    · rw [hpending]
      exact .cons (hnext ▸ hfills)
    · rw [hall, hnodes, List.reverse_cons, List.append_assoc]
      rfl

end LayoutReader

/-! ## The whole input -/

open Node NodeTree

variable {limits : Limits} {data : Bytes}

theorem layout_of_spells {t : NodeTree} (h : t.Spells limits.anyCount data)
    (hsize : data.length < UInt64.size) :
    layout data limits =
      match t.nodes.findSome? (refusal limits) with
      | some e => .error e
      | none => .ok t.nodes := by
  obtain ⟨hcomplete, hforms⟩ := h
  obtain ⟨c, hmoves, hrest⟩ := Cursor.exists_moves (c := .ofBytes data) (List.append_nil data).symm
  have hfills : Fills (1 : UInt64).toNat t.nodes := hcomplete.fills
  have hend : c.unread = 0 := by rw [c.unread_eq, hrest, List.length_nil]
  unfold layout
  rw [LayoutReader.run_of_forms hforms hfills hmoves hsize]
  cases t.nodes.findSome? (refusal limits) with
  | some e => rfl
  | none => simp [hend]

theorem layout_eq_ok_iff {nodes : List Node} (hsize : data.length < UInt64.size) :
    layout data limits = .ok nodes ↔
      ∃ t : NodeTree, t.Spells limits data ∧ t.nodes = nodes := by
  constructor
  · intro h
    unfold layout at h
    split at h
    · cases h
    · rename_i r hrun
      split at h
      · rename_i hend
        cases h
        obtain ⟨b, nodes, hforms, hfills, hmoves, hnodes⟩ := LayoutReader.forms_of_run hrun hsize
        obtain ⟨ts, hlen, hts, rfl⟩ := fills_iff.mp hfills
        obtain ⟨t, rfl⟩ := List.length_eq_one_iff.mp (show ts.length = 1 from hlen)
        have hrest : r.cursor.rest = [] := by
          rw [← List.length_eq_zero_iff, ← r.cursor.unread_eq]
          exact hend
        have hdata : data = b := by
          have := hmoves.rest
          rwa [hrest, List.append_nil] at this
        rw [List.flatMap_singleton] at hforms hnodes
        refine ⟨t, ⟨hts t List.mem_cons_self, hdata ▸ hforms⟩, ?_⟩
        rw [hnodes, List.append_nil, List.reverse_reverse]
      · cases h
  · rintro ⟨t, ⟨hcomplete, hforms⟩, rfl⟩
    obtain ⟨hforms, hnone⟩ := Forms.iff_anyCount.mp hforms
    rw [layout_of_spells ⟨hcomplete, hforms⟩ hsize, hnone]

end ScriptHost

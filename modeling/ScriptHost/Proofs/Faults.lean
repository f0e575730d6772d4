import ScriptHost.Proofs.Layout

/-!
# ScriptHost.Proofs.Faults

What is wrong with input that has no layout, and where. `VarInt.Fault` lists what a reader of a
length or count can find, at the cursor where that begins; `Node.Fault` adds the tag in front of it
and the limit that goes with the tag. A run of the layout fails with a fault of one node, and the
nodes before it are the first of a tree which is not complete without it
(`LayoutReader.fault_of_run`); input that is too short for the nodes to come counts as cut short
there. The whole input has the same length seen from every cursor in it (`Moves.total`), so an end
that comes too early is always reported at the end of the input (`layout_unexpectedEnd`).
-/

namespace ScriptHost

/-- The length or count behind the tag has this name, and is held against this limit. -/
inductive Limits.Caps (limits : Limits) : Tag → String → UInt64 → Prop
  | bytes : Caps limits .bytes "byte array length" limits.itemSize
  | integer : Caps limits .integer "byte array length" limits.itemSize
  | array : Caps limits .array "array length" limits.arraySize
  | struct : Caps limits .struct "array length" limits.arraySize
  | map : Caps limits .map "map size" limits.arraySize

namespace Cursor

variable {c d : Cursor} {w : Bytes} {n : Nat} {f : FormatError}

theorem Moves.total (h : c.Moves w d) : d.total = c.total := by
  have hoffset := h.offset
  have hunread := h.unread
  unfold Cursor.total
  omega

theorem byte_eq_error (h : c.byte = .error f) : f = .unexpectedEnd c.total := by
  unfold byte at h
  split at h
  · cases h
    rfl
  · cases h

theorem take_eq_error (h : c.take n = .error f) : f = .unexpectedEnd c.total := by
  unfold take at h
  split at h
  · cases h
    rfl
  · cases h

end Cursor

/-! ## Lengths and byte strings -/

open Cursor

variable {limits : Limits} {c : Cursor} {e : DecodeError} {f : FormatError} {limit : UInt64}
  {what : String}

/-- What can be wrong with a length or count that begins at the cursor, or with the bytes that it
announces. -/
inductive VarInt.Fault (limit : UInt64) (what : String) (c : Cursor) : DecodeError → Prop
  | cutShort : Fault limit what c (.format (.unexpectedEnd c.total))
  | overlong {b : Bytes} {d : Cursor} {first : UInt8} {least : UInt64} :
      c.Moves (first :: b) d → longForm? first = some (b.length, least) →
      UInt64.ofNat (Bytes.toNat b) < least →
      Fault limit what c (.format (.nonCanonicalVarInt c.offset))
  | tooGreat {d : Cursor} {actual : UInt64} :
      c.Moves (write actual) d → limit < actual →
      Fault limit what c (.limitExceeded what limit actual)

theorem VarInt.fault_of_readAny (h : readAny c = .error f) : Fault limit what c (.format f) := by
  unfold readAny at h
  split at h
  · rename_i hbyte
    cases h
    exact byte_eq_error hbyte ▸ .cutShort
  · rename_i first d hbyte
    have hfirst := byte_eq_ok_iff.mp hbyte
    split at h
    · cases h
    · rename_i width least hlong
      split at h
      · rename_i htake
        cases h
        rw [take_eq_error htake, hfirst.total]
        exact .cutShort
      · rename_i b d' htake
        obtain ⟨rfl, hb⟩ := take_eq_ok_iff.mp htake
        simp only at h
        split at h
        · rename_i hlt
          cases h
          exact .overlong (hfirst.trans hb) hlong hlt
        · cases h

theorem VarInt.fault_of_read (h : read limit what c = .error e) : Fault limit what c e := by
  unfold read at h
  split at h
  · rename_i hany
    cases h
    exact fault_of_readAny hany
  · rename_i v d hany
    split at h
    · rename_i hlt
      cases h
      exact .tooGreat (readAny_eq_ok_iff.mp hany) hlt
    · cases h

theorem VarBytes.fault_of_read (h : read limit c = .error e) :
    VarInt.Fault limit "byte array length" c e := by
  unfold read at h
  split at h
  · rename_i hlen
    cases h
    exact VarInt.fault_of_read hlen
  · rename_i n d hlen
    obtain ⟨_, hmoves⟩ := VarInt.read_eq_ok_iff.mp hlen
    split at h
    · rename_i htake
      cases h
      rw [take_eq_error htake, hmoves.total]
      exact .cutShort
    · cases h

/-! ## Nodes -/

namespace Node

/-- What can be wrong with the node that begins at the cursor. -/
inductive Fault (limits : Limits) (c : Cursor) : DecodeError → Prop
  | cutShort : Fault limits c (.format (.unexpectedEnd c.total))
  | invalidTag {tag : UInt8} {rest : Bytes} :
      c.rest = tag :: rest → (∀ t, Tag.ofByte? tag = some t → t = .host) →
      Fault limits c (.format (.invalidTag tag c.offset))
  | size {tag : Tag} {what : String} {limit : UInt64} {d : Cursor} {e : DecodeError} :
      c.Moves [tag.byte] d → limits.Caps tag what limit → VarInt.Fault limit what d e →
      Fault limits c e

theorem fault_of_read (h : read limits c = .error e) : Fault limits c e := by
  unfold read at h
  split at h
  · rename_i hbyte
    cases h
    exact byte_eq_error hbyte ▸ .cutShort
  · rename_i tag d hbyte
    have htag := byte_eq_ok_iff.mp hbyte
    split at h
    · rename_i hkind
      cases Tag.ofByte?_eq_some_iff.mp hkind
      split at h
      · rename_i hread
        cases h
        exact .size htag .bytes (VarBytes.fault_of_read hread)
      · cases h
    · split at h
      · rename_i hread
        cases h
        rw [byte_eq_error hread, htag.total]
        exact .cutShort
      · cases h
    · rename_i hkind
      cases Tag.ofByte?_eq_some_iff.mp hkind
      split at h
      · rename_i hread
        cases h
        exact .size htag .integer (VarBytes.fault_of_read hread)
      · cases h
    · rename_i hkind
      cases Tag.ofByte?_eq_some_iff.mp hkind
      split at h
      · rename_i hread
        cases h
        exact .size htag .array (VarInt.fault_of_read hread)
      · cases h
    · rename_i hkind
      cases Tag.ofByte?_eq_some_iff.mp hkind
      split at h
      · rename_i hread
        cases h
        exact .size htag .struct (VarInt.fault_of_read hread)
      · cases h
    · rename_i hkind
      cases Tag.ofByte?_eq_some_iff.mp hkind
      split at h
      · rename_i hread
        cases h
        exact .size htag .map (VarInt.fault_of_read hread)
      · cases h
    · rename_i hhost
      cases h
      exact .invalidTag htag.rest fun t ht => Option.some_inj.mp (ht.symm.trans hhost)
    · rename_i hnone
      cases h
      exact .invalidTag htag.rest fun t ht => by rw [hnone] at ht; cases ht

end Node

/-! ## Layouts -/

namespace LayoutReader

open Node NodeTree

variable {r : LayoutReader}

theorem fault_of_step (h : r.step limits = .error e) : Node.Fault limits r.cursor e := by
  unfold step at h
  split at h
  · rename_i hread
    cases h
    exact Node.fault_of_read hread
  · rename_i node d hread
    obtain ⟨w, _, hmoves⟩ := Node.read_eq_ok_iff.mp hread
    simp only at h
    split at h
    · cases h
      rw [hmoves.total]
      exact .cutShort
    · cases h

/-- A run fails at a node that is one of those to come. The count in the state saturates; `n` is one
that does not, and the nodes read before the fault leave `m + 1` of it open. -/
theorem fault_of_run {n : Nat} (h : r.run limits = .error e) (hn : r.pending.toNat ≤ n) :
    ∃ w nodes c m, Forms limits w nodes ∧ r.cursor.Moves w c ∧ Node.Fault limits c e ∧
      ∀ later, Fills (m + 1) later → Fills n (nodes ++ later) := by
  fun_induction run limits r generalizing n with
  | case1 => cases h
  | case2 r hne e' hstep =>
    cases h
    obtain ⟨k, hk⟩ := exists_toNat_eq_succ hne
    obtain ⟨m, rfl⟩ : ∃ m, n = m + 1 := Nat.exists_eq_succ_of_ne_zero (by omega)
    exact ⟨[], [], _, m, .nil, .nil _, fault_of_step hstep, fun _ hlater => hlater⟩
  | case3 r hne r' hstep _ ih =>
    obtain ⟨k, hk⟩ := exists_toNat_eq_succ hne
    obtain ⟨m, rfl⟩ : ∃ m, n = m + 1 := Nat.exists_eq_succ_of_ne_zero (by omega)
    obtain ⟨w, node, hw, hmoves, hnext, -, -⟩ := node_of_step hstep
    have hle : r'.pending.toNat ≤ m + node.breadth := by
      rw [hnext, toNat_addSaturating_inside, toNat_sub_one hk]
      omega
    obtain ⟨w', nodes, c, j, hforms, hmoves', hfault, hfills⟩ := ih h hle
    exact ⟨w ++ w', node :: nodes, c, j, .cons hw hforms, hmoves.trans hmoves', hfault,
      fun later hlater => .cons (hfills later hlater)⟩

end LayoutReader

variable {data : Bytes}

/-- Something is wrong with a node of the input, or more stands behind the nodes. -/
theorem fault_of_layout (h : layout data limits = .error e) :
    (∃ w c, NodeTree.SpellsPart limits w ∧ (Cursor.ofBytes data).Moves w c ∧
      Node.Fault limits c e) ∨ ∃ n, e = .format (.trailingBytes n) := by
  unfold layout at h
  split at h
  · rename_i hrun
    cases h
    obtain ⟨w, nodes, c, m, hforms, hmoves, hfault, hfills⟩ :=
      LayoutReader.fault_of_run hrun (Nat.le_refl 1)
    exact .inl ⟨w, c, ⟨nodes, NodeTree.unfinished_of_fills hfills, hforms⟩, hmoves, hfault⟩
  · split at h
    · cases h
    · cases h
      exact .inr ⟨_, rfl⟩

theorem layout_unexpectedEnd {offset : Nat}
    (h : layout data limits = .error (.format (.unexpectedEnd offset))) : offset = data.length := by
  rcases fault_of_layout h with ⟨w, c, -, hmoves, hfault⟩ | ⟨n, hn⟩
  · have htotal : c.total = data.length := hmoves.total.trans (Nat.zero_add _)
    cases hfault with
    | cutShort => exact htotal
    | size htag _ hfault =>
      cases hfault with
      | cutShort => exact htag.total.trans htotal
  · cases hn

/-! ## What belongs to the layout -/

/-- The faults that show before any container is made. -/
def DecodeError.OfLayout : DecodeError → Prop
  | .format (.invalidMapKey _) | .heap _ => False
  | .format _ | .limitExceeded .. => True

theorem layout_fault (h : layout data limits = .error e) : e.OfLayout := by
  rcases fault_of_layout h with ⟨w, c, -, -, hfault⟩ | ⟨n, rfl⟩
  · cases hfault with
    | cutShort => trivial
    | invalidTag => trivial
    | size _ _ hfault => cases hfault <;> trivial
  · trivial

end ScriptHost

import ScriptHost.Codec.Decode
import ScriptHost.Proofs.Layout
import ScriptHost.Proofs.Writing

/-!
# ScriptHost.Proofs.Gating

Limits refuse, and change nothing else. Reading under smaller limits goes node by node as under
larger ones until a length or count is refused for its size (`Node.read_gated`, then
`LayoutReader.run_gated`); the checks that do not depend on the limits come at the same nodes in
the same order. Containers are made from the nodes alone, so this carries over to decoding. Writing
looks at one limit only, and only at the length of the output (`Encoder.run_of_le`).
-/

namespace ScriptHost

/-- The first outcome is a refusal for a limit, or the second is the same. -/
inductive Gated {α : Type} : Except DecodeError α → Except DecodeError α → Prop
  | refused (what : String) (limit actual : UInt64) (r' : Except DecodeError α) :
      Gated (.error (.limitExceeded what limit actual)) r'
  | same (r : Except DecodeError α) : Gated r r

/-- Two gated outcomes are a refusal with anything beside it, or one outcome twice. -/
@[elab_as_elim] theorem Gated.elim {α : Type} {r r' : Except DecodeError α}
    {motive : Except DecodeError α → Except DecodeError α → Prop} (h : Gated r r')
    (refused : ∀ what limit actual r', motive (.error (.limitExceeded what limit actual)) r')
    (same : ∀ r, motive r r) : motive r r' := by
  cases h with
  | refused what limit actual r' => exact refused what limit actual r'
  | same r => exact same r

/-! ## Reading one node -/

theorem VarInt.read_gated {limit limit' : UInt64} (hle : limit ≤ limit') (what : String)
    (c : Cursor) : Gated (read limit what c) (read limit' what c) := by
  unfold read
  split
  · exact .same _
  · rename_i v c' _
    split
    · exact .refused what limit v _
    · rename_i hv
      have hv' : ¬limit' < v := by
        rw [UInt64.lt_iff_toNat_lt] at hv ⊢
        rw [UInt64.le_iff_toNat_le] at hle
        omega
      rw [if_neg hv']
      exact .same _

theorem VarBytes.read_gated {limit limit' : UInt64} (hle : limit ≤ limit') (c : Cursor) :
    Gated (read limit c) (read limit' c) := by
  unfold read
  exact (VarInt.read_gated hle "byte array length" c).elim (fun _ _ _ _ => .refused ..)
    fun _ => .same _

variable {limits limits' : Limits}

theorem Node.read_gated (hitem : limits.itemSize ≤ limits'.itemSize)
    (harray : limits.arraySize ≤ limits'.arraySize) (c : Cursor) :
    Gated (read limits c) (read limits' c) := by
  unfold read
  split
  · exact .same _
  · rename_i tag c₁ _
    have string := VarBytes.read_gated hitem c₁
    have counted (what : String) := VarInt.read_gated harray what c₁
    cases Tag.ofByte? tag with
    | none => exact .same _
    | some kind =>
      cases kind with
      | bytes => exact string.elim (fun _ _ _ _ => .refused ..) fun _ => .same _
      | boolean => exact .same _
      | integer => exact string.elim (fun _ _ _ _ => .refused ..) fun _ => .same _
      | host => exact .same _
      | array =>
        exact (counted "array length").elim (fun _ _ _ _ => .refused ..) fun _ => .same _
      | struct =>
        exact (counted "array length").elim (fun _ _ _ _ => .refused ..) fun _ => .same _
      | map => exact (counted "map size").elim (fun _ _ _ _ => .refused ..) fun _ => .same _

/-! ## Reading all nodes -/

namespace LayoutReader

theorem step_gated (hitem : limits.itemSize ≤ limits'.itemSize)
    (harray : limits.arraySize ≤ limits'.arraySize) (r : LayoutReader) :
    Gated (r.step limits) (r.step limits') := by
  unfold step
  exact (Node.read_gated hitem harray r.cursor).elim (fun _ _ _ _ => .refused ..)
    fun _ => .same _

theorem run_gated (hitem : limits.itemSize ≤ limits'.itemSize)
    (harray : limits.arraySize ≤ limits'.arraySize) (r : LayoutReader) :
    Gated (run limits r) (run limits' r) := by
  fun_induction run limits r with
  | case1 r hzero =>
    rw [run_eq, if_pos hzero]
    exact .same _
  | case2 r hne e hstep =>
    have h := step_gated hitem harray r
    rw [@run_eq limits', if_neg hne]
    rw [hstep] at h
    generalize r.step limits' = next at h ⊢
    cases h with
    | refused => exact .refused ..
    | same => exact .same _
  | case3 r hne r' hstep _ ih =>
    have h := step_gated hitem harray r
    rw [@run_eq limits', if_neg hne]
    rw [hstep] at h
    generalize r.step limits' = next at h ⊢
    cases h with
    | same => exact ih

end LayoutReader

theorem layout_gated (hitem : limits.itemSize ≤ limits'.itemSize)
    (harray : limits.arraySize ≤ limits'.arraySize) (data : Bytes) :
    Gated (layout data limits) (layout data limits') := by
  unfold layout
  exact (LayoutReader.run_gated hitem harray { cursor := .ofBytes data }).elim
    (fun _ _ _ _ => .refused ..) fun _ => .same _

/-- Under smaller limits, decoding refuses for a limit and leaves the heap as it is, or comes out
as under larger ones, with the same item or error and the same heap. Writing refuses for the
length or comes out the same, and what can be written under the larger limits is refused exactly
if it is too long, whatever the limit on counts. -/
theorem limits_only_gate (hitem : limits.itemSize ≤ limits'.itemSize)
    (harray : limits.arraySize ≤ limits'.arraySize) :
    (∀ heap data,
      (∃ what limit actual,
        decode heap data limits = (.error (.limitExceeded what limit actual), heap)) ∨
      decode heap data limits' = decode heap data limits) ∧
    (∀ heap x,
      encode heap x limits = .error (.itemTooLarge limits.itemSize) ∨
      encode heap x limits' = encode heap x limits) ∧
    ∀ heap x b, encode heap x limits' = .ok b → ∀ count,
      encode heap x { limits with arraySize := count } =
        if b.length ≤ limits.itemSize.toNat then .ok b
        else .error (.itemTooLarge limits.itemSize) := by
  refine ⟨?_, ?_, ?_⟩
  · intro heap data
    unfold decode
    refine (layout_gated hitem harray data).elim ?_ ?_
    · intro what limit actual r'
      exact .inl ⟨what, limit, actual, rfl⟩
    · intro r
      exact .inr rfl
  · intro heap x
    exact (Encoder.run_of_le hitem _).symm.imp_right Eq.symm
  · intro heap x b h count
    exact encode_of_encode h

/-- Room for four bytes and for one element. -/
def narrow : Limits := { itemSize := 4, arraySize := 1 }

theorem limits_only_gate_narrow :
    narrow.itemSize ≤ 1048576 ∧ narrow.arraySize ≤ 1024 ∧
      ((∃ what limit actual, decode .empty [0x80, 0x02, 0x01, 0x01, 0x40] narrow =
          (.error (.limitExceeded what limit actual), .empty)) ∨
        decode .empty [0x80, 0x02, 0x01, 0x01, 0x40] {} =
          decode .empty [0x80, 0x02, 0x01, 0x01, 0x40] narrow) ∧
      encode .empty (.bytes [7, 8, 9]) {} = .ok [0x00, 0x03, 7, 8, 9] ∧
      ∀ count, encode .empty (.bytes [7, 8, 9]) { narrow with arraySize := count } =
        .error (.itemTooLarge 4) := by
  have hitem : narrow.itemSize ≤ ({} : Limits).itemSize := by decide
  have harray : narrow.arraySize ≤ ({} : Limits).arraySize := by decide
  have hencode : encode .empty (.bytes [7, 8, 9]) {} = .ok [0x00, 0x03, 7, 8, 9] := by cbv
  obtain ⟨decodes, _, encodes⟩ := limits_only_gate hitem harray
  exact ⟨hitem, harray, decodes _ _, hencode, encodes _ _ _ hencode⟩

end ScriptHost

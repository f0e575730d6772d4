import ScriptHost.Codec.Decode
import ScriptHost.Proofs.Faults

/-!
# ScriptHost.Proofs.SelfDelimiting

What reading makes of input when more bytes stand behind it. Every reader of the layout either
hits the end of the shorter input or gives for both inputs the same, value or fault (`Settles`);
the count of the nodes to come is the same for both, and it is held against fewer bytes in the
shorter one. So the bytes of a layout say themselves where they end: less of them is cut short, and
what stands behind them is left over (`decode_selfDelimiting`).
-/

namespace ScriptHost

/-- The first outcome is that of input which ends too early, or both outcomes agree. -/
inductive Settles {ε α : Type} (R : α → α → Prop) (cutShort : ε) : Except ε α → Except ε α → Prop
  | cut (r : Except ε α) : Settles R cutShort (.error cutShort) r
  | error (e : ε) : Settles R cutShort (.error e) (.error e)
  | ok {x y : α} : R x y → Settles R cutShort (.ok x) (.ok y)

/-! ## Two cursors at one place -/

namespace Cursor

/-- The cursors stand at the same place, and the input of the second is that of the first, of
`total` bytes, with `s` behind it. -/
structure Longer (total : Nat) (s : Bytes) (c d : Cursor) : Prop where
  rest : d.rest = c.rest ++ s
  offset : d.offset = c.offset
  total : c.total = total

/-- Both have read the same value. -/
def SameRead {α : Type} (total : Nat) (s : Bytes) (p q : α × Cursor) : Prop :=
  p.1 = q.1 ∧ Longer total s p.2 q.2

variable {total : Nat} {s b : Bytes} {c c₁ d : Cursor}

theorem Longer.unread (h : c.Longer total s d) : d.unread = c.unread + s.length := by
  rw [d.unread_eq, c.unread_eq, h.rest, List.length_append]

theorem Longer.moves (h : c.Longer total s d) (hc : c.Moves b c₁) :
    ∃ d₁, d.Moves b d₁ ∧ c₁.Longer total s d₁ := by
  have hrest : d.rest = b ++ (c₁.rest ++ s) := by rw [h.rest, hc.rest, List.append_assoc]
  obtain ⟨d₁, hd, hd₁⟩ := exists_moves hrest
  refine ⟨d₁, hd, hd₁, ?_, ?_⟩
  · rw [hd.offset, hc.offset, h.offset]
  · have := hc.unread
    have := hc.offset
    have := h.total
    unfold Cursor.total at *
    omega

theorem byte_of_rest_nil (h : c.rest = []) : c.byte = .error (.unexpectedEnd c.total) := by
  unfold byte
  split
  · rfl
  · rename_i hrest
    rw [h] at hrest
    cases hrest

/-- What is made of a settled read is compared when both have read the same value. -/
@[elab_as_elim] theorem read_cases {ε α : Type} {cutShort : ε} {r r' : Except ε (α × Cursor)}
    {motive : Except ε (α × Cursor) → Except ε (α × Cursor) → Prop}
    (h : Settles (SameRead total s) cutShort r r') (cut : ∀ r', motive (.error cutShort) r')
    (error : ∀ e, motive (.error e) (.error e))
    (ok : ∀ x c d, Longer total s c d → motive (.ok (x, c)) (.ok (x, d))) : motive r r' := by
  cases h with
  | cut r' => exact cut r'
  | error e => exact error e
  | @ok p q hpq =>
    obtain ⟨x, c⟩ := p
    obtain ⟨y, d⟩ := q
    obtain ⟨rfl, hcd⟩ := hpq
    exact ok x c d hcd

theorem byte_settles (h : c.Longer total s d) :
    Settles (SameRead total s) (.unexpectedEnd total) c.byte d.byte := by
  cases hrest : c.rest with
  | nil =>
    rw [byte_of_rest_nil hrest, h.total]
    exact .cut _
  | cons x rest =>
    obtain ⟨c₁, hc, _⟩ := exists_moves (b := [x]) hrest
    obtain ⟨d₁, hd, h₁⟩ := h.moves hc
    rw [byte_eq_ok_iff.mpr hc, byte_eq_ok_iff.mpr hd]
    exact .ok ⟨rfl, h₁⟩

theorem take_settles (h : c.Longer total s d) (n : Nat) :
    Settles (SameRead total s) (.unexpectedEnd total) (c.take n) (d.take n) := by
  by_cases hn : c.unread < n
  · have hcut : c.take n = .error (.unexpectedEnd total) := by
      unfold take
      rw [if_pos hn, h.total]
    rw [hcut]
    exact .cut _
  · have hlen : (c.rest.take n).length = n := by
      have := c.unread_eq
      rw [List.length_take]
      omega
    obtain ⟨c₁, hc, _⟩ := exists_moves (List.take_append_drop n c.rest).symm
    obtain ⟨d₁, hd, h₁⟩ := h.moves hc
    rw [take_eq_ok_iff.mpr ⟨hlen, hc⟩, take_eq_ok_iff.mpr ⟨hlen, hd⟩]
    exact .ok ⟨rfl, h₁⟩

end Cursor

/-! ## Lengths and byte strings -/

namespace VarInt

open Cursor

variable {total : Nat} {s : Bytes} {c d : Cursor}

theorem readAny_settles (h : c.Longer total s d) :
    Settles (SameRead total s) (.unexpectedEnd total) (readAny c) (readAny d) := by
  unfold readAny
  rw [h.offset]
  refine read_cases (byte_settles h) (fun _ => .cut _) (fun _ => .error _) ?_
  intro first c₁ d₁ h₁
  simp only
  cases longForm? first with
  | none => exact .ok ⟨rfl, h₁⟩
  | some form =>
    obtain ⟨width, least⟩ := form
    simp only
    refine read_cases (take_settles h₁ width) (fun _ => .cut _) (fun _ => .error _) ?_
    intro b c₂ d₂ h₂
    simp only
    split
    · exact .error _
    · exact .ok ⟨rfl, h₂⟩

theorem read_settles (limit : UInt64) (what : String) (h : c.Longer total s d) :
    Settles (SameRead total s) (.format (.unexpectedEnd total)) (read limit what c)
      (read limit what d) := by
  unfold read
  refine read_cases (readAny_settles h) (fun _ => .cut _) (fun _ => .error _) ?_
  intro v c₁ d₁ h₁
  simp only
  split
  · exact .error _
  · exact .ok ⟨rfl, h₁⟩

end VarInt

theorem VarBytes.read_settles {total : Nat} {s : Bytes} {c d : Cursor} (limit : UInt64)
    (h : c.Longer total s d) :
    Settles (Cursor.SameRead total s) (.format (.unexpectedEnd total)) (read limit c)
      (read limit d) := by
  unfold read
  refine Cursor.read_cases (VarInt.read_settles limit _ h) (fun _ => .cut _) (fun _ => .error _) ?_
  intro n c₁ d₁ h₁
  simp only
  refine Cursor.read_cases (Cursor.take_settles h₁ n.toNat) (fun _ => .cut _) (fun _ => .error _) ?_
  intro b c₂ d₂ h₂
  exact .ok ⟨rfl, h₂⟩

/-! ## Nodes -/

theorem Node.read_settles {total : Nat} {s : Bytes} {c d : Cursor} (limits : Limits)
    (h : c.Longer total s d) :
    Settles (Cursor.SameRead total s) (.format (.unexpectedEnd total)) (read limits c)
      (read limits d) := by
  unfold read
  rw [h.offset]
  refine Cursor.read_cases (Cursor.byte_settles h) (fun _ => .cut _) (fun _ => .error _) ?_
  intro tag c₁ d₁ h₁
  have string := VarBytes.read_settles limits.itemSize h₁
  have counted (what : String) := VarInt.read_settles limits.arraySize what h₁
  simp only
  cases Tag.ofByte? tag with
  | none => exact .error _
  | some kind =>
    cases kind with
    | bytes =>
      refine Cursor.read_cases string (fun _ => .cut _) (fun _ => .error _) ?_
      intro b c₂ d₂ h₂
      exact .ok ⟨rfl, h₂⟩
    | boolean =>
      refine Cursor.read_cases (Cursor.byte_settles h₁) (fun _ => .cut _) (fun _ => .error _) ?_
      intro b c₂ d₂ h₂
      exact .ok ⟨rfl, h₂⟩
    | integer =>
      refine Cursor.read_cases string (fun _ => .cut _) (fun _ => .error _) ?_
      intro b c₂ d₂ h₂
      exact .ok ⟨rfl, h₂⟩
    | host => exact .error _
    | array =>
      refine Cursor.read_cases (counted "array length") (fun _ => .cut _) (fun _ => .error _) ?_
      intro n c₂ d₂ h₂
      exact .ok ⟨rfl, h₂⟩
    | struct =>
      refine Cursor.read_cases (counted "array length") (fun _ => .cut _) (fun _ => .error _) ?_
      intro n c₂ d₂ h₂
      exact .ok ⟨rfl, h₂⟩
    | map =>
      refine Cursor.read_cases (counted "map size") (fun _ => .cut _) (fun _ => .error _) ?_
      intro n c₂ d₂ h₂
      exact .ok ⟨rfl, h₂⟩

/-! ## Layouts -/

namespace LayoutReader

/-- Both have read the same nodes, and as many are to come. -/
structure SameLayout (total : Nat) (s : Bytes) (r r' : LayoutReader) : Prop where
  cursor : r.cursor.Longer total s r'.cursor
  pending : r'.pending = r.pending
  nodes : r'.nodes = r.nodes

variable {limits : Limits} {total : Nat} {s : Bytes} {r r' : LayoutReader}

theorem step_settles (h : SameLayout total s r r') :
    Settles (SameLayout total s) (.format (.unexpectedEnd total)) (r.step limits)
      (r'.step limits) := by
  unfold step
  rw [h.pending, h.nodes]
  refine Cursor.read_cases (Node.read_settles limits h.cursor) (fun _ => .cut _)
    (fun _ => .error _) ?_
  intro node c d hcd
  simp only
  have hunread := hcd.unread
  by_cases hshort : c.unread < (addSaturating (r.pending - 1) node.inside).toNat
  · rw [if_pos hshort, hcd.total]
    exact .cut _
  · rw [if_neg hshort, if_neg (by omega)]
    exact .ok ⟨hcd, rfl, rfl⟩

/-- Both runs take the same steps as long as the shorter input lasts. -/
theorem run_settles (h : SameLayout total s r r') :
    Settles (SameLayout total s) (.format (.unexpectedEnd total)) (run limits r)
      (run limits r') := by
  fun_induction run limits r generalizing r' with
  | case1 r hzero =>
    rw [run_eq r', if_pos (h.pending.trans hzero)]
    exact .ok h
  | case2 r hne e hstep =>
    have hsteps : Settles _ _ _ (r'.step limits) := step_settles h
    rw [run_eq r', if_neg (h.pending ▸ hne)]
    rw [hstep] at hsteps
    generalize r'.step limits = t at hsteps ⊢
    cases hsteps with
    | cut => exact .cut _
    | error => exact .error _
  | case3 r hne r₁ hstep _ ih =>
    have hsteps : Settles _ _ _ (r'.step limits) := step_settles h
    rw [run_eq r', if_neg (h.pending ▸ hne)]
    rw [hstep] at hsteps
    generalize r'.step limits = t at hsteps ⊢
    cases hsteps with
    | ok h₁ => exact ih h₁

end LayoutReader

variable {data s : Bytes} {limits : Limits} {nodes : List Node}

theorem layout_runs_settle (data s : Bytes) (limits : Limits) :
    Settles (LayoutReader.SameLayout data.length s) (.format (.unexpectedEnd data.length))
      (LayoutReader.run limits { cursor := .ofBytes data })
      (LayoutReader.run limits { cursor := .ofBytes (data ++ s) }) := by
  refine LayoutReader.run_settles ⟨⟨rfl, rfl, ?_⟩, rfl, rfl⟩
  exact Nat.zero_add _

/-- What stands behind a layout is left over. -/
theorem layout_append (h : layout data limits = .ok nodes) (hs : s ≠ []) :
    layout (data ++ s) limits = .error (.format (.trailingBytes s.length)) := by
  have hruns := layout_runs_settle data s limits
  unfold layout at h ⊢
  generalize LayoutReader.run limits { cursor := .ofBytes data } = r,
    LayoutReader.run limits { cursor := .ofBytes (data ++ s) } = r' at hruns h ⊢
  cases hruns with
  | cut => cases h
  | error => cases h
  | @ok a b hab =>
    simp only at h ⊢
    split at h
    · rename_i hend
      have hunread : b.cursor.unread = s.length := by rw [hab.cursor.unread, hend, Nat.zero_add]
      rw [hunread, if_neg (fun hzero => hs (List.length_eq_zero_iff.mp hzero))]
    · cases h

/-- A layout with its end missing is cut short. -/
theorem layout_of_append (h : layout (data ++ s) limits = .ok nodes) (hs : s ≠ []) :
    layout data limits = .error (.format (.unexpectedEnd data.length)) := by
  have hruns := layout_runs_settle data s limits
  unfold layout at h ⊢
  generalize LayoutReader.run limits { cursor := .ofBytes data } = r,
    LayoutReader.run limits { cursor := .ofBytes (data ++ s) } = r' at hruns h ⊢
  cases hruns with
  | cut => rfl
  | error => cases h
  | @ok a b hab =>
    simp only at h
    split at h
    · rename_i hend
      rw [hab.cursor.unread] at hend
      exact absurd (List.length_eq_zero_iff.mp (by omega)) hs
    · cases h

/-! ## Decoding -/

theorem decode_of_layout_error {e : DecodeError} (heap : Heap) (h : layout data limits = .error e) :
    decode heap data limits = (.error e, heap) := by
  unfold decode
  rw [h]

/-- The bytes of a layout say where they end. A layout is what input has that is decoded, or is
refused for nothing but a key. The first `n` bytes of it, if that is not all, end too early at
`n`, and whatever stands behind it is left over, byte for byte; the heap stays as it was. -/
theorem decode_selfDelimiting (heap : Heap) (data : Bytes) (limits : Limits) :
    ((∃ x heap', decode heap data limits = (.ok x, heap')) ∨
        (∃ kind heap', decode heap data limits = (.error (.format (.invalidMapKey kind)), heap')) →
      ∃ nodes, layout data limits = .ok nodes) ∧
    ∀ nodes, layout data limits = .ok nodes →
      (∀ n < data.length,
        decode heap (data.take n) limits = (.error (.format (.unexpectedEnd n)), heap)) ∧
      (∀ s, s ≠ [] →
        decode heap (data ++ s) limits = (.error (.format (.trailingBytes s.length)), heap)) := by
  refine ⟨?_, ?_⟩
  · intro h
    cases hlayout : layout data limits with
    | ok nodes => exact ⟨nodes, rfl⟩
    | error e =>
      have hfault := layout_fault hlayout
      rw [decode_of_layout_error heap hlayout] at h
      rcases h with ⟨x, heap', h⟩ | ⟨kind, heap', h⟩
      · cases h
      · cases h
        cases hfault
  · intro nodes h
    refine ⟨?_, ?_⟩
    · intro n hn
      have hlen : (data.take n).length = n := by
        rw [List.length_take]
        omega
      have hrest : data.drop n ≠ [] := by
        intro hnil
        have := List.drop_eq_nil_iff.mp hnil
        omega
      rw [← List.take_append_drop n data] at h
      have hcut := layout_of_append h hrest
      rw [hlen] at hcut
      exact decode_of_layout_error heap hcut
    · intro s hs
      exact decode_of_layout_error heap (layout_append h hs)

/-- A map whose one key is an array: it has a layout, but is not decoded. -/
def arrayAsKey : Bytes := [0x82, 0x01, 0x80, 0x00, 0x00, 0x00]

theorem decode_selfDelimiting_arrayAsKey :
    decode .empty arrayAsKey {} = (.error (.format (.invalidMapKey "Array")), .empty) ∧
      decode .empty (arrayAsKey.take 4) {} = (.error (.format (.unexpectedEnd 4)), .empty) ∧
      decode .empty (arrayAsKey ++ [0x07]) {} = (.error (.format (.trailingBytes 1)), .empty) := by
  have hkey : decode .empty arrayAsKey {} =
      (.error (.format (.invalidMapKey "Array")), .empty) := by decide +kernel
  obtain ⟨hlayout, hdelimited⟩ := decode_selfDelimiting .empty arrayAsKey {}
  obtain ⟨nodes, hnodes⟩ := hlayout (.inr ⟨_, _, hkey⟩)
  obtain ⟨hcut, hleft⟩ := hdelimited nodes hnodes
  exact ⟨hkey, hcut 4 (by decide), hleft [0x07] (by decide)⟩

end ScriptHost

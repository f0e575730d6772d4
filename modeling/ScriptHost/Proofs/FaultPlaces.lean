import ScriptHost.Proofs.SelfDelimiting

/-!
# ScriptHost.Proofs.FaultPlaces

Where the faults of input are that no more input can mend: a tag that none has, a length that is too
long for its value, and one above its limit. Each is found in the layout, before any container is
made (`layout_of_decode_error`), behind whole nodes that leave one at least to come. As the reader
has not come to the end of the input, whatever stands behind the fault changes nothing
(`layout_error_append`). Main statement: `decode_faults_located`.
-/

namespace ScriptHost

/-- The faults that stay, whatever bytes are added behind the input. -/
def DecodeError.Lasts : DecodeError → Prop
  | .format (.invalidTag ..) | .format (.nonCanonicalVarInt _) | .limitExceeded .. => True
  | .format (.unexpectedEnd _) | .format (.trailingBytes _) | .format (.invalidMapKey _)
  | .heap _ => False

/-! ## Faults of the layout only -/

theorem Entries.insertAll_error {es : Entries} {xs : List Item} {f : FormatError}
    (h : es.insertAll xs = .error f) : ∃ kind, f = .invalidMapKey kind := by
  induction es, xs using Entries.insertAll.induct with
  | case1 es key value rest hkey =>
    rw [insertAll, hkey] at h
    cases h
    exact ⟨_, rfl⟩
  | case2 es key value rest k hkey ih =>
    rw [insertAll, hkey] at h
    exact ih h
  | case3 xs es hshort =>
    rcases xs with _ | ⟨x, _ | ⟨y, rest⟩⟩
    · cases h
    · cases h
    · exact absurd rfl (hshort x y rest)

namespace Node

variable {kind : ContainerKind} {node : Node} {nodes : List Node} {children made : List Item}
  {heap heap' : Heap} {e : DecodeError}

theorem build_error (h : build kind children heap = (.error e, heap')) : ¬e.Lasts := by
  unfold build at h
  split at h
  · split at h <;> cases h
    exact id
  · split at h <;> cases h
    exact id
  · split at h
    · rename_i f hinsert
      cases h
      obtain ⟨_, rfl⟩ := Entries.insertAll_error hinsert
      exact id
    · split at h <;> cases h
      exact id

theorem place_error (h : node.place made heap = (.error e, heap')) : ¬e.Lasts := by
  unfold place at h
  split at h
  · cases h
  · split at h
    · cases h
      exact id
    · split at h
      · rename_i hbuild
        cases h
        exact build_error hbuild
      · cases h

theorem placeAll_error (h : placeAll nodes made heap = (.error e, heap')) : ¬e.Lasts := by
  induction nodes generalizing made heap with
  | nil => cases h
  | cons node earlier ih =>
    rw [placeAll] at h
    split at h
    · rename_i hplace
      cases h
      exact place_error hplace
    · exact ih h

end Node

theorem rebuild_error {nodes : List Node} {heap heap' : Heap} {e : DecodeError}
    (h : rebuild nodes heap = (.error e, heap')) : ¬e.Lasts := by
  unfold rebuild at h
  split at h
  · rename_i hplace
    cases h
    exact Node.placeAll_error hplace
  · cases h
  · cases h
    exact id

variable {data s w : Bytes} {limits : Limits} {e : DecodeError}

theorem layout_of_decode_error {heap heap' : Heap} (he : e.Lasts)
    (h : decode heap data limits = (.error e, heap')) : layout data limits = .error e := by
  unfold decode at h
  split at h
  · rename_i hlayout
    cases h
    exact hlayout
  · split at h
    · rename_i hrebuild
      cases h
      exact absurd he (rebuild_error hrebuild)
    · cases h

theorem layout_error_append (he : e.Lasts) (h : layout data limits = .error e) (s : Bytes) :
    layout (data ++ s) limits = .error e := by
  have hruns := layout_runs_settle data s limits
  unfold layout at h ⊢
  generalize LayoutReader.run limits { cursor := .ofBytes data } = r,
    LayoutReader.run limits { cursor := .ofBytes (data ++ s) } = r' at hruns h ⊢
  cases hruns with
  | cut =>
    cases h
    exact he.elim
  | error => exact h
  | ok =>
    simp only at h
    split at h
    · cases h
    · cases h
      exact he.elim

/-! ## The place of a fault -/

theorem Tag.not_mem_of_unreadable {tag : UInt8} (h : ∀ t, Tag.ofByte? tag = some t → t = .host) :
    tag ∉ [0x00, 0x01, 0x02, 0x80, 0x81, 0x82] := by
  intro hmem
  simp only [List.mem_cons, List.not_mem_nil, or_false] at hmem
  rcases hmem with rfl | rfl | rfl | rfl | rfl | rfl
  all_goals cases h _ rfl

/-- The node with the fault stands behind the first nodes of a tree, and is the next of it. -/
theorem fault_of_decode {heap heap' : Heap} (h : decode heap data limits = (.error e, heap'))
    (he : e.Lasts) :
    ∃ w c, NodeTree.SpellsPart limits w ∧ data = w ++ c.rest ∧ c.offset = w.length ∧
      Node.Fault limits c e := by
  rcases fault_of_layout (layout_of_decode_error he h) with ⟨w, c, hw, hmoves, hfault⟩ | ⟨n, rfl⟩
  · exact ⟨w, c, hw, hmoves.rest, hmoves.offset.trans (Nat.zero_add _), hfault⟩
  · exact he.elim

/-- Faults of input are where they are said to be. A tag that is refused stands at its offset, and
is none of the six that can be read; a length that is refused as too long for its value stands at
its offset, behind the tag of its node, and the value has a shorter form; one that is above its
limit stands behind its tag in its one form, and the limit is the one that goes with the tag. The
bytes before the tag are whole nodes, the first of a tree with one at least to come. With any bytes
behind it, the input is refused for the same fault. -/
theorem decode_faults_located (heap : Heap) (data : Bytes) (limits : Limits) :
    (∀ tag offset heap',
      decode heap data limits = (.error (.format (.invalidTag tag offset)), heap') →
      data[offset]? = some tag ∧ tag ∉ [0x00, 0x01, 0x02, 0x80, 0x81, 0x82] ∧
        NodeTree.SpellsPart limits (data.take offset)) ∧
    (∀ offset heap',
      decode heap data limits = (.error (.format (.nonCanonicalVarInt offset)), heap') →
      ∃ w tag what limit first b rest, data = w ++ tag.byte :: (first :: b ++ rest) ∧
        offset = w.length + 1 ∧ NodeTree.SpellsPart limits w ∧ limits.Caps tag what limit ∧
        (first, b.length) ∈ [(0xFD, 2), (0xFE, 4), (0xFF, 8)] ∧
        (VarInt.write (UInt64.ofNat (Bytes.toNat b))).length < (first :: b).length) ∧
    (∀ what limit actual heap',
      decode heap data limits = (.error (.limitExceeded what limit actual), heap') →
      ∃ w tag rest, data = w ++ tag.byte :: (VarInt.write actual ++ rest) ∧
        NodeTree.SpellsPart limits w ∧ limits.Caps tag what limit ∧ limit < actual) ∧
    ∀ e heap', e.Lasts → decode heap data limits = (.error e, heap') →
      ∀ s heap₁, decode heap₁ (data ++ s) limits = (.error e, heap₁) := by
  refine ⟨?_, ?_, ?_, ?_⟩
  · intro tag offset heap' h
    obtain ⟨w, c, hw, hdata, hoffset, hfault⟩ := fault_of_decode h trivial
    cases hfault with
    | invalidTag hrest htag =>
      rw [hrest] at hdata
      rw [hoffset, hdata]
      exact ⟨by simp, Tag.not_mem_of_unreadable htag, by simpa using hw⟩
    | size _ _ hfault => cases hfault
  · intro offset heap' h
    obtain ⟨w, c, hw, hdata, hoffset, hfault⟩ := fault_of_decode h trivial
    cases hfault with
    | @size tag what limit d _ htag hcaps hfault =>
      cases hfault with
      | @overlong b d' first least hform hlong hlt =>
        have hmem := VarInt.exists_longForm?_iff.mp ⟨_, hlong⟩
        have hshort := VarInt.length_write_of_lt hlong hlt
        have hplace : d.offset = w.length + 1 := by rw [htag.offset, hoffset]; rfl
        rw [htag.rest, hform.rest] at hdata
        exact ⟨w, tag, what, limit, first, b, d'.rest, hdata, hplace, hw, hcaps, hmem,
          Nat.lt_succ_of_le hshort⟩
  · intro what limit actual heap' h
    obtain ⟨w, c, hw, hdata, -, hfault⟩ := fault_of_decode h trivial
    cases hfault with
    | @size tag _ _ d _ htag hcaps hfault =>
      cases hfault with
      | @tooGreat d' _ hform hlt =>
        rw [htag.rest, hform.rest] at hdata
        exact ⟨w, tag, d'.rest, hdata, hw, hcaps, hlt⟩
  · intro e heap' he h s heap₁
    exact decode_of_layout_error heap₁ (layout_error_append he (layout_of_decode_error he h) s)

/-- The second element of an array is a host reference. -/
example : decode .empty [0x80, 0x02, 0x01, 0x00, 0x40, 0x07] {} =
    (.error (.format (.invalidTag 0x40 4)), .empty) := by
  decide +kernel

end ScriptHost

import ScriptHost.Proofs.Unfolding

/-!
# ScriptHost.Proofs.Writing

Writing gives the recursive encoding of the unfolding, or nothing.

* `run_written`: a run that succeeds has appended, for every pending node, the encoding of an
  unfolding of it. A successful run is finite, so no set of open containers is needed here.
* `advances_shown`: a pending node that unfolds is written whole, if its encoding fits, and leaves
  the open containers as they were. The containers that are open while a node is written have
  larger unfoldings than it (`Clear`), so none of them is met again.
* `encode_eq_ok_iff_unfolds` puts the two together, and `encode_eq_ok_iff` says it in terms of what
  the item reaches.
-/

namespace ScriptHost

namespace Encoder

variable {heap : Heap} {limits : Limits}

/-! ## One step of a run -/

theorem run_nil (out : Array UInt8) (arrays : Std.HashSet ArrayRef) (maps : Std.HashSet MapRef) :
    run heap limits ⟨out, [], arrays, maps⟩ = .ok out.toList := by
  rw [run]

theorem run_cons (out : Array UInt8) (node : Pending) (rest : List Pending)
    (arrays : Std.HashSet ArrayRef) (maps : Std.HashSet MapRef) :
    run heap limits ⟨out, node :: rest, arrays, maps⟩ =
      match step heap limits ⟨out, rest, arrays, maps⟩ node with
      | .error e => .error e
      | .ok s => run heap limits s := by
  rw [run]
  split
  · rename_i hp
    cases hp
  · rename_i hp
    cases hp
    split <;> rename_i h <;> simp only [h]

theorem step_eq_ok_iff {s s' : Encoder} {node : Pending} :
    step heap limits s node = .ok s' ↔
      s.visit heap node = .ok s' ∧ s'.out.size ≤ limits.itemSize.toNat := by
  unfold step
  split
  · rename_i e he
    simp [he]
  · rename_i t ht
    rw [ht]
    split
    · rename_i hlt
      constructor
      · intro h
        cases h
      · rintro ⟨h, hle⟩
        cases h
        omega
    · rename_i hle
      constructor
      · intro h
        cases h
        exact ⟨rfl, Nat.le_of_not_lt hle⟩
      · rintro ⟨h, _⟩
        exact h

theorem append_append (out : Array UInt8) (a b : Bytes) : out ++ a ++ b = out ++ (a ++ b) :=
  Array.toList_inj.mp (by simp)

/-! ## What is pending and what it stands for -/

/-- The node, an item or a key, unfolds to the content. -/
def Shows (heap : Heap) : Pending → Content → Prop
  | .item x, t => heap.Unfolds x t
  | .key k, t => t = .leaf k
  | .leaveArray _, _ | .leaveMap _, _ => False

/-- The bytes are what the node adds to the output; a marker adds none. -/
def Writes (heap : Heap) : Pending → Bytes → Prop
  | .leaveArray _, b | .leaveMap _, b => b = []
  | node, b => ∃ t, Shows heap node t ∧ b = t.encoding

theorem writes_items {xs : List Item} {ws : List Bytes}
    (h : List.Forall₂ (Writes heap) (xs.map .item) ws) :
    ∃ ts, List.Forall₂ heap.Unfolds xs ts ∧ ws.flatten = ts.flatMap Content.encoding := by
  induction xs generalizing ws with
  | nil => cases h; exact ⟨[], .nil, rfl⟩
  | cons x xs ih =>
    cases h with
    | cons hw hws =>
      obtain ⟨t, ht, rfl⟩ := hw
      obtain ⟨ts, hts, hflat⟩ := ih hws
      exact ⟨t :: ts, .cons ht hts, by simp [hflat]⟩

theorem writes_entries {pairs : List (Key × Item)} {ws : List Bytes}
    (h : List.Forall₂ (Writes heap) (pairs.flatMap fun e => [.key e.1, .item e.2]) ws) :
    ∃ ts : List (Key × Content), pairs.map (·.1) = ts.map (·.1) ∧
      List.Forall₂ heap.Unfolds (pairs.map (·.2)) (ts.map (·.2)) ∧
      ws.flatten = ts.flatMap fun e => e.1.encoding ++ e.2.encoding := by
  induction pairs generalizing ws with
  | nil => cases h; exact ⟨[], rfl, .nil, rfl⟩
  | cons e pairs ih =>
    cases h with
    | cons hk h =>
      cases h with
      | cons hw hws =>
        obtain ⟨_, rfl, rfl⟩ := hk
        obtain ⟨t, ht, rfl⟩ := hw
        obtain ⟨ts, hkeys, hts, hflat⟩ := ih hws
        refine ⟨(e.1, t) :: ts, by simp [hkeys], .cons ht hts, ?_⟩
        simp [hflat, Content.encoding_leaf]

theorem writes_leaf {x : Item} {k : Key} (hk : x.key? = some k) :
    Writes heap (.item x) k.encoding :=
  ⟨.leaf k, .leaf hk, by rw [Content.encoding_leaf]⟩

/-! ## A run that succeeds has written unfoldings -/

theorem enterItems_written {tag : Tag} {h : ArrayRef} {s s' : Encoder} {ws : List Bytes}
    (hv : s.enterItems heap tag h = .ok s') (hws : List.Forall₂ (Writes heap) s'.pending ws) :
    ∃ xs ts us, heap.items h = .ok xs ∧ List.Forall₂ heap.Unfolds xs ts ∧
      List.Forall₂ (Writes heap) s.pending us ∧ s'.out.toList ++ ws.flatten =
        s.out.toList ++ (header tag ts.length ++ ts.flatMap Content.encoding) ++ us.flatten := by
  obtain ⟨out, pending, arrays, maps⟩ := s
  unfold enterItems at hv
  simp only at hv
  split at hv
  · cases hv
  · split at hv
    · cases hv
    · rename_i xs hxs
      cases hv
      obtain ⟨ws₁, ws₂, rfl, h₁, h₂⟩ := forall₂_append_split hws
      obtain ⟨ts, hts, hflat⟩ := writes_items h₁
      cases h₂ with
      | cons hleave hus =>
        cases hleave
        refine ⟨xs, ts, _, hxs, hts, hus, ?_⟩
        simp [hflat, hts.length_eq]

theorem enterMap_written {h : MapRef} {s s' : Encoder} {ws : List Bytes}
    (hv : s.enterMap heap h = .ok s') (hws : List.Forall₂ (Writes heap) s'.pending ws) :
    ∃ t us, heap.Unfolds (.map h) t ∧ List.Forall₂ (Writes heap) s.pending us ∧
      s'.out.toList ++ ws.flatten = s.out.toList ++ t.encoding ++ us.flatten := by
  obtain ⟨out, pending, arrays, maps⟩ := s
  unfold enterMap at hv
  simp only at hv
  split at hv
  · cases hv
  · split at hv
    · cases hv
    · rename_i es hes
      cases hv
      obtain ⟨ws₁, ws₂, rfl, h₁, h₂⟩ := forall₂_append_split hws
      obtain ⟨ts, hkeys, hts, hflat⟩ := writes_entries h₁
      cases h₂ with
      | cons hleave hus =>
        cases hleave
        refine ⟨.map ts, _, .map hes hkeys hts, hus, ?_⟩
        have hlen : es.size = ts.length := by
          simpa [Entries.size] using congrArg List.length hkeys
        simp [hflat, hlen, Content.encoding_map]

/-- Whatever the nodes pending after a visit add to the output, the visited node and those pending
before it add, in turn, the same to the output before. -/
theorem visit_written {s s' : Encoder} {node : Pending} {ws : List Bytes}
    (hv : s.visit heap node = .ok s') (hws : List.Forall₂ (Writes heap) s'.pending ws) :
    ∃ w us, Writes heap node w ∧ List.Forall₂ (Writes heap) s.pending us ∧
      s'.out.toList ++ ws.flatten = s.out.toList ++ w ++ us.flatten := by
  have leaf (k : Key) : (s.writeLeaf k).out.toList ++ ws.flatten =
      s.out.toList ++ k.encoding ++ ws.flatten := by
    simp [writeLeaf]
  unfold visit at hv
  split at hv
  · cases hv
    exact ⟨_, ws, ⟨_, rfl, rfl⟩, hws, by rw [leaf, Content.encoding_leaf]⟩
  · cases hv
    exact ⟨_, ws, writes_leaf rfl, hws, leaf _⟩
  · cases hv
    exact ⟨_, ws, writes_leaf rfl, hws, leaf _⟩
  · cases hv
    exact ⟨_, ws, writes_leaf rfl, hws, leaf _⟩
  · cases hv
  · obtain ⟨xs, ts, us, hxs, hts, hus, hout⟩ := enterItems_written hv hws
    exact ⟨_, us, ⟨.array ts, .array hxs hts, by rw [Content.encoding_array]⟩, hus, hout⟩
  · obtain ⟨xs, ts, us, hxs, hts, hus, hout⟩ := enterItems_written hv hws
    exact ⟨_, us, ⟨.struct ts, .struct hxs hts, by rw [Content.encoding_struct]⟩, hus, hout⟩
  · obtain ⟨t, us, ht, hus, hout⟩ := enterMap_written hv hws
    exact ⟨_, us, ⟨t, ht, rfl⟩, hus, hout⟩
  · cases hv
    exact ⟨[], ws, rfl, hws, by simp⟩
  · cases hv
    exact ⟨[], ws, rfl, hws, by simp⟩

theorem run_written {s : Encoder} {b : Bytes} (h : run heap limits s = .ok b)
    (hsize : s.out.size ≤ limits.itemSize.toNat) :
    b.length ≤ limits.itemSize.toNat ∧
      ∃ ws, List.Forall₂ (Writes heap) s.pending ws ∧ b = s.out.toList ++ ws.flatten := by
  fun_induction run heap limits s with
  | case1 s hp =>
    cases h
    exact ⟨by simpa using hsize, [], by rw [hp]; exact .nil, by simp⟩
  | case2 => cases h
  | case3 s node rest hp s' hstep _ _ ih =>
    obtain ⟨hv, hle⟩ := step_eq_ok_iff.mp hstep
    obtain ⟨hb, ws, hws, rfl⟩ := ih h hle
    obtain ⟨w, us, hw, hus, hout⟩ := visit_written hv hws
    exact ⟨hb, w :: us, by rw [hp]; exact .cons hw hus, by simpa using hout⟩

/-! ## A node that unfolds and fits is written -/

/-- The open containers, as far as they unfold, have larger unfoldings than `t`. -/
structure Clear (heap : Heap) (arrays : Std.HashSet ArrayRef) (maps : Std.HashSet MapRef)
    (t : Content) : Prop where
  arrays : ∀ h ∈ arrays, ∀ u, heap.Unfolds (.array h) u → sizeOf t < sizeOf u
  maps : ∀ h ∈ maps, ∀ u, heap.Unfolds (.map h) u → sizeOf t < sizeOf u

/-- The sets have the same members. -/
structure SameOpen (arrays arrays' : Std.HashSet ArrayRef) (maps maps' : Std.HashSet MapRef) :
    Prop where
  arrays : ∀ h, h ∈ arrays' ↔ h ∈ arrays
  maps : ∀ h, h ∈ maps' ↔ h ∈ maps

section

variable {arrays arrays' : Std.HashSet ArrayRef} {maps maps' : Std.HashSet MapRef}

theorem Clear.congr {t : Content} (h : Clear heap arrays maps t)
    (hsame : SameOpen arrays arrays' maps maps') : Clear heap arrays' maps' t :=
  ⟨fun a ha => h.arrays a ((hsame.arrays a).mp ha), fun m hm => h.maps m ((hsame.maps m).mp hm)⟩

theorem Clear.of_lt {t c : Content} (h : Clear heap arrays maps t) (hlt : sizeOf c < sizeOf t) :
    Clear heap arrays maps c :=
  ⟨fun a ha u hu => Nat.lt_trans hlt (h.arrays a ha u hu),
    fun m hm u hu => Nat.lt_trans hlt (h.maps m hm u hu)⟩

/-- While the contents of an array are written it is open itself, and larger than they are. -/
theorem Clear.insertArray {t c : Content} {a : ArrayRef} (h : Clear heap arrays maps t)
    (ha : ∃ u, heap.Unfolds (.array a) u ∧ sizeOf u = sizeOf t) (hlt : sizeOf c < sizeOf t) :
    Clear heap (arrays.insert a) maps c where
  arrays := by
    intro b hb u hu
    rcases Std.HashSet.mem_insert.mp hb with hab | hb
    · obtain ⟨v, hv, hsize⟩ := ha
      rw [← eq_of_beq hab] at hu
      rw [hu.unique hv, hsize]
      exact hlt
    · exact (h.of_lt hlt).arrays b hb u hu
  maps := (h.of_lt hlt).maps

theorem Clear.insertMap {t c : Content} {m : MapRef} (h : Clear heap arrays maps t)
    (hm : heap.Unfolds (.map m) t) (hlt : sizeOf c < sizeOf t) :
    Clear heap arrays (maps.insert m) c where
  arrays := (h.of_lt hlt).arrays
  maps := by
    intro n hn u hu
    rcases Std.HashSet.mem_insert.mp hn with hmn | hn
    · rw [← eq_of_beq hmn] at hu
      rw [hu.unique hm]
      exact hlt
    · exact (h.of_lt hlt).maps n hn u hu

theorem SameOpen.trans {arrays'' : Std.HashSet ArrayRef} {maps'' : Std.HashSet MapRef}
    (h : SameOpen arrays arrays' maps maps') (h' : SameOpen arrays' arrays'' maps' maps'') :
    SameOpen arrays arrays'' maps maps'' :=
  ⟨fun a => (h'.arrays a).trans (h.arrays a), fun m => (h'.maps m).trans (h.maps m)⟩

/-- Closing an array that was opened leaves the sets as they were. -/
theorem SameOpen.eraseArray {a : ArrayRef} (hnew : a ∉ arrays)
    (h : SameOpen (arrays.insert a) arrays' maps maps') :
    SameOpen arrays (arrays'.erase a) maps maps' where
  arrays := by
    intro b
    rw [Std.HashSet.mem_erase, h.arrays, Std.HashSet.mem_insert]
    by_cases hab : a = b
    · simp [← hab, hnew]
    · simp [hab]
  maps := h.maps

theorem SameOpen.eraseMap {m : MapRef} (hnew : m ∉ maps)
    (h : SameOpen arrays arrays' (maps.insert m) maps') :
    SameOpen arrays arrays' maps (maps'.erase m) where
  arrays := h.arrays
  maps := by
    intro n
    rw [Std.HashSet.mem_erase, h.maps, Std.HashSet.mem_insert]
    by_cases hmn : m = n
    · simp [← hmn, hnew]
    · simp [hmn]

/-- With the nodes at the head of the list, a run that has room for the bytes writes them and goes
on behind the nodes, with the same containers open. -/
def Advances (heap : Heap) (limits : Limits) (nodes : List Pending) (b : Bytes)
    (arrays : Std.HashSet ArrayRef) (maps : Std.HashSet MapRef) : Prop :=
  ∀ out rest, out.size + b.length ≤ limits.itemSize.toNat →
    ∃ arrays' maps', SameOpen arrays arrays' maps maps' ∧
      run heap limits ⟨out, nodes ++ rest, arrays, maps⟩ =
        run heap limits ⟨out ++ b, rest, arrays', maps'⟩

theorem run_cons_of_visit {out : Array UInt8} {node : Pending} {rest : List Pending} {s : Encoder}
    (hv : visit heap ⟨out, rest, arrays, maps⟩ node = .ok s)
    (hsize : s.out.size ≤ limits.itemSize.toNat) :
    run heap limits ⟨out, node :: rest, arrays, maps⟩ = run heap limits s := by
  rw [run_cons, step_eq_ok_iff.mpr ⟨hv, hsize⟩]

theorem advances_leaf {node : Pending} {k : Key}
    (hv : ∀ s, visit heap s node = .ok (s.writeLeaf k)) :
    Advances heap limits [node] k.encoding arrays maps := by
  intro out rest hfit
  refine ⟨arrays, maps, ⟨fun _ => .rfl, fun _ => .rfl⟩, ?_⟩
  exact run_cons_of_visit (hv _) (by simpa [writeLeaf, size_append] using hfit)

/-- Nodes one after the other, each of which is written whole. -/
theorem advances_all {nodes : List Pending} {cs : List Content}
    (h : List.Forall₂ (Shows heap) nodes cs) (hclear : ∀ c ∈ cs, Clear heap arrays maps c)
    (each : ∀ c ∈ cs, ∀ node arrays maps, Shows heap node c → Clear heap arrays maps c →
      Advances heap limits [node] c.encoding arrays maps) :
    Advances heap limits nodes (cs.flatMap Content.encoding) arrays maps := by
  induction h generalizing arrays maps with
  | nil =>
    intro out rest _
    exact ⟨arrays, maps, ⟨fun _ => .rfl, fun _ => .rfl⟩, by simp⟩
  | @cons node c nodes cs hnode _ ih =>
    intro out rest hfit
    simp only [List.flatMap_cons, List.length_append] at hfit
    obtain ⟨arrays₁, maps₁, hsame₁, hrun₁⟩ := each c List.mem_cons_self node arrays maps hnode
      (hclear c List.mem_cons_self) out (nodes ++ rest) (by omega)
    obtain ⟨arrays₂, maps₂, hsame₂, hrun₂⟩ := ih
      (fun d hd => (hclear d (List.mem_cons_of_mem _ hd)).congr hsame₁)
      (fun d hd => each d (List.mem_cons_of_mem _ hd))
      (out ++ c.encoding) rest (by rw [size_append]; omega)
    refine ⟨arrays₂, maps₂, hsame₁.trans hsame₂, ?_⟩
    rw [List.flatMap_cons, ← append_append, ← hrun₂]
    exact hrun₁

theorem advances_items {tag : Tag} {node : Pending} {a : ArrayRef} {xs : List Item}
    {ts : List Content} (hv : ∀ s, visit heap s node = enterItems heap tag a s)
    (hxs : heap.items a = .ok xs) (hlen : xs.length = ts.length) (hnew : a ∉ arrays)
    (inner : Advances heap limits (xs.map .item) (ts.flatMap Content.encoding)
      (arrays.insert a) maps) :
    Advances heap limits [node] (header tag ts.length ++ ts.flatMap Content.encoding)
      arrays maps := by
  intro out rest hfit
  rw [List.length_append] at hfit
  have enter : visit heap ⟨out, rest, arrays, maps⟩ node = .ok ⟨out ++ header tag ts.length,
      xs.map .item ++ .leaveArray a :: rest, arrays.insert a, maps⟩ := by
    rw [hv]
    simp [enterItems, hnew, hxs, hlen]
  obtain ⟨arrays', maps', hsame, hrun⟩ := inner (out ++ header tag ts.length)
    (.leaveArray a :: rest) (by rw [size_append]; omega)
  refine ⟨arrays'.erase a, maps', hsame.eraseArray hnew, ?_⟩
  have opened : run heap limits ⟨out, node :: rest, arrays, maps⟩ = _ :=
    run_cons_of_visit enter (by simp only [size_append]; omega)
  rw [List.singleton_append, opened, hrun, append_append]
  exact run_cons_of_visit rfl (by simp only [size_append, List.length_append]; omega)

theorem advances_map {m : MapRef} {es : Entries} {ts : List (Key × Content)}
    (hes : heap.entries m = .ok es) (hlen : es.size = ts.length) (hnew : m ∉ maps)
    (inner : Advances heap limits (es.pairs.flatMap fun e => [.key e.1, .item e.2])
      ((Content.map ts).children.flatMap Content.encoding) arrays (maps.insert m)) :
    Advances heap limits [.item (.map m)] (Content.map ts).encoding arrays maps := by
  intro out rest hfit
  have hcode : (Content.map ts).encoding =
      header .map ts.length ++ (Content.map ts).children.flatMap Content.encoding :=
    Content.encoding_eq _
  rw [hcode, List.length_append] at hfit
  have enter : visit heap ⟨out, rest, arrays, maps⟩ (.item (.map m)) =
      .ok ⟨out ++ header .map ts.length,
        (es.pairs.flatMap fun e => [.key e.1, .item e.2]) ++ .leaveMap m :: rest,
        arrays, maps.insert m⟩ := by
    simp [visit, enterMap, hnew, hes, hlen]
  obtain ⟨arrays', maps', hsame, hrun⟩ := inner (out ++ header .map ts.length)
    (.leaveMap m :: rest) (by rw [size_append]; omega)
  refine ⟨arrays', maps'.erase m, hsame.eraseMap hnew, ?_⟩
  have opened : run heap limits ⟨out, .item (.map m) :: rest, arrays, maps⟩ = _ :=
    run_cons_of_visit enter (by simp only [size_append]; omega)
  rw [hcode, List.singleton_append, opened, hrun, append_append]
  exact run_cons_of_visit rfl (by simp only [size_append, List.length_append]; omega)

theorem shows_entries {pairs : List (Key × Item)} {ts : List (Key × Content)}
    (hkeys : pairs.map (·.1) = ts.map (·.1))
    (hts : List.Forall₂ heap.Unfolds (pairs.map (·.2)) (ts.map (·.2))) :
    List.Forall₂ (Shows heap) (pairs.flatMap fun e => [.key e.1, .item e.2])
      (Content.map ts).children := by
  induction pairs generalizing ts with
  | nil =>
    cases ts with
    | nil => exact .nil
    | cons e ts => cases hts
  | cons e pairs ih =>
    cases ts with
    | nil => cases hts
    | cons e' ts =>
      simp only [List.map_cons, List.cons.injEq, List.forall₂_cons] at hkeys hts
      refine .cons ?_ (.cons hts.1 (ih hkeys.2 hts.2))
      rw [Shows, hkeys.1]

theorem advances_shown {t : Content} {node : Pending} (h : Shows heap node t)
    (hclear : Clear heap arrays maps t) :
    Advances heap limits [node] t.encoding arrays maps := by
  induction t using Content.induct generalizing node arrays maps with
  | step t ih =>
    cases node with
    | leaveArray a => cases h
    | leaveMap m => cases h
    | key k =>
      cases h
      rw [Content.encoding_leaf]
      exact advances_leaf fun _ => rfl
    | item x =>
      have array_new (a : ArrayRef) (u : Content) (hu : heap.Unfolds (.array a) u)
          (hsize : sizeOf u = sizeOf t) : a ∉ arrays := by
        intro ha
        have := hclear.arrays a ha u hu
        omega
      cases h with
      | @leaf x k hk =>
        rw [Content.encoding_leaf]
        cases x <;> cases hk <;> exact advances_leaf fun _ => rfl
      | @array a xs ts hxs hts =>
        rw [Content.encoding_array]
        have hu := Heap.Unfolds.array hxs hts
        refine advances_items (fun _ => rfl) hxs hts.length_eq (array_new a _ hu rfl) ?_
        refine advances_all (List.forall₂_map_left_iff.mpr hts) ?_
          fun c hc node arrays maps => ih c hc
        intro c hc
        exact hclear.insertArray ⟨_, hu, rfl⟩ (Content.sizeOf_lt_of_mem_children hc)
      | @struct a xs ts hxs hts =>
        rw [Content.encoding_struct]
        -- The cycle check asks for the handle, under which the same list is also an array.
        have hu := Heap.Unfolds.array hxs hts
        refine advances_items (fun _ => rfl) hxs hts.length_eq (array_new a _ hu (by simp)) ?_
        refine advances_all (List.forall₂_map_left_iff.mpr hts) ?_
          fun c hc node arrays maps => ih c hc
        intro c hc
        exact hclear.insertArray ⟨_, hu, by simp⟩ (Content.sizeOf_lt_of_mem_children hc)
      | @map m es ts hes hkeys hts =>
        have hu := Heap.Unfolds.map hes hkeys hts
        have hlen : es.size = ts.length := by
          simpa [Entries.keys, Entries.size] using congrArg List.length hkeys
        have hnew : m ∉ maps := by
          intro hm
          exact Nat.lt_irrefl _ (hclear.maps m hm _ hu)
        refine advances_map hes hlen hnew ?_
        refine advances_all (shows_entries hkeys hts) ?_ fun c hc node arrays maps => ih c hc
        intro c hc
        exact hclear.insertMap hu (Content.sizeOf_lt_of_mem_children hc)

end

end Encoder

/-! ## What writing gives -/

theorem encode_eq_ok_iff_unfolds {heap : Heap} {x : Item} {limits : Limits} {b : Bytes} :
    encode heap x limits = .ok b ↔
      ∃ t, heap.Unfolds x t ∧ t.encoding.length ≤ limits.itemSize.toNat ∧ b = t.encoding := by
  constructor
  · intro h
    obtain ⟨hb, ws, hws, rfl⟩ := Encoder.run_written h (Nat.zero_le _)
    cases hws with
    | cons hw hnil =>
      cases hnil
      obtain ⟨t, ht, rfl⟩ := hw
      exact ⟨t, ht, by simpa using hb, by simp⟩
  · rintro ⟨t, ht, hsize, rfl⟩
    have hclear : Encoder.Clear heap ∅ ∅ t := ⟨fun _ h => by simp at h, fun _ h => by simp at h⟩
    have hwritten : Encoder.Advances heap limits [.item x] t.encoding ∅ ∅ :=
      Encoder.advances_shown ht hclear
    obtain ⟨arrays, maps, _, hrun⟩ := hwritten #[] [] (by simpa using hsize)
    rw [encode]
    refine hrun.trans ?_
    rw [Encoder.run_nil]
    simp

/-! ## The limit -/

/-- With a smaller limit, writing goes as with a larger one, or stops where the limit is passed. -/
theorem Encoder.run_of_le {heap : Heap} {limits limits' : Limits}
    (hle : limits.itemSize ≤ limits'.itemSize) (s : Encoder) :
    run heap limits s = run heap limits' s ∨
      run heap limits s = .error (.itemTooLarge limits.itemSize) := by
  rw [UInt64.le_iff_toNat_le] at hle
  fun_induction run heap limits s with
  | case1 s hp =>
    obtain ⟨out, pending, arrays, maps⟩ := s
    cases hp
    exact .inl (run_nil out arrays maps).symm
  | case2 s node rest hp e hstep =>
    obtain ⟨out, pending, arrays, maps⟩ := s
    cases hp
    rw [run_cons]
    unfold step at hstep ⊢
    split at hstep
    · rename_i hvisit
      cases hstep
      simp [hvisit]
    · split at hstep
      · cases hstep
        exact .inr rfl
      · cases hstep
  | case3 s node rest hp s' hstep _ _ ih =>
    obtain ⟨out, pending, arrays, maps⟩ := s
    cases hp
    obtain ⟨hvisit, hsize⟩ := step_eq_ok_iff.mp hstep
    rw [run_cons, step_eq_ok_iff.mpr ⟨hvisit, Nat.le_trans hsize hle⟩]
    exact ih

/-- What can be written under some limit is refused under another for its length only. -/
theorem encode_of_encode {heap : Heap} {x : Item} {limits limits' : Limits} {b : Bytes}
    (h : encode heap x limits' = .ok b) :
    encode heap x limits =
      if b.length ≤ limits.itemSize.toNat then .ok b
      else .error (.itemTooLarge limits.itemSize) := by
  obtain ⟨t, ht, hsize, rfl⟩ := encode_eq_ok_iff_unfolds.mp h
  split
  · rename_i hle
    exact encode_eq_ok_iff_unfolds.mpr ⟨t, ht, hle, rfl⟩
  · rename_i hlt
    have hle : limits.itemSize ≤ limits'.itemSize := by
      rw [UInt64.le_iff_toNat_le]
      omega
    rcases Encoder.run_of_le hle _ with hsame | hlarge
    · obtain ⟨u, hu, hfits, _⟩ := encode_eq_ok_iff_unfolds.mp (hsame.trans h)
      rw [hu.unique ht] at hfits
      exact absurd hfits hlt
    · exact hlarge

/-- Writing succeeds on the items that reach no dangling handle, no cycle and no host reference and
whose recursive encoding is within the limit, and then it gives that encoding. -/
theorem encode_eq_ok_iff (heap : Heap) (x : Item) (limits : Limits) (b : Bytes) :
    ((∃! t, heap.Unfolds x t) ↔ heap.Unfoldable x) ∧
      (encode heap x limits = .ok b ↔
        heap.Unfoldable x ∧
          ∃ t, heap.Unfolds x t ∧ t.encoding.length ≤ limits.itemSize.toNat ∧
            b = t.encoding) := by
  refine ⟨?_, ?_⟩
  · rw [← Heap.exists_unfolds_iff]
    constructor
    · rintro ⟨t, ht, _⟩
      exact ⟨t, ht⟩
    · rintro ⟨t, ht⟩
      refine ⟨t, ht, ?_⟩
      intro u hu
      exact hu.unique ht
  · rw [encode_eq_ok_iff_unfolds]
    constructor
    · rintro ⟨t, ht, hb⟩
      exact ⟨ht.unfoldable, t, ht, hb⟩
    · rintro ⟨_, h⟩
      exact h

/-- The first array holds the second one twice; the third holds itself. -/
def siblingsAndLoop : Heap where
  arrays := #[[.array ⟨1⟩, .array ⟨1⟩], [.integer 5], [.array ⟨2⟩]]

def siblings : Content := .array [.array [.leaf (.integer 5)], .array [.leaf (.integer 5)]]

/-- What is shared is written twice, in as many bytes as there is room for. The loop is not
written, however much room there is. -/
theorem encode_eq_ok_iff_siblings :
    encode siblingsAndLoop (.array ⟨0⟩) { itemSize := 12 } =
        .ok [0x80, 0x02, 0x80, 0x01, 0x02, 0x01, 0x05, 0x80, 0x01, 0x02, 0x01, 0x05] ∧
      ∀ b, encode siblingsAndLoop (.array ⟨2⟩) { itemSize := greatestWord } ≠ .ok b := by
  have hunfolds : siblingsAndLoop.Unfolds (.array ⟨0⟩) siblings := by
    have hshared : siblingsAndLoop.Unfolds (.array ⟨1⟩) (.array [.leaf (.integer 5)]) :=
      .array rfl (.cons (.leaf rfl) .nil)
    exact .array rfl (.cons hshared (.cons hshared .nil))
  have hcode : siblings.encoding =
      [0x80, 0x02, 0x80, 0x01, 0x02, 0x01, 0x05, 0x80, 0x01, 0x02, 0x01, 0x05] := by
    simp only [siblings, Content.encoding, List.flatMap_cons, List.flatMap_nil]
    decide +kernel
  constructor
  · refine (encode_eq_ok_iff _ _ _ _).2.mpr ⟨hunfolds.unfoldable, siblings, hunfolds, ?_, hcode.symm⟩
    rw [hcode]
    decide
  · intro b hb
    have hcyclic : siblingsAndLoop.Cyclic (.array ⟨2⟩) :=
      ⟨.array ⟨2⟩, .single (.array rfl List.mem_cons_self), rfl⟩
    exact ((encode_eq_ok_iff _ _ _ _).2.mp hb).1.acyclic _ .refl hcyclic

end ScriptHost

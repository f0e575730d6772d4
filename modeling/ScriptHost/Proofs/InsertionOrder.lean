import ScriptHost.Proofs.Decoding
import ScriptHost.Proofs.HeapCall

/-!
# ScriptHost.Proofs.InsertionOrder

Maps that are filled entry by entry. The only thing that writing to a map changes is its own list
of entries, and a sequence of writes leaves there what was written with keys, one after the other
(`performAll_mapInserts`): each key in the place of its first entry, with the value of its last;
`Fills` is what can be seen of that from outside. Decoding builds a map in one piece, from all its
pairs at once, and the heap is the same as if a new map had been filled with them one by one
(`build_map_eq_ok_iff`, `decode_map`).
-/

namespace ScriptHost

open NodeTree Content

/-! ## What is a key, and which -/

theorem Item.key?_eq_none_iff {x : Item} :
    x.key? = none ↔ x.isContainer = true ∨ ∃ r, x = .host r := by
  cases x <;> simp [key?, isContainer]

/-- A key is its kind and its bytes. -/
theorem Key.eq_iff {j k : Key} :
    j = k ↔ j.item.kindName = k.item.kindName ∧ j.item.byteForm? = k.item.byteForm? := by
  constructor
  · rintro rfl
    exact ⟨rfl, rfl⟩
  · rintro ⟨hkind, hbytes⟩
    cases j <;> cases k <;> simp only [item, Item.kindName, String.reduceEq] at hkind
    case bytes.bytes b c => exact congrArg bytes (Option.some.inj hbytes)
    case boolean.boolean v w =>
      cases v <;> cases w
      · rfl
      · cases hbytes
      · cases hbytes
      · rfl
    case integer.integer m n =>
      have h : Integer.toBytes m = Integer.toBytes n := Option.some.inj hbytes
      rw [← Integer.ofBytes_toBytes m, h, Integer.ofBytes_toBytes]

namespace Heap

variable {heap heap' : Heap} {m h : MapRef} {es : Entries}

/-! ## The entries of one map -/

theorem entries_setEntries (hes : heap.entries m = .ok es) (fs : Entries) :
    (heap.setEntries m fs).entries m = .ok fs := by
  rw [entries_eq_ok_iff] at hes ⊢
  obtain ⟨hlt, _⟩ := Array.getElem?_eq_some_iff.mp hes
  exact Array.getElem?_setIfInBounds_self_of_lt hlt

theorem setEntries_self (hes : heap.entries m = .ok es) : heap.setEntries m es = heap := by
  rw [entries_eq_ok_iff] at hes
  obtain ⟨hlt, rfl⟩ := Array.getElem?_eq_some_iff.mp hes
  simp [setEntries, Array.setIfInBounds_def, hlt]

theorem setEntries_setEntries (heap : Heap) (m : MapRef) (es fs : Entries) :
    (heap.setEntries m es).setEntries m fs = heap.setEntries m fs := by
  simp [setEntries]

/-- A new container can be filled after it has been added. -/
theorem setEntries_add (hm : m.index.toNat = heap.maps.size) (es fs : Entries) :
    (heap.add [] [es]).setEntries m fs = heap.add [] [fs] := by
  have hset : (heap.maps.push es).setIfInBounds heap.maps.size fs = heap.maps.push fs := by
    rw [Array.setIfInBounds_def, dif_pos (by simp), Array.set_push, dif_neg (Nat.lt_irrefl _)]
  simpa [setEntries, add, hm] using hset

/-! ## One write -/

theorem mapInsert_ok {key : Item} {k : Key} (hk : key.key? = some k)
    (hes : heap.entries m = .ok es) (value : Item) :
    heap.mapInsert m key value = (.ok (es.get? k), heap.setEntries m (es.insert k value)) := by
  simp only [mapInsert, hk, hes]

theorem mapInsert_badKey {key : Item} (hk : key.key? = none) (heap : Heap) (m : MapRef)
    (value : Item) :
    heap.mapInsert m key value = (.error (.invalidMapKey key.kindName), heap) := by
  simp only [mapInsert, hk]

theorem eq_of_mapInsert_error {key value : Item} {e : HeapError}
    (h : heap.mapInsert m key value = (.error e, heap')) : heap' = heap := by
  unfold mapInsert at h
  split at h
  · cases h
    rfl
  · split at h
    · cases h
      rfl
    · cases h

/-! ## Sequences of writes -/

/-- Writes to one map. -/
def mapInserts (m : MapRef) (writes : List (Item × Item)) : List HeapCall :=
  writes.map fun w => .mapInsert m w.1 w.2

/-- The entries among the writes: those whose keys are keys. -/
def entriesOf (writes : List (Item × Item)) : List (Key × Item) :=
  writes.filterMap fun w => w.1.key?.map fun k => (k, w.2)

theorem entriesOf_cons_badKey {key : Item} (hk : key.key? = none) (value : Item)
    (writes : List (Item × Item)) : entriesOf ((key, value) :: writes) = entriesOf writes := by
  simp [entriesOf, hk]

theorem entriesOf_cons {key : Item} {k : Key} (hk : key.key? = some k) (value : Item)
    (writes : List (Item × Item)) :
    entriesOf ((key, value) :: writes) = (k, value) :: entriesOf writes := by
  simp [entriesOf, hk]

/-- The writes that write these entries. -/
def writesOf (ps : List (Key × Item)) : List (Item × Item) := ps.map fun e => (e.1.item, e.2)

@[simp] theorem entriesOf_writesOf (ps : List (Key × Item)) : entriesOf (writesOf ps) = ps := by
  simp [entriesOf, writesOf, List.filterMap_map]

theorem performAll_mapInserts (hes : heap.entries m = .ok es) (writes : List (Item × Item)) :
    heap.performAll (mapInserts m writes) =
      heap.setEntries m (es.writeAll (entriesOf writes)) := by
  induction writes generalizing heap es with
  | nil => exact (setEntries_self hes).symm
  | cons w writes ih =>
    obtain ⟨key, value⟩ := w
    cases hk : key.key? with
    | none =>
      have hstep : heap.perform (.mapInsert m key value) = heap :=
        congrArg Prod.snd (mapInsert_badKey hk heap m value)
      rw [entriesOf_cons_badKey hk, ← ih hes, mapInserts, List.map_cons, performAll,
        List.foldl_cons, hstep]
      rfl
    | some k =>
      have hstep : heap.perform (.mapInsert m key value) = heap.setEntries m (es.insert k value) :=
        congrArg Prod.snd (mapInsert_ok hk hes value)
      have hrest := ih (entries_setEntries hes (es.insert k value))
      rw [setEntries_setEntries] at hrest
      rw [entriesOf_cons hk, mapInserts, List.map_cons, performAll, List.foldl_cons, hstep]
      exact hrest

/-! ## Two ways to build a map -/

theorem allocMap_eq_ok_iff :
    heap.allocMap es = (.ok h, heap') ↔
      h.index.toNat = heap.maps.size ∧ heap' = heap.add [] [es] := by
  rw [allocMap_eq, ← nextIndex_eq_ok_iff]
  cases nextIndex heap.maps.size with
  | error e => simp
  | ok index =>
    obtain ⟨index'⟩ := h
    simp [eq_comm]

theorem newMap_eq_ok_iff {x : Item} :
    heap.newMap = (.ok x, heap') ↔
      ∃ h, x = .map h ∧ h.index.toNat = heap.maps.size ∧ heap' = heap.add [] [.empty] := by
  unfold newMap
  constructor
  · intro hnew
    split at hnew
    · cases hnew
    · rename_i h heap₁ halloc
      cases hnew
      exact ⟨h, rfl, allocMap_eq_ok_iff.mp halloc⟩
  · rintro ⟨h, rfl, halloc⟩
    rw [allocMap_eq_ok_iff.mpr halloc]

theorem entries_newMap (hnew : heap.newMap = (.ok (.map h), heap')) :
    heap'.entries h = .ok .empty := by
  obtain ⟨h, hx, hm, rfl⟩ := newMap_eq_ok_iff.mp hnew
  cases hx
  exact entries_add hm .empty

/-- Filling a new map puts it behind the others with all that it has been filled with. -/
theorem fill_newMap (hm : h.index.toNat = heap.maps.size) (ps : List (Key × Item)) :
    (heap.add [] [.empty]).performAll (mapInserts h (writesOf ps)) =
      heap.add [] [Entries.empty.writeAll ps] := by
  rw [performAll_mapInserts (entries_add hm .empty), entriesOf_writesOf, setEntries_add hm]

/-- A map that is built from all its pairs at once is a new map filled with them one by one. -/
theorem build_map_eq_ok_iff {ps : List (Key × Item)} {x : Item} :
    Node.build .map (ps.flatMap fun e => [e.1.item, e.2]) heap = (.ok x, heap') ↔
      ∃ h heap₁, heap.newMap = (.ok (.map h), heap₁) ∧ x = .map h ∧
        heap' = heap₁.performAll (mapInserts h (writesOf ps)) := by
  simp only [Node.build, Entries.insertAll_flatMap]
  constructor
  · intro hbuild
    split at hbuild
    · cases hbuild
    · rename_i h heap₁ halloc
      cases hbuild
      obtain ⟨hm, rfl⟩ := allocMap_eq_ok_iff.mp halloc
      exact ⟨h, _, newMap_eq_ok_iff.mpr ⟨h, rfl, hm, rfl⟩, rfl, (fill_newMap hm ps).symm⟩
  · rintro ⟨h, heap₁, hnew, rfl, rfl⟩
    obtain ⟨h, hx, hm, rfl⟩ := newMap_eq_ok_iff.mp hnew
    cases hx
    rw [fill_newMap hm, allocMap_eq_ok_iff.mpr ⟨hm, rfl⟩]

/-! ## What can be seen of a map that has been filled -/

/-- `filled` is the heap after writes to one map of `heap`, the map at `m`; `written` are the entries
among them. -/
structure Fills (heap filled : Heap) (m : MapRef) (written : List (Key × Item)) : Prop where
  /-- One entry for each key, in the order of first writing, with the value written last. -/
  entries : ∃ es, filled.entries m = .ok es ∧ es.keys = (written.map (·.1)).eraseDups ∧
    ∀ k, es.get? k = lastValue? written k
  get : ∀ k : Key, filled.mapGet m k.item = .ok (lastValue? written k)
  get_absent : ∀ k : Key, k ∉ written.map (·.1) → filled.mapGet m k.item = .ok none
  get_badKey : ∀ x, (x.isContainer = true ∨ ∃ r, x = .host r) → filled.mapGet m x = .ok none
  /-- The next write answers with what its key has held. So does every write, as those before it are
  such a sequence too. -/
  insert : ∀ (k : Key) value, (filled.mapInsert m k.item value).1 = .ok (lastValue? written k)
  insert_badKey : ∀ x value, (x.isContainer = true ∨ ∃ r, x = .host r) →
    filled.mapInsert m x value = (.error (.invalidMapKey x.kindName), filled)
  failed : ∀ h key value e heap', filled.mapInsert h key value = (.error e, heap') →
    heap' = filled
  /-- A write under a key of another kind or with other bytes leaves what a key holds. -/
  distinct : ∀ (j k : Key) value, j.item.kindName ≠ k.item.kindName ∨
      j.item.byteForm? ≠ k.item.byteForm? →
    (filled.mapInsert m j.item value).2.mapGet m k.item = filled.mapGet m k.item
  others : ∀ s, s ≠ .inr m → heap.SameAt filled s

theorem mapGet_key (hes : heap.entries m = .ok es) (k : Key) :
    heap.mapGet m k.item = .ok (es.get? k) := by
  simp only [mapGet, hes, Key.key?_item, Option.bind_some]

theorem mapGet_badKey {x : Item} (hes : heap.entries m = .ok es) (hx : x.key? = none) :
    heap.mapGet m x = .ok none := by
  simp only [mapGet, hes, hx, Option.bind_none]

theorem fills_mapInserts (hm : heap.entries m = .ok .empty) (writes : List (Item × Item)) :
    heap.Fills (heap.performAll (mapInserts m writes)) m (entriesOf writes) := by
  rw [performAll_mapInserts hm]
  set written := entriesOf writes
  set es := Entries.empty.writeAll written
  have hes : (heap.setEntries m es).entries m = .ok es := entries_setEntries hm es
  have hget (k : Key) : es.get? k = lastValue? written k := Entries.get?_writeAll_empty written k
  refine ⟨⟨es, hes, Entries.keys_writeAll_empty written, hget⟩, ?get, ?get_absent, ?get_badKey,
    ?insert, ?insert_badKey, ?failed, ?distinct, fun s hs => sameAt_setEntries hs⟩
  case get =>
    intro k
    rw [mapGet_key hes, hget]
  case get_absent =>
    intro k hk
    rw [mapGet_key hes, hget, lastValue?_eq_none_iff.mpr hk]
  case get_badKey =>
    intro x hx
    exact mapGet_badKey hes (Item.key?_eq_none_iff.mpr hx)
  case insert =>
    intro k value
    rw [mapInsert_ok k.key?_item hes, hget]
  case insert_badKey =>
    intro x value hx
    exact mapInsert_badKey (Item.key?_eq_none_iff.mpr hx) _ m value
  case failed =>
    intro h key value e heap' hfail
    exact eq_of_mapInsert_error hfail
  case distinct =>
    intro j k value hjk
    have hne : j ≠ k := by
      intro heq
      obtain ⟨hkind, hbytes⟩ := Key.eq_iff.mp heq
      rcases hjk with h | h
      · exact h hkind
      · exact h hbytes
    rw [mapInsert_ok j.key?_item hes, mapGet_key (entries_setEntries hes _), mapGet_key hes,
      Entries.get?_insert, if_neg hne]

/-- Decoding a map makes its values and then fills a new map with them, entry by entry. -/
theorem decode_map {data : Bytes} {limits : Limits} {ds : List (Key × Content)} {x : Item}
    (hsize : data.length < UInt64.size) (hreads : Reads limits data (.map ds))
    (h : decode heap data limits = (.ok x, heap')) :
    ∃ heap₁ ps h heap₂, heap.Extends heap₁ ∧
      List.Forall₂ heap₁.EntryUnfolds ps (ds.map fun e => (e.1, e.2.merged)) ∧
      heap₁.newMap = (.ok (.map h), heap₂) ∧ x = .map h ∧
      heap' = heap₂.performAll (mapInserts h (writesOf ps)) ∧ heap₂.Fills heap' h ps := by
  have hcomplete : ∀ t ∈ (map ds).children, t.outline.Complete := by
    have hall := hreads.spells.1
    rw [outline_eq] at hall
    cases hall with
    | mk _ hparts => simpa using hparts
  have hmake := make_of_decode hsize hreads.spells h
  rw [outline_eq, node, make] at hmake
  split at hmake
  · cases hmake
  · rename_i xs heap₁ hxs
    have hmade := makeAll_outline_ok hcomplete hxs
    obtain ⟨ps, rfl, hentries⟩ := exists_pairs_of_children hmade.unfolds
    obtain ⟨m, heap₂, hnew, rfl, rfl⟩ := build_map_eq_ok_iff.mp hmake
    have hfills := fills_mapInserts (entries_newMap hnew) (writesOf ps)
    rw [entriesOf_writesOf] at hfills
    exact ⟨heap₁, ps, m, heap₂, hmade.grows.keeps, hentries, hnew, rfl, rfl, hfills⟩

/-- A map that is empty at first and then written to, with any items as keys and as values, holds
each key in the place of its first entry with the value of its last; writes with containers and
host references as keys fail and change nothing. Decoding a map comes to the same: building it
from its pairs leaves the heap as if a new map had been filled with them one by one. -/
theorem maps_keep_insertion_order (heap : Heap) (m : MapRef) (writes : List (Item × Item))
    (hm : heap.entries m = .ok .empty) :
    heap.Fills (heap.performAll (mapInserts m writes)) m (entriesOf writes) ∧
    (∀ (heap₁ : Heap) (ps : List (Key × Item)) x heap',
      Node.build .map (ps.flatMap fun e => [e.1.item, e.2]) heap₁ = (.ok x, heap') ↔
        ∃ h heap₂, heap₁.newMap = (.ok (.map h), heap₂) ∧ x = .map h ∧
          heap' = heap₂.performAll (mapInserts h (writesOf ps))) ∧
    ∀ (heap₀ : Heap) data limits ds x heap', data.length < UInt64.size →
      Reads limits data (.map ds) → decode heap₀ data limits = (.ok x, heap') →
      ∃ heap₁ ps h heap₂, heap₀.Extends heap₁ ∧
        List.Forall₂ heap₁.EntryUnfolds ps (ds.map fun e => (e.1, e.2.merged)) ∧
        heap₁.newMap = (.ok (.map h), heap₂) ∧ x = .map h ∧
        heap' = heap₂.performAll (mapInserts h (writesOf ps)) ∧ heap₂.Fills heap' h ps := by
  refine ⟨fills_mapInserts hm writes, ?_, ?_⟩
  · intro heap₁ ps x heap'
    exact build_map_eq_ok_iff
  · intro heap₀ data limits ds x heap' hsize hreads h
    exact decode_map hsize hreads h

/-- Three keys with the same bytes, the first of them twice, and an item that cannot be a key. -/
def repeatedWrites : List (Item × Item) :=
  [(.bytes [1], .integer 10), (.boolean true, .integer 20), (.array ⟨0⟩, .integer 0),
    (.integer 1, .integer 30), (.bytes [1], .integer 11)]

theorem maps_keep_insertion_order_repeatedWrites :
    Heap.empty.newMap.2.entries ⟨0⟩ = .ok .empty ∧
      ∃ es, (Heap.empty.newMap.2.performAll (mapInserts ⟨0⟩ repeatedWrites)).entries ⟨0⟩ = .ok es ∧
        es.keys = [.bytes [1], .boolean true, .integer 1] ∧
        es.get? (.bytes [1]) = some (.integer 11) := by
  have hm : Heap.empty.newMap.2.entries ⟨0⟩ = .ok .empty := by decide
  obtain ⟨hfills, -, -⟩ := maps_keep_insertion_order Heap.empty.newMap.2 ⟨0⟩ repeatedWrites hm
  obtain ⟨es, hes, hkeys, hget⟩ := hfills.entries
  refine ⟨hm, es, hes, hkeys.trans (by decide), (hget _).trans (by decide)⟩

end Heap

end ScriptHost

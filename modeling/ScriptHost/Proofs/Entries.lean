import Mathlib.Data.List.Forall2
import Mathlib.Data.List.Induction
import Mathlib.Data.List.Nodup
import Mathlib.Data.List.Perm.Subperm
import ScriptHost.Heap.Entries

/-!
# ScriptHost.Proofs.Entries

Entries written one after the other into a map that is empty at first: each key stands where it
was written first, with the value that was written last (`foldl_put_eq_merge`).
-/

namespace ScriptHost

section

variable {α β : Type}

theorem find?_eq_none_iff {pairs : List (Key × α)} {k : Key} :
    (pairs.find? fun e => e.1 = k) = none ↔ k ∉ pairs.map (·.1) := by
  rw [List.find?_eq_none, List.mem_map]
  constructor
  · rintro h ⟨e, he, rfl⟩
    exact h e he (decide_eq_true rfl)
  · intro h e he hek
    exact h ⟨e, he, of_decide_eq_true hek⟩

/-- Each key once: in the place of its first entry, with the value of its last. -/
def merge (es : List (Key × α)) : List (Key × α) :=
  (es.map (·.1)).eraseDups.filterMap fun k => es.reverse.find? fun e => e.1 = k

theorem exists_last {es : List (Key × α)} {k : Key} (h : k ∈ es.map (·.1)) :
    ∃ x, es.reverse.find? (fun e => e.1 = k) = some (k, x) := by
  cases hfind : es.reverse.find? fun e => e.1 = k with
  | none =>
    rw [find?_eq_none_iff, List.map_reverse, List.mem_reverse] at hfind
    exact absurd h hfind
  | some e =>
    have hk := List.find?_some hfind
    exact ⟨e.2, by rw [← of_decide_eq_true hk]⟩

theorem keys_merge (es : List (Key × α)) : (merge es).map (·.1) = (es.map (·.1)).eraseDups := by
  have hall : ∀ k ∈ (es.map (·.1)).eraseDups, k ∈ es.map (·.1) := fun k => List.mem_eraseDups.mp
  unfold merge
  generalize (es.map (·.1)).eraseDups = ks at hall
  induction ks with
  | nil => rfl
  | cons k ks ih =>
    obtain ⟨x, hx⟩ := exists_last (hall k List.mem_cons_self)
    rw [List.filterMap_cons, hx, List.map_cons, ih fun k hk => hall k (List.mem_cons_of_mem _ hk)]

/-- One entry more replaces a value in its place or goes to the end. -/
theorem merge_concat (es : List (Key × α)) (e : Key × α) :
    merge (es ++ [e]) = put e.1 e.2 (merge es) := by
  have hlast (k : Key) : ((es ++ [e]).reverse.find? fun e => e.1 = k) =
      if e.1 = k then some e else es.reverse.find? fun e => e.1 = k := by
    rw [List.reverse_concat, List.find?_cons]
    by_cases hk : e.1 = k <;> simp [hk]
  unfold put
  simp only [any_iff_mem_keys, keys_merge, List.mem_eraseDups]
  unfold merge
  simp only [hlast]
  rw [List.map_append, List.eraseDups_append, List.filterMap_append]
  by_cases hk : e.1 ∈ es.map (·.1)
  · have hnew : ([e].map (·.1)).removeAll (es.map (·.1)) = [] := by simpa [List.removeAll] using hk
    rw [if_pos hk, hnew, List.map_filterMap, List.eraseDups_nil, List.filterMap_nil,
      List.append_nil]
    refine List.filterMap_congr ?_
    intro k hmem
    obtain ⟨x, hx⟩ := exists_last (List.mem_eraseDups.mp hmem)
    rw [hx]
    by_cases hek : e.1 = k
    · rw [if_pos hek, Option.map_some, if_pos hek.symm]
    · rw [if_neg hek, Option.map_some, if_neg (Ne.symm hek)]
  · have hnew : ([e].map (·.1)).removeAll (es.map (·.1)) = [e.1] := by
      simpa [List.removeAll] using hk
    rw [if_neg hk, hnew]
    congr 1
    · refine List.filterMap_congr ?_
      intro k hmem
      rw [if_neg]
      rintro rfl
      exact hk (List.mem_eraseDups.mp hmem)
    · simp [List.eraseDups_cons]

theorem foldl_put_eq_merge (es : List (Key × α)) :
    es.foldl (fun pairs e => put e.1 e.2 pairs) [] = merge es := by
  induction es using List.reverseRecOn with
  | nil => rfl
  | append_singleton es e ih => rw [List.foldl_append, ih, merge_concat]; rfl

theorem merge_of_nodup {es : List (Key × α)} (h : (es.map (·.1)).Nodup) : merge es = es := by
  induction es using List.reverseRecOn with
  | nil => rfl
  | append_singleton es e ih =>
    rw [List.map_append, List.nodup_append] at h
    obtain ⟨hes, _, hdisjoint⟩ := h
    have hk : e.1 ∉ es.map (·.1) := fun hmem => hdisjoint _ hmem _ List.mem_cons_self rfl
    rw [merge_concat, ih hes, put, if_neg (fun h => hk ((any_iff_mem_keys es e.1).mp h))]

theorem nodup_keys_merge (es : List (Key × α)) : ((merge es).map (·.1)).Nodup := by
  induction es using List.reverseRecOn with
  | nil => exact List.nodup_nil
  | append_singleton es e ih =>
    rw [merge_concat]
    exact nodup_keys_put ih

/-- Entries are left out by merging, but none is there that was not written. -/
theorem merge_subperm (es : List (Key × α)) : (merge es).Subperm es := by
  refine List.Nodup.subperm (List.Nodup.of_map _ (nodup_keys_merge es)) ?_
  intro e he
  obtain ⟨k, _, hfind⟩ := List.mem_filterMap.mp he
  exact List.mem_reverse.mp (List.mem_of_find?_eq_some hfind)

theorem mem_of_mem_put {k : Key} {x : α} {pairs : List (Key × α)} {e : Key × α}
    (h : e ∈ put k x pairs) : e = (k, x) ∨ e ∈ pairs := by
  unfold put at h
  split at h
  · obtain ⟨d, hd, rfl⟩ := List.mem_map.mp h
    split
    · exact .inl rfl
    · exact .inr hd
  · rcases List.mem_append.mp h with h | h
    · exact .inr h
    · exact .inl (List.mem_singleton.mp h)

theorem find?_put (k j : Key) (x : α) (pairs : List (Key × α)) :
    ((put k x pairs).find? fun e => e.1 = j) =
      if k = j then some (k, x) else pairs.find? fun e => e.1 = j := by
  unfold put
  simp only [any_iff_mem_keys]
  by_cases hk : k ∈ pairs.map (·.1)
  · have hsame : ((fun e => decide (e.1 = j)) ∘ fun e => if e.1 = k then (k, x) else e) =
        fun e : Key × α => decide (e.1 = j) := by
      funext e
      by_cases he : e.1 = k <;> simp [he]
    rw [if_pos hk, List.find?_map, hsame]
    cases hfind : pairs.find? fun e => e.1 = j with
    | none =>
      rw [Option.map_none, if_neg]
      rintro rfl
      exact find?_eq_none_iff.mp hfind hk
    | some e =>
      have he : e.1 = j := by simpa using List.find?_some hfind
      subst he
      by_cases hke : k = e.1
      · rw [Option.map_some, if_pos hke.symm, if_pos hke]
      · rw [Option.map_some, if_neg (Ne.symm hke), if_neg hke]
  · rw [if_neg hk, List.find?_append]
    by_cases hkj : k = j
    · subst hkj
      simp [find?_eq_none_iff.mpr hk]
    · simp [hkj]

/-- What was written last under the key. -/
def lastValue? (written : List (Key × α)) (k : Key) : Option α :=
  (written.reverse.find? fun e => e.1 = k).map (·.2)

theorem lastValue?_concat (written : List (Key × α)) (e : Key × α) (k : Key) :
    lastValue? (written ++ [e]) k = if e.1 = k then some e.2 else lastValue? written k := by
  rw [lastValue?, List.reverse_concat, List.find?_cons]
  by_cases hk : e.1 = k <;> simp [hk, lastValue?]

theorem lastValue?_eq_none_iff {written : List (Key × α)} {k : Key} :
    lastValue? written k = none ↔ k ∉ written.map (·.1) := by
  rw [lastValue?, Option.map_eq_none_iff, find?_eq_none_iff, List.map_reverse, List.mem_reverse]

/-- Writing related values under one key keeps lists of entries related. -/
theorem forall₂_put {R : α → β → Prop} {k : Key} {x : α} {y : β} {ps : List (Key × α)}
    {qs : List (Key × β)} (hxy : R x y)
    (h : List.Forall₂ (fun p q => p.1 = q.1 ∧ R p.2 q.2) ps qs) :
    List.Forall₂ (fun p q => p.1 = q.1 ∧ R p.2 q.2) (put k x ps) (put k y qs) := by
  have hkeys : ps.map (·.1) = qs.map (·.1) := by
    induction h with
    | nil => rfl
    | cons hpq _ ih => rw [List.map_cons, List.map_cons, hpq.1, ih]
  unfold put
  simp only [any_iff_mem_keys, hkeys]
  split
  · rw [List.forall₂_map_left_iff, List.forall₂_map_right_iff]
    refine h.imp ?_
    intro p q hpq
    rw [hpq.1]
    split
    · exact ⟨rfl, hxy⟩
    · exact hpq
  · exact List.rel_append h (.cons ⟨rfl, hxy⟩ .nil)

theorem forall₂_foldl_put {R : α → β → Prop} {ps ps' : List (Key × α)} {qs qs' : List (Key × β)}
    (h : List.Forall₂ (fun p q => p.1 = q.1 ∧ R p.2 q.2) ps qs)
    (h' : List.Forall₂ (fun p q => p.1 = q.1 ∧ R p.2 q.2) ps' qs') :
    List.Forall₂ (fun p q => p.1 = q.1 ∧ R p.2 q.2)
      (ps.foldl (fun pairs e => put e.1 e.2 pairs) ps')
      (qs.foldl (fun pairs e => put e.1 e.2 pairs) qs') := by
  induction h generalizing ps' qs' with
  | nil => exact h'
  | cons hpq _ ih =>
    refine ih ?_
    simp only [hpq.1]
    exact forall₂_put hpq.2 h'

theorem forall₂_merge {R : α → β → Prop} {ps : List (Key × α)} {qs : List (Key × β)}
    (h : List.Forall₂ (fun p q => p.1 = q.1 ∧ R p.2 q.2) ps qs) :
    List.Forall₂ (fun p q => p.1 = q.1 ∧ R p.2 q.2) (merge ps) (merge qs) := by
  rw [← foldl_put_eq_merge, ← foldl_put_eq_merge]
  exact forall₂_foldl_put h .nil

end

namespace Entries

theorem mem_values_insert {es : Entries} {k : Key} {x y : Item}
    (h : y ∈ (es.insert k x).values) : y = x ∨ y ∈ es.values := by
  obtain ⟨e, he, rfl⟩ := List.mem_map.mp h
  rcases mem_of_mem_put he with rfl | he
  · exact .inl rfl
  · exact .inr (List.mem_map_of_mem he)

theorem get?_insert (es : Entries) (k j : Key) (x : Item) :
    (es.insert k x).get? j = if k = j then some x else es.get? j := by
  rw [get?, insert, find?_put]
  split <;> rfl

/-! ## Sequences of entries -/

def writeAll (es : Entries) (written : List (Key × Item)) : Entries :=
  written.foldl (fun es e => es.insert e.1 e.2) es

theorem pairs_writeAll (es : Entries) (written : List (Key × Item)) :
    (es.writeAll written).pairs = written.foldl (fun pairs e => put e.1 e.2 pairs) es.pairs := by
  induction written generalizing es with
  | nil => rfl
  | cons e written ih => exact ih (es.insert e.1 e.2)

theorem pairs_writeAll_empty (written : List (Key × Item)) :
    (empty.writeAll written).pairs = merge written :=
  (pairs_writeAll empty written).trans (foldl_put_eq_merge written)

/-- Each key once, in the order in which the keys were written first. -/
theorem keys_writeAll_empty (written : List (Key × Item)) :
    (empty.writeAll written).keys = (written.map (·.1)).eraseDups := by
  rw [keys, pairs_writeAll_empty, keys_merge]

/-- Each key holds what was written last. -/
theorem get?_writeAll_empty (written : List (Key × Item)) (k : Key) :
    (empty.writeAll written).get? k = lastValue? written k := by
  induction written using List.reverseRecOn with
  | nil => rfl
  | append_singleton written e ih =>
    rw [lastValue?_concat, writeAll, List.foldl_concat, get?_insert, ← ih]
    rfl

end Entries

end ScriptHost

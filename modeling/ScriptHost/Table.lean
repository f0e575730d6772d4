/-!
# ScriptHost.Table

Finite tables from names to values, kept in strictly ascending order of the names. `get?_insert`
says what a table holds after an entry is written, `sorted` that no name is listed twice, and
`mem_entries_iff` that what is listed is what is found.
-/

namespace ScriptHost

/-- Writes the entry `key ↦ value`, in place of an entry that `key` already has. -/
def insertEntry {α : Type} (key : String) (value : α) : List (String × α) → List (String × α)
  | [] => [(key, value)]
  | (k, v) :: rest =>
    if key < k then (key, value) :: (k, v) :: rest
    else if key = k then (key, value) :: rest
    else (k, v) :: insertEntry key value rest

theorem mem_insertEntry {α : Type} {key : String} {value : α} {entries : List (String × α)}
    {e : String × α} (h : e ∈ insertEntry key value entries) :
    e = (key, value) ∨ e ∈ entries := by
  induction entries with
  | nil => simpa [insertEntry] using h
  | cons first rest ih =>
    obtain ⟨k, v⟩ := first
    simp only [insertEntry] at h
    split at h
    · simpa using h
    · split at h
      · rcases List.mem_cons.mp h with h | h
        · exact .inl h
        · exact .inr (List.mem_cons_of_mem _ h)
      · rcases List.mem_cons.mp h with h | h
        · exact .inr (h ▸ List.mem_cons_self)
        · rcases ih h with h | h
          · exact .inl h
          · exact .inr (List.mem_cons_of_mem _ h)

theorem sorted_insertEntry {α : Type} (key : String) (value : α) {entries : List (String × α)}
    (h : entries.Pairwise (fun a b => a.1 < b.1)) :
    (insertEntry key value entries).Pairwise (fun a b => a.1 < b.1) := by
  induction entries with
  | nil => simp [insertEntry]
  | cons first rest ih =>
    obtain ⟨k, v⟩ := first
    obtain ⟨hk, hrest⟩ := List.pairwise_cons.mp h
    simp only [insertEntry]
    split
    · rename_i hlt
      refine List.pairwise_cons.mpr ⟨fun e he => ?_, h⟩
      rcases List.mem_cons.mp he with rfl | he
      · exact hlt
      · exact String.lt_trans hlt (hk e he)
    · split
      · rename_i heq
        exact List.pairwise_cons.mpr ⟨fun e he => heq ▸ hk e he, hrest⟩
      · rename_i hlt hne
        refine List.pairwise_cons.mpr ⟨fun e he => ?_, ih hrest⟩
        rcases mem_insertEntry he with rfl | he
        · have hle : k ≤ key := String.not_lt.mp hlt
          by_cases hkk : k < key
          · exact hkk
          · exact absurd (String.le_antisymm (String.not_lt.mp hkk) hle) hne
        · exact hk e he

structure Table (α : Type) where
  entries : List (String × α) := []
  sorted : entries.Pairwise (fun a b => a.1 < b.1) := by simp

namespace Table

variable {α : Type}

def empty : Table α := {}

def insert (t : Table α) (key : String) (value : α) : Table α where
  entries := insertEntry key value t.entries
  sorted := sorted_insertEntry key value t.sorted

def get? (t : Table α) (key : String) : Option α := t.entries.lookup key

def contains (t : Table α) (key : String) : Bool := (t.get? key).isSome

def keys (t : Table α) : List String := t.entries.map (·.1)

def size (t : Table α) : Nat := t.entries.length

theorem lookup_entry (key k : String) (v : α) (rest : List (String × α)) :
    ((k, v) :: rest).lookup key = if key = k then some v else rest.lookup key := by
  by_cases h : key = k
  · simp [h]
  · rw [List.lookup_cons, beq_eq_false_iff_ne.mpr h, if_neg h]

theorem lookup_insertEntry (key key' : String) (value : α) (entries : List (String × α)) :
    (insertEntry key value entries).lookup key' =
      if key' = key then some value else entries.lookup key' := by
  induction entries with
  | nil => simp only [insertEntry, lookup_entry]
  | cons first rest ih =>
    obtain ⟨k, v⟩ := first
    simp only [insertEntry]
    split
    · simp only [lookup_entry]
    · split
      · rename_i heq
        subst heq
        simp only [lookup_entry]
        split <;> rfl
      · rename_i hne
        simp only [lookup_entry, ih]
        split
        · rename_i hk
          rw [if_neg (fun h => hne (h.symm.trans hk))]
        · rfl

theorem get?_insert (t : Table α) (key key' : String) (value : α) :
    (t.insert key value).get? key' = if key' = key then some value else t.get? key' :=
  lookup_insertEntry key key' value t.entries

@[simp] theorem get?_empty (key : String) : (empty : Table α).get? key = none := rfl

theorem sorted_keys (t : Table α) : t.keys.Pairwise (· < ·) :=
  List.pairwise_map.mpr t.sorted

/-- A key that comes before all that are listed is not listed itself. -/
theorem lookup_of_lt {key : String} {entries : List (String × α)}
    (h : ∀ e ∈ entries, key < e.1) : entries.lookup key = none := by
  induction entries with
  | nil => rfl
  | cons first rest ih =>
    obtain ⟨k, v⟩ := first
    have hk : key ≠ k := by
      intro heq
      have hlt : key < k := h (k, v) List.mem_cons_self
      exact String.lt_irrefl k (heq ▸ hlt)
    rw [lookup_entry, if_neg hk]
    exact ih fun e he => h e (List.mem_cons_of_mem _ he)

theorem mem_entries_iff (t : Table α) {key : String} {value : α} :
    (key, value) ∈ t.entries ↔ t.get? key = some value := by
  obtain ⟨entries, sorted⟩ := t
  simp only [get?]
  induction entries with
  | nil => simp
  | cons first rest ih =>
    obtain ⟨k, v⟩ := first
    obtain ⟨hfirst, hrest⟩ := List.pairwise_cons.mp sorted
    rw [lookup_entry, List.mem_cons, ih hrest]
    by_cases hk : key = k
    · subst hk
      rw [if_pos rfl, lookup_of_lt hfirst]
      simp [eq_comm]
    · rw [if_neg hk]
      simp [hk]

theorem mem_keys_iff (t : Table α) {key : String} :
    key ∈ t.keys ↔ ∃ value, t.get? key = some value := by
  simp only [keys, List.mem_map, Prod.exists, mem_entries_iff, exists_and_right, exists_eq_right]

/-- An entry is written between those that come before and after it, over the one with its key. -/
theorem exists_entries_insert (t : Table α) (key : String) (value : α) :
    ∃ before after, (t.insert key value).entries = before ++ (key, value) :: after ∧
      t.entries = before ++ ((t.get? key).toList.map (key, ·) ++ after) := by
  obtain ⟨entries, sorted⟩ := t
  simp only [insert, get?]
  induction entries with
  | nil => exact ⟨[], [], rfl, rfl⟩
  | cons first rest ih =>
    obtain ⟨k, v⟩ := first
    obtain ⟨hfirst, hrest⟩ := List.pairwise_cons.mp sorted
    simp only [insertEntry]
    by_cases hlt : key < k
    · have hall : ∀ e ∈ (k, v) :: rest, key < e.1 := by
        intro e he
        rcases List.mem_cons.mp he with rfl | he
        · exact hlt
        · exact String.lt_trans hlt (hfirst e he)
      rw [if_pos hlt, lookup_of_lt hall]
      exact ⟨[], (k, v) :: rest, rfl, rfl⟩
    · rw [if_neg hlt, lookup_entry]
      by_cases hk : key = k
      · subst hk
        simp only [if_pos]
        exact ⟨[], rest, rfl, rfl⟩
      · obtain ⟨before, after, hinsert, hrest'⟩ := ih hrest
        rw [if_neg hk, if_neg hk]
        refine ⟨(k, v) :: before, after, ?_, ?_⟩
        · rw [hinsert, List.cons_append]
        · rw [List.cons_append, ← hrest']

end Table

end ScriptHost

import ScriptHost.Item

/-!
# ScriptHost.Heap.Entries

The entries of a map container in the order in which their keys were first written, no key twice.
Writing to a key that is there replaces its value in place (`keys_put`).
-/

namespace ScriptHost

/-- Writes the value of one key: in place if the key is listed, and behind all others if not. -/
def put {α : Type} (k : Key) (x : α) (pairs : List (Key × α)) : List (Key × α) :=
  if pairs.any (fun e => e.1 = k) then pairs.map fun e => if e.1 = k then (k, x) else e
  else pairs ++ [(k, x)]

theorem any_iff_mem_keys {α : Type} (pairs : List (Key × α)) (k : Key) :
    pairs.any (fun e => e.1 = k) = true ↔ k ∈ pairs.map (·.1) := by
  simp

theorem keys_put {α : Type} (k : Key) (x : α) (pairs : List (Key × α)) :
    (put k x pairs).map (·.1) =
      if k ∈ pairs.map (·.1) then pairs.map (·.1) else pairs.map (·.1) ++ [k] := by
  by_cases h : pairs.any (fun e => e.1 = k)
  · rw [if_pos ((any_iff_mem_keys pairs k).mp h), put, if_pos h]
    simp only [List.map_map]
    apply List.map_congr_left
    intro e _
    by_cases he : e.1 = k <;> simp [he]
  · rw [if_neg (fun hk => h ((any_iff_mem_keys pairs k).mpr hk)), put, if_neg h]
    simp

theorem nodup_keys_put {α : Type} {k : Key} {x : α} {pairs : List (Key × α)}
    (h : (pairs.map (·.1)).Nodup) : ((put k x pairs).map (·.1)).Nodup := by
  rw [keys_put]
  split
  · exact h
  · rename_i hk
    rw [List.nodup_append]
    refine ⟨h, by simp, ?_⟩
    intro a ha b hb hab
    rw [List.mem_singleton.mp hb] at hab
    exact hk (hab ▸ ha)

structure Entries where
  pairs : List (Key × Item) := []
  distinct : (pairs.map (·.1)).Nodup := by simp
deriving DecidableEq, Repr

namespace Entries

def empty : Entries := {}

def get? (es : Entries) (k : Key) : Option Item :=
  (es.pairs.find? fun e => e.1 = k).map (·.2)

def insert (es : Entries) (k : Key) (x : Item) : Entries where
  pairs := put k x es.pairs
  distinct := nodup_keys_put es.distinct

def keys (es : Entries) : List Key := es.pairs.map (·.1)

def values (es : Entries) : List Item := es.pairs.map (·.2)

def size (es : Entries) : Nat := es.pairs.length

@[simp] theorem keys_empty : keys empty = [] := rfl

@[simp] theorem get?_empty (k : Key) : empty.get? k = none := rfl

theorem keys_insert (es : Entries) (k : Key) (x : Item) :
    (es.insert k x).keys = if k ∈ es.keys then es.keys else es.keys ++ [k] :=
  keys_put k x es.pairs

end Entries

end ScriptHost

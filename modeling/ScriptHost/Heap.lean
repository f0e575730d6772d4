import ScriptHost.Heap.Entries

/-!
# ScriptHost.Heap

The store of containers. Containers are only ever added, one slot each, and a handle is the
number of its slot; so a handle stays good for the life of the heap, and two containers are the
same exactly when their handles are.
-/

namespace ScriptHost

inductive HeapError
  | badHandle (index : UInt32)
  | invalidMapKey (kind : String)
  | handlesExhausted
deriving DecidableEq, Repr

def HeapError.message : HeapError → String
  | .badHandle index => "container handle " ++ toString index ++ " out of bounds"
  | .invalidMapKey kind => kind ++ " cannot be used as a map key"
  | .handlesExhausted => "container handles exhausted"

def HeapError.causes : HeapError → List String
  | _ => []

structure Heap where
  arrays : Array (List Item) := #[]
  maps : Array Entries := #[]
deriving DecidableEq

namespace Heap

def empty : Heap := {}

/-- Number of containers. -/
def size (heap : Heap) : Nat := heap.arrays.size + heap.maps.size

/-- The handle for the slot numbered `slot`; there are as many in each space as there
are 32-bit words. -/
def nextIndex (slot : Nat) : Except HeapError UInt32 :=
  if slot < UInt32.size then .ok (UInt32.ofNat slot) else .error .handlesExhausted

/-! ## Adding containers

An operation that changes the heap answers with the heap after it, whether it succeeds or not; one
that fails changes nothing. -/

def allocItems (heap : Heap) (xs : List Item) : Except HeapError ArrayRef × Heap :=
  match nextIndex heap.arrays.size with
  | .error e => (.error e, heap)
  | .ok index => (.ok ⟨index⟩, { heap with arrays := heap.arrays.push xs })

def allocMap (heap : Heap) (es : Entries) : Except HeapError MapRef × Heap :=
  match nextIndex heap.maps.size with
  | .error e => (.error e, heap)
  | .ok index => (.ok ⟨index⟩, { heap with maps := heap.maps.push es })

def newArray (heap : Heap) (xs : List Item) : Except HeapError Item × Heap :=
  match heap.allocItems xs with
  | (.error e, heap') => (.error e, heap')
  | (.ok h, heap') => (.ok (.array h), heap')

def newStruct (heap : Heap) (xs : List Item) : Except HeapError Item × Heap :=
  match heap.allocItems xs with
  | (.error e, heap') => (.error e, heap')
  | (.ok h, heap') => (.ok (.struct h), heap')

def newMap (heap : Heap) : Except HeapError Item × Heap :=
  match heap.allocMap .empty with
  | (.error e, heap') => (.error e, heap')
  | (.ok h, heap') => (.ok (.map h), heap')

/-! ## Reading and writing -/

def items (heap : Heap) (h : ArrayRef) : Except HeapError (List Item) :=
  match heap.arrays[h.index.toNat]? with
  | none => .error (.badHandle h.index)
  | some xs => .ok xs

def entries (heap : Heap) (h : MapRef) : Except HeapError Entries :=
  match heap.maps[h.index.toNat]? with
  | none => .error (.badHandle h.index)
  | some es => .ok es

def setItems (heap : Heap) (h : ArrayRef) (xs : List Item) : Heap :=
  { heap with arrays := heap.arrays.setIfInBounds h.index.toNat xs }

def setEntries (heap : Heap) (h : MapRef) (es : Entries) : Heap :=
  { heap with maps := heap.maps.setIfInBounds h.index.toNat es }

def pushItem (heap : Heap) (h : ArrayRef) (x : Item) : Except HeapError Unit × Heap :=
  match heap.items h with
  | .error e => (.error e, heap)
  | .ok xs => (.ok (), heap.setItems h (xs ++ [x]))

/-- Puts `x` in the place numbered `i` and tells what stood there; beyond the end it does
nothing. -/
def replaceItem (heap : Heap) (h : ArrayRef) (i : Nat) (x : Item) :
    Except HeapError (Option Item) × Heap :=
  match heap.items h with
  | .error e => (.error e, heap)
  | .ok xs => (.ok xs[i]?, heap.setItems h (xs.set i x))

/-- Keeps the first `n` elements and tells how many there are then. -/
def truncateItems (heap : Heap) (h : ArrayRef) (n : Nat) : Except HeapError Nat × Heap :=
  match heap.items h with
  | .error e => (.error e, heap)
  | .ok xs => (.ok (xs.take n).length, heap.setItems h (xs.take n))

/-- Writes an entry and tells what the key held before. A bad key is found before a bad
handle. -/
def mapInsert (heap : Heap) (h : MapRef) (key value : Item) :
    Except HeapError (Option Item) × Heap :=
  match key.key? with
  | none => (.error (.invalidMapKey key.kindName), heap)
  | some k =>
    match heap.entries h with
    | .error e => (.error e, heap)
    | .ok es => (.ok (es.get? k), heap.setEntries h (es.insert k value))

/-- What a key holds; an item that cannot be a key holds nothing. -/
def mapGet (heap : Heap) (h : MapRef) (key : Item) : Except HeapError (Option Item) :=
  match heap.entries h with
  | .error e => .error e
  | .ok es => .ok (key.key?.bind es.get?)

/-! ## Marks -/

/-- How many containers of each space there were at some moment. -/
structure Mark where
  arrays : Nat
  maps : Nat
deriving DecidableEq, Repr

def mark (heap : Heap) : Mark := ⟨heap.arrays.size, heap.maps.size⟩

/-- Drops every container added since the mark. -/
def rollback (heap : Heap) (m : Mark) : Heap where
  arrays := heap.arrays.take m.arrays
  maps := heap.maps.take m.maps

end Heap

end ScriptHost

import ScriptHost.Codec.Layout

/-!
# ScriptHost.Codec.Decode

Reading an item. The layout of the input is checked as a whole before any container is made;
then the nodes are gone through from the last to the first, so that the items inside a container
are made before it. Made items that belong to no container yet are kept on a stack, the foremost
of the input on top. If that fails, the containers made so far are dropped again.
-/

namespace ScriptHost

/-- The first `n` items and the rest, if there are so many. -/
def splitFirst? (n : Nat) (xs : List Item) : Option (List Item × List Item) :=
  let parts := xs.splitAt n
  if parts.1.length = n then some parts else none

/-- Writes keys and values, taken in turn, behind the entries `es`. -/
def Entries.insertAll (es : Entries) : List Item → Except FormatError Entries
  | key :: value :: rest =>
    match key.key? with
    | none => .error (.invalidMapKey key.kindName)
    | some k => (es.insert k value).insertAll rest
  | _ => .ok es

namespace Node

def build (kind : ContainerKind) (children : List Item) (heap : Heap) :
    Except DecodeError Item × Heap :=
  match kind with
  | .array =>
    match heap.newArray children with
    | (.error e, heap') => (.error (.heap e), heap')
    | (.ok x, heap') => (.ok x, heap')
  | .struct =>
    match heap.newStruct children with
    | (.error e, heap') => (.error (.heap e), heap')
    | (.ok x, heap') => (.ok x, heap')
  | .map =>
    match Entries.empty.insertAll children with
    | .error e => (.error (.format e), heap)
    | .ok es =>
      match heap.allocMap es with
      | (.error e, heap') => (.error (.heap e), heap')
      | (.ok h, heap') => (.ok (.map h), heap')

/-- Makes the item of one node, on top of the items made before. -/
def place (node : Node) (made : List Item) (heap : Heap) :
    Except DecodeError (List Item) × Heap :=
  match node with
  | leaf k => (.ok (k.item :: made), heap)
  | container kind count =>
    match splitFirst? (container kind count).arity.toNat made with
    | none => (.error (.format (.unexpectedEnd 0)), heap)
    | some (children, rest) =>
      match build kind children heap with
      | (.error e, heap') => (.error e, heap')
      | (.ok x, heap') => (.ok (x :: rest), heap')

/-- Makes the items of nodes that are listed last first. -/
def placeAll : List Node → List Item → Heap → Except DecodeError (List Item) × Heap
  | [], made, heap => (.ok made, heap)
  | node :: earlier, made, heap =>
    match node.place made heap with
    | (.error e, heap') => (.error e, heap')
    | (.ok made', heap') => placeAll earlier made' heap'

end Node

def rebuild (nodes : List Node) (heap : Heap) : Except DecodeError Item × Heap :=
  match Node.placeAll nodes.reverse [] heap with
  | (.error e, heap') => (.error e, heap')
  | (.ok [x], heap') => (.ok x, heap')
  | (.ok _, heap') => (.error (.format (.unexpectedEnd 0)), heap')

/-- Reads the one item that `data` holds and puts its containers into the heap. On failure the
heap is as before. -/
def decode (heap : Heap) (data : Bytes) (limits : Limits) : Except DecodeError Item × Heap :=
  match layout data limits with
  | .error e => (.error e, heap)
  | .ok nodes =>
    let start := heap.mark
    match rebuild nodes heap with
    | (.error e, heap') => (.error e, heap'.rollback start)
    | (.ok x, heap') => (.ok x, heap')

end ScriptHost

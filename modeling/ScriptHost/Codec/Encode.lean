import Std.Data.HashSet.Lemmas
import ScriptHost.Codec.Tag
import ScriptHost.Codec.VarInt
import ScriptHost.Limits

/-!
# ScriptHost.Codec.Encode

Writing an item and everything that can be reached from it. A list holds what is still to be
written, with a marker behind the contents of each container; the containers whose marker is
still to come are those that the next node lies in, and one that is met again among them is a
cycle. A container that several places share is written at each of them. Writing stops as soon as
the output is longer than the limit, and every node adds at least two bytes (`step_decreases`),
so it ends on every heap.
-/

namespace ScriptHost

/-- A node still to be written, or the end of a container's contents. -/
inductive Pending
  | item (x : Item)
  | key (k : Key)
  | leaveArray (h : ArrayRef)
  | leaveMap (h : MapRef)
deriving DecidableEq

/-- Where writing stands; the containers around the next node are open. -/
structure Encoder where
  out : Array UInt8 := #[]
  pending : List Pending
  openArrays : Std.HashSet ArrayRef := ∅
  openMaps : Std.HashSet MapRef := ∅

def Key.encoding : Key → Bytes
  | .bytes b => Tag.bytes.byte :: VarBytes.write b
  | .boolean v => [Tag.boolean.byte, if v then 1 else 0]
  | .integer n => Tag.integer.byte :: VarBytes.write (Integer.toBytes n)

namespace Encoder

/-- What stands in front of the contents of a container. -/
def header (tag : Tag) (count : Nat) : Bytes := tag.byte :: VarInt.write (UInt64.ofNat count)

def writeLeaf (k : Key) : Encoder → Encoder
  | ⟨out, pending, arrays, maps⟩ => ⟨out ++ k.encoding, pending, arrays, maps⟩

/-- Writes the header of an array or struct and queues its elements. -/
def enterItems (heap : Heap) (tag : Tag) (h : ArrayRef) : Encoder → Except EncodeError Encoder
  | ⟨out, pending, arrays, maps⟩ =>
    if arrays.contains h then .error .circularReference
    else
      match heap.items h with
      | .error e => .error (.heap e)
      | .ok xs =>
        .ok ⟨out ++ header tag xs.length, xs.map .item ++ .leaveArray h :: pending,
          arrays.insert h, maps⟩

/-- Writes the header of a map and queues its keys and values in turn. -/
def enterMap (heap : Heap) (h : MapRef) : Encoder → Except EncodeError Encoder
  | ⟨out, pending, arrays, maps⟩ =>
    if maps.contains h then .error .circularReference
    else
      match heap.entries h with
      | .error e => .error (.heap e)
      | .ok es =>
        .ok ⟨out ++ header .map es.size,
          (es.pairs.flatMap fun e => [.key e.1, .item e.2]) ++ .leaveMap h :: pending,
          arrays, maps.insert h⟩

def visit (heap : Heap) (s : Encoder) : Pending → Except EncodeError Encoder
  | .key k => .ok (s.writeLeaf k)
  | .item (.bytes b) => .ok (s.writeLeaf (.bytes b))
  | .item (.boolean v) => .ok (s.writeLeaf (.boolean v))
  | .item (.integer n) => .ok (s.writeLeaf (.integer n))
  | .item (.host r) => .error (.unsupportedValue (Item.host r).kindName)
  | .item (.array h) => s.enterItems heap .array h
  | .item (.struct h) => s.enterItems heap .struct h
  | .item (.map h) => s.enterMap heap h
  | .leaveArray h => .ok { s with openArrays := s.openArrays.erase h }
  | .leaveMap h => .ok { s with openMaps := s.openMaps.erase h }

/-- One node, after which the output must be within the limit. -/
def step (heap : Heap) (limits : Limits) (s : Encoder) (node : Pending) :
    Except EncodeError Encoder :=
  match s.visit heap node with
  | .error e => .error e
  | .ok s' =>
    if limits.itemSize.toNat < s'.out.size then .error (.itemTooLarge limits.itemSize) else .ok s'

/-! ## Why writing ends -/

theorem two_le_length_encoding (k : Key) : 2 ≤ k.encoding.length := by
  have written (v : UInt64) : 1 ≤ (VarInt.write v).length := by
    unfold VarInt.write
    repeat' split
    all_goals simp
  cases k with
  | bytes b => simpa [Key.encoding, VarBytes.write] using Nat.le_add_right_of_le (written _)
  | boolean v => simp [Key.encoding]
  | integer n => simpa [Key.encoding, VarBytes.write] using Nat.le_add_right_of_le (written _)

theorem two_le_length_header (tag : Tag) (count : Nat) : 2 ≤ (header tag count).length := by
  unfold header VarInt.write
  repeat' split
  all_goals simp

theorem size_append (out : Array UInt8) (b : Bytes) : (out ++ b).size = out.size + b.length := by
  rw [← Array.length_toList, Array.toList_appendList, List.length_append, Array.length_toList]

/-- A node adds two bytes or more; a marker adds none and queues nothing. -/
theorem visit_decreases {heap : Heap} {s s' : Encoder} {node : Pending}
    (h : s.visit heap node = .ok s') :
    s.out.size + 2 ≤ s'.out.size ∨ (s'.out = s.out ∧ s'.pending = s.pending) := by
  have leaf (k : Key) : s.out.size + 2 ≤ (s.writeLeaf k).out.size := by
    have := two_le_length_encoding k
    simp only [writeLeaf, size_append]
    omega
  have items (tag : Tag) (a : ArrayRef) (h : s.enterItems heap tag a = .ok s') :
      s.out.size + 2 ≤ s'.out.size := by
    obtain ⟨out, pending, arrays, maps⟩ := s
    unfold enterItems at h
    simp only at h
    split at h
    · cases h
    · split at h
      · cases h
      · rename_i xs _
        cases h
        have := two_le_length_header tag xs.length
        simp only [size_append]
        omega
  have entries (m : MapRef) (h : s.enterMap heap m = .ok s') :
      s.out.size + 2 ≤ s'.out.size := by
    obtain ⟨out, pending, arrays, maps⟩ := s
    unfold enterMap at h
    simp only at h
    split at h
    · cases h
    · split at h
      · cases h
      · rename_i es _
        cases h
        have := two_le_length_header .map es.size
        simp only [size_append]
        omega
  unfold visit at h
  split at h
  · cases h
    exact .inl (leaf _)
  · cases h
    exact .inl (leaf _)
  · cases h
    exact .inl (leaf _)
  · cases h
    exact .inl (leaf _)
  · cases h
  · exact .inl (items _ _ h)
  · exact .inl (items _ _ h)
  · exact .inl (entries _ h)
  · cases h
    exact .inr ⟨rfl, rfl⟩
  · cases h
    exact .inr ⟨rfl, rfl⟩

theorem step_decreases {heap : Heap} {limits : Limits} {s s' : Encoder} {node : Pending}
    (h : s.step heap limits node = .ok s') :
    (s.out.size + 2 ≤ s'.out.size ∧ s'.out.size ≤ limits.itemSize.toNat) ∨
      (s'.out = s.out ∧ s'.pending = s.pending) := by
  unfold step at h
  split at h
  · cases h
  · rename_i t ht
    split at h
    · cases h
    · rename_i hsize
      cases h
      rcases visit_decreases ht with hgrow | hsame
      · exact .inl ⟨hgrow, by omega⟩
      · exact .inr hsame

def run (heap : Heap) (limits : Limits) (s : Encoder) : Except EncodeError Bytes :=
  match hp : s.pending with
  | [] => .ok s.out.toList
  | node :: rest =>
    match h : step heap limits { s with pending := rest } node with
    | .error e => .error e
    | .ok s' =>
      have shorter : rest.length < s.pending.length := by simp [hp]
      have progress := step_decreases h
      run heap limits s'
termination_by (limits.itemSize.toNat - s.out.size, s.pending.length)
decreasing_by
  rcases progress with ⟨hgrow, hsize⟩ | ⟨hout, hpending⟩
  · exact Prod.Lex.left _ _ (by simp only at hgrow; omega)
  · rw [hout, hpending]
    exact Prod.Lex.right _ shorter

end Encoder

/-- The bytes of an item, within the limits; on failure there is no output. -/
def encode (heap : Heap) (x : Item) (limits : Limits) : Except EncodeError Bytes :=
  Encoder.run heap limits { pending := [.item x] }

end ScriptHost

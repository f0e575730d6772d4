import ScriptHost.Digest.Sha3
import ScriptHost.Text.Hex

/-!
# ScriptHost.ScriptHash

The twenty-byte name of a script: the last twenty bytes of its SHA3-256 digest. A hash is kept
in wire order and shown the other way round, as hexadecimal after `0x`.
-/

namespace ScriptHost

structure ScriptHash where
  bytes : Bytes
  length_eq : bytes.length = 20
deriving DecidableEq

namespace ScriptHash

def size : Nat := 20

def ofScript (script : Bytes) : ScriptHash where
  bytes := (Digest.Sha3.digest script).drop 12
  length_eq := by simp

def zero : ScriptHash where
  bytes := List.replicate 20 0
  length_eq := by simp

/-- Twenty bytes in wire order are a hash, and no others. -/
def ofBytes? (b : Bytes) : Option ScriptHash :=
  if h : b.length = 20 then some ⟨b, h⟩ else none

/-- The bytes in the order in which they are shown. -/
def reversed (h : ScriptHash) : Bytes := h.bytes.reverse

def shown (h : ScriptHash) : String := "0x" ++ Text.Hex.encode h.reversed

def order (a b : ScriptHash) : Ordering := Bytes.order a.bytes b.bytes

theorem eq_of_bytes_eq {a b : ScriptHash} (h : a.bytes = b.bytes) : a = b := by
  cases a
  cases b
  simpa using h

theorem length_reversed (h : ScriptHash) : h.reversed.length = 20 := by
  rw [reversed, List.length_reverse, h.length_eq]

theorem ofBytes?_eq_none_iff {b : Bytes} : ofBytes? b = none ↔ b.length ≠ 20 := by
  unfold ofBytes?
  split <;> simp [*]

theorem ofBytes?_eq_some_iff {b : Bytes} {h : ScriptHash} :
    ofBytes? b = some h ↔ h.bytes = b := by
  unfold ofBytes?
  split
  · rw [Option.some.injEq]
    constructor
    · rintro rfl
      rfl
    · intro hb
      exact eq_of_bytes_eq hb.symm
  · rename_i hlen
    constructor
    · intro heq
      cases heq
    · rintro rfl
      exact absurd h.length_eq hlen

end ScriptHash

end ScriptHost

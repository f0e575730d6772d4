import ScriptHost.Codec.Error

/-!
# ScriptHost.Codec.Cursor

A place in untrusted input. Every read is held against the bytes that are left; a read past the
end fails with the length of the whole input, and reading never moves past the end.
-/

namespace ScriptHost

structure Cursor where
  rest : Bytes
  offset : Nat
  unread : Nat
  unread_eq : unread = rest.length

namespace Cursor

def ofBytes (b : Bytes) : Cursor := ⟨b, 0, b.length, rfl⟩

/-- Length of the whole input. -/
def total (c : Cursor) : Nat := c.offset + c.unread

def take (n : Nat) (c : Cursor) : Except FormatError (Bytes × Cursor) :=
  if c.unread < n then .error (.unexpectedEnd c.total)
  else
    .ok (c.rest.take n,
      { rest := c.rest.drop n
        offset := c.offset + n
        unread := c.unread - n
        unread_eq := by rw [List.length_drop, c.unread_eq] })

def byte (c : Cursor) : Except FormatError (UInt8 × Cursor) :=
  match h : c.rest with
  | [] => .error (.unexpectedEnd c.total)
  | b :: rest =>
    .ok (b,
      { rest := rest
        offset := c.offset + 1
        unread := c.unread - 1
        unread_eq := by simp [c.unread_eq, h] })

theorem unread_of_take {n : Nat} {c c' : Cursor} {b : Bytes} (h : c.take n = .ok (b, c')) :
    c'.unread + n = c.unread := by
  unfold take at h
  split at h
  · cases h
  · cases h
    simp only
    omega

theorem unread_of_byte {c c' : Cursor} {b : UInt8} (h : c.byte = .ok (b, c')) :
    c'.unread + 1 = c.unread := by
  unfold byte at h
  split at h
  · cases h
  · rename_i hrest
    cases h
    have hlen := c.unread_eq
    rw [hrest, List.length_cons] at hlen
    simp only
    omega

end Cursor

end ScriptHost

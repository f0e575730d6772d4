import ScriptHost.Codec.Cursor

/-!
# ScriptHost.Codec.VarInt

Lengths and counts on the wire. A value below `0xFD` is one byte; a larger one is the byte
`0xFD`, `0xFE` or `0xFF` and then two, four or eight bytes, the least significant first. Only the
shortest form of a value may be read. A byte string is written as its length and its bytes.
-/

namespace ScriptHost

namespace VarInt

def write (v : UInt64) : Bytes :=
  if v < 0xFD then [v.toUInt8]
  else if v ≤ 0xFFFF then 0xFD :: Bytes.ofNat 2 v.toNat
  else if v ≤ 0xFFFFFFFF then 0xFE :: Bytes.ofNat 4 v.toNat
  else 0xFF :: Bytes.ofNat 8 v.toNat

/-- For a first byte that announces more: how many bytes follow, and the least value that needs
so many. -/
def longForm? (first : UInt8) : Option (Nat × UInt64) :=
  if first = 0xFD then some (2, 0xFD)
  else if first = 0xFE then some (4, 0x10000)
  else if first = 0xFF then some (8, 0x100000000)
  else none

/-- The next value, whatever its size. -/
def readAny (c : Cursor) : Except FormatError (UInt64 × Cursor) :=
  match c.byte with
  | .error e => .error e
  | .ok (first, c₁) =>
    match longForm? first with
    | none => .ok (first.toUInt64, c₁)
    | some (width, least) =>
      match c₁.take width with
      | .error e => .error e
      | .ok (b, c₂) =>
        let v := UInt64.ofNat (Bytes.toNat b)
        if v < least then .error (.nonCanonicalVarInt c.offset) else .ok (v, c₂)

/-- The next value, which may be at most `limit`; `what` names it in the refusal. -/
def read (limit : UInt64) (what : String) (c : Cursor) : Except DecodeError (UInt64 × Cursor) :=
  match readAny c with
  | .error e => .error (.format e)
  | .ok (v, c') =>
    if limit < v then .error (.limitExceeded what limit v) else .ok (v, c')

theorem unread_of_readAny {c c' : Cursor} {v : UInt64} (h : readAny c = .ok (v, c')) :
    c'.unread < c.unread := by
  unfold readAny at h
  split at h
  · cases h
  · rename_i first c₁ hfirst
    have h₁ := Cursor.unread_of_byte hfirst
    split at h
    · cases h
      omega
    · split at h
      · cases h
      · rename_i b c₂ htake
        have h₂ := Cursor.unread_of_take htake
        simp only at h
        split at h
        · cases h
        · cases h
          omega

theorem unread_of_read {limit : UInt64} {what : String} {c c' : Cursor} {v : UInt64}
    (h : read limit what c = .ok (v, c')) : c'.unread < c.unread := by
  unfold read at h
  split at h
  · cases h
  · rename_i hany
    split at h
    · cases h
    · cases h
      exact unread_of_readAny hany

end VarInt

namespace VarBytes

def write (b : Bytes) : Bytes := VarInt.write (UInt64.ofNat b.length) ++ b

/-- The next byte string, which may be at most `limit` long. Its length is held against the
limit and against the bytes that are left before any of it is taken. -/
def read (limit : UInt64) (c : Cursor) : Except DecodeError (Bytes × Cursor) :=
  match VarInt.read limit "byte array length" c with
  | .error e => .error e
  | .ok (n, c') =>
    match c'.take n.toNat with
    | .error e => .error (.format e)
    | .ok r => .ok r

theorem unread_of_read {limit : UInt64} {c c' : Cursor} {b : Bytes}
    (h : read limit c = .ok (b, c')) : c'.unread < c.unread := by
  unfold read at h
  split at h
  · cases h
  · rename_i n c₁ hn
    have h₁ := VarInt.unread_of_read hn
    split at h
    · cases h
    · rename_i r hr
      cases h
      have h₂ := Cursor.unread_of_take hr
      omega

end VarBytes

end ScriptHost

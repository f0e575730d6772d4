/-!
# ScriptHost.Codec.Tag

The byte in front of every written node, which says what kind of node it is. The tag of host
references is set aside: it is never written, and input that has it is refused.
-/

namespace ScriptHost

inductive Tag
  | bytes
  | boolean
  | integer
  | host
  | array
  | struct
  | map
deriving DecidableEq, Repr

namespace Tag

def byte : Tag → UInt8
  | bytes => 0x00
  | boolean => 0x01
  | integer => 0x02
  | host => 0x40
  | array => 0x80
  | struct => 0x81
  | map => 0x82

def ofByte? (b : UInt8) : Option Tag :=
  if b = 0x00 then some bytes
  else if b = 0x01 then some boolean
  else if b = 0x02 then some integer
  else if b = 0x40 then some host
  else if b = 0x80 then some array
  else if b = 0x81 then some struct
  else if b = 0x82 then some map
  else none

theorem ofByte?_eq_some_iff {b : UInt8} {t : Tag} : ofByte? b = some t ↔ b = t.byte := by
  constructor
  · intro h
    unfold ofByte? at h
    grind [byte]
  · intro h
    subst h
    cases t <;> rfl

end Tag

end ScriptHost

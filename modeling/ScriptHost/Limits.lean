/-!
# ScriptHost.Limits

Bounds on what the codec writes and reads. Every length in untrusted input is held against them
before anything of that length is built.
-/

namespace ScriptHost

structure Limits where
  /-- Most bytes in written output, and in a byte string or integer that is read. -/
  itemSize : UInt64 := 1048576
  /-- Most elements or entries in a container that is read. -/
  arraySize : UInt64 := 1024
deriving DecidableEq, Repr

end ScriptHost

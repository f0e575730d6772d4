import ScriptHost.Engine
import ScriptHost.Text.Quoted

/-!
# ScriptHost.Syscall

Functions of the host that a script can call by name. A handler changes the engine, logs what it
has to say, and tells whether it succeeded; a call that failed ends the script.
-/

namespace ScriptHost

/-- What a handler leaves behind. -/
structure Reply where
  succeeded : Bool
  engine : Engine
  log : List Log.Record := []

abbrev Handler := Engine → Reply

/-- A handler with the name and the price in gas under which it is offered. -/
structure Syscall where
  name : String
  handler : Handler
  price : UInt64

namespace Syscall

/-- Runs the handler without charging gas. -/
def call (c : Syscall) (e : Engine) : Reply := c.handler e

theorem call_eq (c : Syscall) (e : Engine) : c.call e = c.handler e := rfl

/-- Name and price for a programmer's eyes. -/
def described (c : Syscall) : String :=
  "InteropCall \x7b name: " ++ Text.quote c.name ++ ", price: " ++ toString c.price ++ ", .. \x7d"

end Syscall

/-- A failure inside a built-in handler. -/
inductive SyscallError
  | engine (e : EngineError)
  | encode (e : EncodeError)
  | decode (e : DecodeError)
deriving DecidableEq, Repr

def SyscallError.message : SyscallError → String
  | .engine e => e.message
  | .encode e => "serialize failed: " ++ e.message
  | .decode e => "deserialize failed: " ++ e.message

def SyscallError.causes : SyscallError → List String
  | .engine e => e.message :: e.causes
  | .encode e => e.message :: e.causes
  | .decode e => e.message :: e.causes

end ScriptHost

/-!
# ScriptHost.Engine.Error

What can go wrong in the engine around a syscall.
-/

namespace ScriptHost

inductive EngineError
  | stackUnderflow
  | outOfGas (requested remaining : UInt64)
  | notBytes (kind : String)
  | unknownScript (hash : String)
  | noScriptTable
deriving DecidableEq, Repr

def EngineError.message : EngineError → String
  | .stackUnderflow => "evaluation stack underflow"
  | .outOfGas requested remaining =>
    "out of gas: " ++ toString requested ++ " requested, " ++ toString remaining ++ " remaining"
  | .notBytes kind => "expected a primitive stack item, got " ++ kind
  | .unknownScript hash => "unknown script " ++ hash
  | .noScriptTable => "no script table attached"

def EngineError.causes : EngineError → List String
  | _ => []

end ScriptHost

import ScriptHost.Codec.Decode
import ScriptHost.Codec.Encode
import ScriptHost.Engine.Stack
import ScriptHost.Gas
import ScriptHost.ScriptRegistry

/-!
# ScriptHost.Engine

The state that a syscall can see and change: the scripts that are loaded, the operand stack, the
heap, the codec limits and the gas meter. What runs the instructions of a script lies outside.
-/

namespace ScriptHost

/-- A loaded script and its hash. -/
structure Context where
  script : Bytes
  hash : ScriptHash
deriving DecidableEq

def Context.ofScript (script : Bytes) : Context := ⟨script, .ofScript script⟩

structure Engine where
  container : HostRef
  scripts : Option ScriptTable := none
  /-- The loaded scripts, the executing one first and the entry script last. -/
  contexts : List Context := []
  stack : Stack := .empty
  heap : Heap := .empty
  limits : Limits := {}
  gas : GasMeter := .unlimited

namespace Engine

def push (e : Engine) (x : Item) : Engine := { e with stack := e.stack.push x }

def pop (e : Engine) : Except EngineError Item × Engine :=
  match e.stack.pop with
  | (r, stack) => (r, { e with stack := stack })

def charge (e : Engine) (name : String) (amount : UInt64) : Except EngineError Unit × Engine :=
  match e.gas.charge name amount with
  | (r, gas) => (r, { e with gas := gas })

theorem pop_cases {e e' : Engine} {r : Except EngineError Item} (h : e.pop = (r, e')) :
    (r = .error .stackUnderflow ∧ e' = e) ∨
      ∃ x rest, e.stack.items = x :: rest ∧ r = .ok x ∧ e' = { e with stack := ⟨rest⟩ } := by
  simp only [pop, Stack.pop] at h
  split at h
  · cases h
    exact .inl ⟨rfl, rfl⟩
  · rename_i x rest hitems
    cases h
    exact .inr ⟨x, rest, hitems, rfl, rfl⟩

/-! ## Contexts -/

def loadScript (e : Engine) (script : Bytes) : ScriptHash × Engine :=
  let context := Context.ofScript script
  (context.hash, { e with contexts := context :: e.contexts })

/-- Loads the script that the table has for a hash. -/
def loadByHash (e : Engine) (hash : ScriptHash) : Except EngineError Unit × Engine :=
  match e.scripts with
  | none => (.error .noScriptTable, e)
  | some table =>
    match table hash.bytes with
    | none => (.error (.unknownScript hash.shown), e)
    | some script => (.ok (), { e with contexts := ⟨script, hash⟩ :: e.contexts })

/-- Ends the executing script and goes back to its caller. -/
def unload (e : Engine) : Option Context × Engine :=
  (e.contexts.head?, { e with contexts := e.contexts.tail })

def currentContext? (e : Engine) : Option Context := e.contexts.head?

def callingContext? (e : Engine) : Option Context := e.contexts[1]?

def entryContext? (e : Engine) : Option Context := e.contexts.getLast?

def depth (e : Engine) : Nat := e.contexts.length

/-! ## The codec, with the engine's heap and limits -/

def encodeItem (e : Engine) (x : Item) : Except EncodeError Bytes := encode e.heap x e.limits

def decodeItem (e : Engine) (data : Bytes) : Except DecodeError Item × Engine :=
  match decode e.heap data e.limits with
  | (r, heap) => (r, { e with heap := heap })

end Engine

end ScriptHost

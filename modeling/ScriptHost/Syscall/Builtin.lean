import ScriptHost.Syscall

/-!
# ScriptHost.Syscall.Builtin

The syscalls that every host offers. Four tell a script where it runs; they always succeed, and
a script that is not there has the empty byte string for its hash. Two write and read an item:
they take the top of the stack and put the result in its place, or nothing if they fail. None of
them touches the loaded scripts, the limits or the gas (`handler_frame`).
-/

namespace ScriptHost.Builtin

/-- The gas price of each of these syscalls. -/
def price : UInt64 := 1

def getScriptContainerName : String := "System.ExecutionEngine.GetScriptContainer"

def getExecutingScriptHashName : String := "System.ExecutionEngine.GetExecutingScriptHash"

def getCallingScriptHashName : String := "System.ExecutionEngine.GetCallingScriptHash"

def getEntryScriptHashName : String := "System.ExecutionEngine.GetEntryScriptHash"

def serializeName : String := "Neo.Runtime.Serialize"

def deserializeName : String := "Neo.Runtime.Deserialize"

/-! ## Where the script runs -/

def getScriptContainer : Handler := fun e => ⟨true, e.push (.host e.container), []⟩

/-- Pushes the hash of a context, or no bytes without one. -/
def pushHash (context : Option Context) (e : Engine) : Reply :=
  match context with
  | none => ⟨true, e.push (.bytes []), []⟩
  | some c => ⟨true, e.push (.bytes c.hash.bytes), []⟩

def getExecutingScriptHash : Handler := fun e => pushHash e.currentContext? e

def getCallingScriptHash : Handler := fun e => pushHash e.callingContext? e

def getEntryScriptHash : Handler := fun e => pushHash e.entryContext? e

/-! ## Writing and reading items -/

def serializeTop (e : Engine) : Except SyscallError Unit × Engine :=
  match e.pop with
  | (.error err, e') => (.error (.engine err), e')
  | (.ok x, e') =>
    match e'.encodeItem x with
    | .error err => (.error (.encode err), e')
    | .ok b => (.ok (), e'.push (.bytes b))

def deserializeTop (e : Engine) : Except SyscallError Unit × Engine :=
  match e.pop with
  | (.error err, e') => (.error (.engine err), e')
  | (.ok x, e') =>
    match x.byteForm? with
    | none => (.error (.engine (.notBytes x.kindName)), e')
    | some data =>
      match e'.decodeItem data with
      | (.error err, e'') => (.error (.decode err), e'')
      | (.ok y, e'') => (.ok (), e''.push y)

/-- Turns an error into a warning and a refusal. -/
def report (name : String) : Except SyscallError Unit × Engine → Reply
  | (.ok (), e) => ⟨true, e, []⟩
  | (.error err, e) => ⟨false, e, [⟨.warn, name ++ ": " ++ err.message⟩]⟩

theorem engine_report (name : String) (r : Except SyscallError Unit × Engine) :
    (report name r).engine = r.2 := by
  rcases r with ⟨_ | _, _⟩ <;> rfl

def serialize : Handler := fun e => report serializeName (serializeTop e)

def deserialize : Handler := fun e => report deserializeName (deserializeTop e)

def table : List Syscall :=
  [⟨getScriptContainerName, getScriptContainer, price⟩,
    ⟨getExecutingScriptHashName, getExecutingScriptHash, price⟩,
    ⟨getCallingScriptHashName, getCallingScriptHash, price⟩,
    ⟨getEntryScriptHashName, getEntryScriptHash, price⟩,
    ⟨serializeName, serialize, price⟩,
    ⟨deserializeName, deserialize, price⟩]

/-! ## What they leave alone -/

theorem frame_of_pop {e e' : Engine} {r : Except EngineError Item} (h : e.pop = (r, e')) :
    ∃ stack, e' = { e with stack := stack } := by
  rcases Engine.pop_cases h with ⟨_, rfl⟩ | ⟨_, rest, _, _, rfl⟩
  · exact ⟨e'.stack, rfl⟩
  · exact ⟨⟨rest⟩, rfl⟩

theorem serializeTop_frame (e : Engine) :
    ∃ stack, (serializeTop e).2 = { e with stack := stack } := by
  unfold serializeTop
  split
  · rename_i hpop
    exact frame_of_pop hpop
  · rename_i x e' hpop
    obtain ⟨stack, rfl⟩ := frame_of_pop hpop
    split
    · exact ⟨stack, rfl⟩
    · rename_i b _
      exact ⟨stack.push (.bytes b), rfl⟩

theorem deserializeTop_frame (e : Engine) :
    ∃ stack heap, (deserializeTop e).2 = { e with stack := stack, heap := heap } := by
  unfold deserializeTop
  split
  · rename_i hpop
    obtain ⟨stack, rfl⟩ := frame_of_pop hpop
    exact ⟨stack, e.heap, rfl⟩
  · rename_i x e' hpop
    obtain ⟨stack, rfl⟩ := frame_of_pop hpop
    split
    · exact ⟨stack, e.heap, rfl⟩
    · rename_i data _
      simp only [Engine.decodeItem]
      rcases decode e.heap data e.limits with ⟨_ | y, heap⟩
      · exact ⟨stack, heap, rfl⟩
      · exact ⟨stack.push y, heap, rfl⟩

theorem pushHash_frame (context : Option Context) (e : Engine) :
    ∃ stack, (pushHash context e).engine = { e with stack := stack } := by
  cases context with
  | none => exact ⟨_, rfl⟩
  | some c => exact ⟨_, rfl⟩

/-- A built-in syscall changes the stack and the heap, and nothing else. -/
theorem handler_frame {c : Syscall} (hc : c ∈ table) (e : Engine) :
    ∃ stack heap, (c.handler e).engine = { e with stack := stack, heap := heap } := by
  simp only [table, List.mem_cons, List.not_mem_nil, or_false] at hc
  rcases hc with rfl | rfl | rfl | rfl | rfl | rfl
  · exact ⟨_, e.heap, rfl⟩
  · exact (pushHash_frame e.currentContext? e).imp fun stack h => ⟨e.heap, h⟩
  · exact (pushHash_frame e.callingContext? e).imp fun stack h => ⟨e.heap, h⟩
  · exact (pushHash_frame e.entryContext? e).imp fun stack h => ⟨e.heap, h⟩
  · simp only [serialize, engine_report]
    exact (serializeTop_frame e).imp fun stack h => ⟨e.heap, h⟩
  · simp only [deserialize, engine_report]
    exact deserializeTop_frame e

end ScriptHost.Builtin

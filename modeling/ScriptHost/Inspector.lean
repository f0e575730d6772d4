import ScriptHost.Heap.Tree
import ScriptHost.Syscall.Registry
import ScriptHost.Text.Decimal

/-!
# ScriptHost.Inspector

The command line that shows what a written item holds. The arguments are checked from left to
right, then the hexadecimal text, then the encoding; the first fault found is the one reported,
and then nothing is printed. What is printed and what is logged are values here, `run` being an
ordinary function of the arguments.
-/

namespace ScriptHost.Inspector

structure Outcome where
  code : UInt8
  printed : String := ""
  log : List Log.Record := []
deriving DecidableEq, Repr

def usage (program : String) : String :=
  "Stack Item Inspector\n" ++
  "\n" ++
  "USAGE:\n" ++
  "    " ++ program ++ " <hex> [OPTIONS]\n" ++
  "    " ++ program ++ " --encode-example\n" ++
  "    " ++ program ++ " --list-syscalls\n" ++
  "\n" ++
  "ARGS:\n" ++
  "    <hex>    Serialized stack item (optional 0x prefix)\n" ++
  "\n" ++
  "OPTIONS:\n" ++
  "    --max-item-size <bytes>    Largest byte array accepted (defaults to 1048576)\n" ++
  "    --max-array-size <count>   Largest container accepted (defaults to 1024)\n" ++
  "    --encode-example           Print the encoding of Array[1, [0xAB], Map\x7btrue: -1\x7d]\n" ++
  "    --list-syscalls            Print the built-in syscalls and their prices\n" ++
  "    -h, --help                 Print this help message\n" ++
  "\n" ++
  "EXAMPLES:\n" ++
  "    # Decode a serialized array\n" ++
  "    " ++ program ++ " 80030201010001ab820101010201ff\n" ++
  "\n" ++
  "    # Decode with a tighter size limit\n" ++
  "    " ++ program ++ " 0x0001ab --max-item-size 16\n"

def usageRecord (program : String) : Log.Record := ⟨.info, usage program⟩

def failure (message : String) : Outcome := { code := 1, log := [⟨.error, message⟩] }

/-! ## The example -/

/-- An array of a number, a byte string and a map. -/
def example? : Except HeapError Item × Heap :=
  match Heap.empty.newMap with
  | (.error e, heap) => (.error e, heap)
  | (.ok (.map h), heap) =>
    match heap.mapInsert h (.boolean true) (.integer (-1)) with
    | (.error e, heap) => (.error e, heap)
    | (.ok _, heap) => heap.newArray [.integer 1, .bytes [0xAB], .map h]
  | (.ok x, heap) => heap.newArray [.integer 1, .bytes [0xAB], x]

def encodeExample : Outcome :=
  match example? with
  | (.error e, _) => failure e.message
  | (.ok x, heap) =>
    match encode heap x {} with
    | .error e => failure ("Encoding failed: " ++ e.message)
    | .ok b => { code := 0, printed := Text.Hex.encode b ++ "\n" }

/-! ## The list of syscalls -/

def listSyscalls : Outcome :=
  let (registry, log) := Registry.builtin
  let width := (registry.names.map String.utf8ByteSize).foldl max 0
  let row (name : String) :=
    Text.padRight width name ++ " " ++
      Text.padLeft 6 (toString ((registry.price? name).getD 0)) ++ "\n"
  { code := 0, printed := String.join (registry.names.map row), log := log }

/-! ## Showing an item -/

def options (program : String) (limits : Limits) : List String → Except (List Log.Record) Limits
  | [] => .ok limits
  | "--max-item-size" :: rest =>
    match rest with
    | [] => .error [⟨.error, "--max-item-size requires an argument"⟩]
    | value :: rest =>
      match Text.Decimal.word? value with
      | none => .error [invalidValue "--max-item-size" value]
      | some n => options program { limits with itemSize := n } rest
  | "--max-array-size" :: rest =>
    match rest with
    | [] => .error [⟨.error, "--max-array-size requires an argument"⟩]
    | value :: rest =>
      match Text.Decimal.word? value with
      | none => .error [invalidValue "--max-array-size" value]
      | some n => options program { limits with arraySize := n } rest
  | other :: _ =>
    .error [⟨.error, "Unexpected argument: " ++ other ++ "\n"⟩, usageRecord program]
where
  invalidValue (flag value : String) : Log.Record :=
    ⟨.error, "Invalid value for " ++ flag ++ ": '" ++ value ++ "' is not a valid number"⟩

/-- Shows the item that a hexadecimal text encodes. -/
def show? (text : String) (limits : Limits) : Except String String :=
  match Text.Hex.decode (Address.stripMark text) with
  | .error e => .error ("Invalid hex input: " ++ e.message)
  | .ok data =>
    match decode .empty data limits with
    | (.error e, _) => .error ("Decoding failed: " ++ e.message)
    | (.ok x, heap) =>
      match heap.tree x with
      | .error e => .error e.message
      | .ok tree => .ok tree

/-- A run on the arguments that follow the program's name. -/
def run (program : String) : List String → Outcome
  | [] => { code := 1, log := [usageRecord program] }
  | first :: rest =>
    if first = "--help" ∨ first = "-h" then { code := 0, log := [usageRecord program] }
    else if first = "--encode-example" then encodeExample
    else if first = "--list-syscalls" then listSyscalls
    else
      match options program {} rest with
      | .error log => { code := 1, log := log }
      | .ok limits =>
        match show? first limits with
        | .error message => failure message
        | .ok tree => { code := 0, printed := tree }

end ScriptHost.Inspector

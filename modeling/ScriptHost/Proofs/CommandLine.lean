import ScriptHost.Inspector
import ScriptHost.Proofs.Drawing
import ScriptHost.Proofs.HexAddress

/-!
# ScriptHost.Proofs.CommandLine

The command line of the inspector. The words behind the first are read in pairs, and each pair sets
a limit (`options_words`); so they are in order if they are the words of a list of settings, and the
last setting of a limit counts (`foldl_set`). Else there is a first word at which they go wrong
(`exists_words_append`). A run shows the item (`run_of_decode`) or reports the first fault
(`run_of_fault`), and nothing besides.
-/

namespace ScriptHost.Inspector

open Text

/-! ## Settings -/

/-- An option that sets a limit. -/
inductive Flag
  | itemSize
  | arraySize
deriving DecidableEq

def Flag.text : Flag → String
  | itemSize => "--max-item-size"
  | arraySize => "--max-array-size"

def Flag.set (limits : Limits) (number : UInt64) : Flag → Limits
  | itemSize => { limits with itemSize := number }
  | arraySize => { limits with arraySize := number }

/-- A limit as it is set by two words, the option and a number. -/
structure Setting where
  flag : Flag
  value : String
  number : UInt64
  numeral : Decimal.Numeral value number

def words (settings : List Setting) : List String :=
  settings.flatMap fun s => [s.flag.text, s.value]

/-- The number that an option is given last. -/
def lastNumber? (flag : Flag) (settings : List Setting) : Option UInt64 :=
  (settings.filter fun s => s.flag = flag).getLast?.map Setting.number

/-- The usual limits, except those that are set. -/
def limitsOf (settings : List Setting) : Limits where
  itemSize := (lastNumber? .itemSize settings).getD ({} : Limits).itemSize
  arraySize := (lastNumber? .arraySize settings).getD ({} : Limits).arraySize

variable {program first : String} {rest : List String} {limits : Limits}

theorem options_flag (flag : Flag) (value : String) :
    options program limits (flag.text :: value :: rest) =
      match Decimal.word? value with
      | none => .error [options.invalidValue flag.text value]
      | some n => options program (flag.set limits n) rest := by
  cases flag <;> rw [Flag.text, options] <;> rfl

theorem options_words (settings : List Setting) :
    options program limits (words settings ++ rest) =
      options program (settings.foldl (fun limits s => s.flag.set limits s.number) limits) rest := by
  induction settings generalizing limits with
  | nil => rfl
  | cons s settings ih =>
    have hword : Decimal.word? s.value = some s.number := Decimal.word?_eq_some_iff.mpr s.numeral
    have hwords : words (s :: settings) ++ rest =
        s.flag.text :: s.value :: (words settings ++ rest) := rfl
    rw [hwords, options_flag, hword]
    exact ih

theorem lastNumber?_concat (flag : Flag) (settings : List Setting) (s : Setting) :
    lastNumber? flag (settings ++ [s]) =
      if s.flag = flag then some s.number else lastNumber? flag settings := by
  by_cases h : s.flag = flag <;> simp [lastNumber?, h]

theorem foldl_set (settings : List Setting) :
    settings.foldl (fun limits s => s.flag.set limits s.number) {} = limitsOf settings := by
  induction settings using List.reverseRecOn with
  | nil => rfl
  | append_singleton settings s ih =>
    rw [List.foldl_append, ih, List.foldl_cons, List.foldl_nil]
    cases hflag : s.flag <;> simp [Flag.set, limitsOf, lastNumber?_concat, hflag]

/-! ## The text -/

/-- The text is hexadecimal for the data, two digits of either case to a byte, behind at most one
mark. -/
def Spells (text : String) (data : Bytes) : Prop :=
  ∃ digits, (text = "0x" ++ digits ∨ text = digits ∧ ∀ more, text ≠ "0x" ++ more) ∧
    digits.length = 2 * data.length ∧ (∀ c ∈ digits.toList, Hex.IsDigit c) ∧
    digits.toLower = Hex.encode data

theorem spells_iff {data : Bytes} :
    Spells first data ↔ Hex.decode (Address.stripMark first) = .ok data := by
  constructor
  · rintro ⟨digits, hmark, -, -, hlower⟩
    have hdigits : Address.stripMark first = digits := by
      rcases hmark with rfl | ⟨rfl, hnone⟩
      · exact Address.stripMark_mark digits
      · rcases Address.stripMark_cases first with hmark | ⟨hsame, -⟩
        · exact absurd hmark (hnone _)
        · exact hsame
    rw [hdigits, Hex.decode_eq_ok_iff, hlower]
  · intro h
    obtain ⟨hlen, hall⟩ := Hex.exists_decode_iff.mp ⟨data, rfl, h⟩
    refine ⟨Address.stripMark first, ?_, hlen, hall, Hex.decode_eq_ok_iff.mp h⟩
    exact (Address.stripMark_cases first).imp_right fun ⟨hsame, hnone⟩ => ⟨hsame.symm, hnone⟩

theorem Spells.length_le {data : Bytes} (h : Spells first data) :
    data.length ≤ first.length := by
  obtain ⟨digits, hmark, hlen, -, -⟩ := h
  rcases hmark with rfl | ⟨rfl, -⟩
  · rw [String.length_append]
    omega
  · omega

/-! ## Faults -/

/-- What can be wrong with a command line. -/
inductive Fault
  | missing (flag : Flag)
  | invalid (flag : Flag) (value : String)
  | unexpected (word : String)
  | hex (fault : Hex.Fault)
  | decoding (e : DecodeError)

def Fault.message : Fault → String
  | missing flag => flag.text ++ " requires an argument"
  | invalid flag value =>
    "Invalid value for " ++ flag.text ++ ": '" ++ value ++ "' is not a valid number"
  | unexpected word => "Unexpected argument: " ++ word ++ "\n"
  | hex fault => "Invalid hex input: " ++ fault.message
  | decoding e => "Decoding failed: " ++ e.message

/-- What is logged. A word that is no option is answered with the usage too. -/
def Fault.log (program : String) (fault : Fault) : List Log.Record :=
  ⟨.error, fault.message⟩ ::
    match fault with
    | unexpected _ => [usageRecord program]
    | _ => []

/-- The first of these words is at fault, or the one behind it that it asks for. -/
inductive WrongWords : List String → Fault → Prop
  | missing (flag : Flag) : WrongWords [flag.text] (.missing flag)
  | invalid (flag : Flag) {value : String} (rest : List String) :
      (∀ n, ¬Decimal.Numeral value n) →
      WrongWords (flag.text :: value :: rest) (.invalid flag value)
  | unexpected {word : String} (rest : List String) :
      (∀ flag : Flag, word ≠ flag.text) → WrongWords (word :: rest) (.unexpected word)

/-- The first fault of a command line. The words in front of it are settings; the text is looked at
if all words are, and the encoding if the text is hexadecimal besides. -/
inductive FirstFault (first : String) : List String → Fault → Prop
  | wrong (settings : List Setting) {rest : List String} {fault : Fault} :
      WrongWords rest fault → FirstFault first (words settings ++ rest) fault
  | hex (settings : List Setting) {fault : Hex.Fault} :
      Hex.decode (Address.stripMark first) = .error fault →
      FirstFault first (words settings) (.hex fault)
  | decoding (settings : List Setting) {data : Bytes} {e : DecodeError} {heap : Heap} :
      Spells first data →
      decode .empty data (limitsOf settings) = (.error e, heap) →
      FirstFault first (words settings) (.decoding e)

/-- Words are settings up to where they go wrong. -/
theorem exists_words_append : (rest : List String) →
    ∃ settings wrong, rest = words settings ++ wrong ∧
      (wrong = [] ∨ ∃ fault, WrongWords wrong fault)
  | [] => ⟨[], [], rfl, .inl rfl⟩
  | word :: rest => by
    by_cases hflag : ∃ flag : Flag, word = flag.text
    · obtain ⟨flag, rfl⟩ := hflag
      match rest with
      | [] => exact ⟨[], _, rfl, .inr ⟨_, .missing flag⟩⟩
      | value :: rest =>
        by_cases hnumeral : ∃ n, Decimal.Numeral value n
        · obtain ⟨n, hn⟩ := hnumeral
          obtain ⟨settings, wrong, rfl, hwrong⟩ := exists_words_append rest
          exact ⟨⟨flag, value, n, hn⟩ :: settings, wrong, rfl, hwrong⟩
        · exact ⟨[], _, rfl, .inr ⟨_, .invalid flag rest (not_exists.mp hnumeral)⟩⟩
    · exact ⟨[], _, rfl, .inr ⟨_, .unexpected rest (not_exists.mp hflag)⟩⟩

theorem options_of_wrongWords {fault : Fault} (h : WrongWords rest fault) :
    options program limits rest = .error (fault.log program) := by
  cases h with
  | missing flag => cases flag <;> rw [Flag.text, options] <;> rfl
  | @invalid flag value rest hvalue =>
    have hword : Decimal.word? value = none := by
      cases hword : Decimal.word? value with
      | none => rfl
      | some n => exact absurd (Decimal.word?_eq_some_iff.mp hword) (hvalue n)
    rw [options_flag, hword]
    rfl
  | unexpected rest hword =>
    rw [options]
    · rfl
    · exact hword .itemSize
    · exact hword .arraySize

/-! ## A run -/

/-- The words that ask for something else than showing an item. -/
def otherModes : List String := ["--help", "-h", "--encode-example", "--list-syscalls"]

theorem run_eq (hfirst : first ∉ otherModes) :
    run program (first :: rest) =
      match options program {} rest with
      | .error log => { code := 1, log := log }
      | .ok limits =>
        match show? first limits with
        | .error message => failure message
        | .ok tree => { code := 0, printed := tree } := by
  simp only [otherModes, List.mem_cons, List.not_mem_nil, or_false, not_or] at hfirst
  obtain ⟨hhelp, hh, hexample, hlist⟩ := hfirst
  exact (if_neg (not_or.mpr ⟨hhelp, hh⟩)).trans ((if_neg hexample).trans (if_neg hlist))

theorem run_settings (hfirst : first ∉ otherModes) (settings : List Setting) :
    run program (first :: words settings) =
      match show? first (limitsOf settings) with
      | .error message => failure message
      | .ok tree => { code := 0, printed := tree } := by
  have hoptions : options program {} (words settings) = .ok (limitsOf settings) := by
    rw [← List.append_nil (words settings), options_words, foldl_set, options]
  rw [run_eq hfirst, hoptions]

theorem run_of_fault {fault : Fault} (hfirst : first ∉ otherModes)
    (h : FirstFault first rest fault) :
    run program (first :: rest) = { code := 1, log := fault.log program } := by
  cases h with
  | wrong settings hwrong => rw [run_eq hfirst, options_words, options_of_wrongWords hwrong]
  | hex settings hhex =>
    rw [run_settings hfirst, show?, hhex]
    rfl
  | decoding settings hspells hdecode =>
    rw [run_settings hfirst, show?, spells_iff.mp hspells]
    simp only [hdecode]
    rfl

/-- A fault is shown at any level at which something is shown, as the one error. -/
theorem errors_shown (fault : Fault) (lowest : Log.Level) :
    ((Log.shown (some lowest) (fault.log program)).filter fun r => r.level = .error) =
      [⟨.error, fault.message⟩] := by
  have herror : Log.Filter.shows (some lowest) .error = true := by cases lowest <;> rfl
  cases fault <;> simp [Log.shown, Fault.log, usageRecord, herror, List.filter_cons]

theorem run_of_decode {data : Bytes} {x : Item} {heap : Heap} (hfirst : first ∉ otherModes)
    (hsize : first.length < UInt64.size) (settings : List Setting) (hspells : Spells first data)
    (hdecode : decode .empty data (limitsOf settings) = (.ok x, heap)) :
    ∃ tree, heap.tree x = .ok tree ∧
      run program (first :: words settings) = { code := 0, printed := tree } := by
  have hdata : data.length < UInt64.size := Nat.lt_of_le_of_lt hspells.length_le hsize
  have hground := Heap.grounded_of_decode hdata hdecode
  obtain ⟨f, hf⟩ := Heap.exists_depicts hground none
  have htree := Heap.tree_eq_text hground hf
  refine ⟨f.text, htree, ?_⟩
  rw [run_settings hfirst, show?, spells_iff.mp hspells]
  simp only [hdecode, htree]

/-- An item is shown, or there is a fault. -/
theorem exists_decode_or_fault (first : String) (rest : List String) :
    (∃ settings data x heap, rest = words settings ∧ Spells first data ∧
      decode .empty data (limitsOf settings) = (.ok x, heap)) ∨
    ∃ fault, FirstFault first rest fault := by
  obtain ⟨settings, wrong, rfl, rfl | ⟨fault, hwrong⟩⟩ := exists_words_append rest
  · rw [List.append_nil]
    cases hhex : Hex.decode (Address.stripMark first) with
    | error fault => exact .inr ⟨_, .hex settings hhex⟩
    | ok data =>
      cases hdecode : decode .empty data (limitsOf settings) with
      | mk result heap =>
        cases result with
        | error e => exact .inr ⟨_, .decoding settings (spells_iff.mpr hhex) hdecode⟩
        | ok x => exact .inl ⟨settings, data, x, heap, rfl, spells_iff.mpr hhex, hdecode⟩
  · exact .inr ⟨fault, .wrong settings hwrong⟩

/-- A run that is not for something else succeeds exactly if the words behind the first set limits,
and the first is hexadecimal for an item within those limits; then the tree of the item is printed.
Else nothing is printed, and the error that is logged, unless nothing is, is the first fault. -/
theorem run_shows_or_reports (program first : String) (rest : List String)
    (hfirst : first ∉ otherModes) (hsize : first.length < UInt64.size) :
    ((run program (first :: rest)).code = 0 ↔
      ∃ settings data x heap, rest = words settings ∧ Spells first data ∧
        decode .empty data (limitsOf settings) = (.ok x, heap)) ∧
    (∀ settings data x heap, rest = words settings → Spells first data →
      decode .empty data (limitsOf settings) = (.ok x, heap) →
      ∃ tree, heap.tree x = .ok tree ∧
        run program (first :: rest) = { code := 0, printed := tree, log := [] }) ∧
    ((run program (first :: rest)).code ≠ 0 → ∃ fault, FirstFault first rest fault) ∧
    ∀ fault, FirstFault first rest fault →
      (run program (first :: rest)).code = 1 ∧ (run program (first :: rest)).printed = "" ∧
      Log.shown none (run program (first :: rest)).log = [] ∧
      ∀ lowest, ((Log.shown (some lowest) (run program (first :: rest)).log).filter
        fun r => r.level = .error) = [⟨.error, fault.message⟩] := by
  refine ⟨⟨?_, ?_⟩, ?_, ?_, ?_⟩
  · intro hcode
    rcases exists_decode_or_fault first rest with hdecode | ⟨fault, hfault⟩
    · exact hdecode
    · rw [run_of_fault hfirst hfault] at hcode
      cases hcode
  · rintro ⟨settings, data, x, heap, rfl, hspells, hdecode⟩
    obtain ⟨tree, -, hrun⟩ := run_of_decode hfirst hsize settings hspells hdecode
    rw [hrun]
  · rintro settings data x heap rfl hspells hdecode
    exact run_of_decode hfirst hsize settings hspells hdecode
  · intro hcode
    rcases exists_decode_or_fault first rest with ⟨settings, data, x, heap, rfl, hspells, hdecode⟩ |
      hfault
    · obtain ⟨tree, -, hrun⟩ := run_of_decode hfirst hsize settings hspells hdecode
      rw [hrun] at hcode
      exact absurd rfl hcode
    · exact hfault
  · intro fault hfault
    rw [run_of_fault hfirst hfault]
    refine ⟨rfl, rfl, ?_, errors_shown fault⟩
    simp [Log.shown, Log.Filter.shows]

/-- A limit that is too small, and then one that is large enough. -/
def twoLimits : List Setting :=
  [⟨.itemSize, "0", 0, Decimal.word?_eq_some_iff.mp rfl⟩,
    ⟨.itemSize, "+016", 16, Decimal.word?_eq_some_iff.mp rfl⟩]

theorem run_shows_or_reports_twoLimits :
    run "vmvalue" ["0x0001AB", "--max-item-size", "0", "--max-item-size", "+016"] =
        { code := 0, printed := "ByteArray 0xab\n" } ∧
      (Log.shown (some .warn) (run "vmvalue"
        ["0x0001A", "--max-item-size", "0", "here", "--max-array-size"]).log).filter
          (fun r => r.level = .error) = [⟨.error, "Unexpected argument: here\n"⟩] := by
  have hspells : Spells "0x0001AB" [0x00, 0x01, 0xab] := spells_iff.mpr (by decide +kernel)
  have hdecode : decode .empty [0x00, 0x01, 0xab] (limitsOf twoLimits) =
      (.ok (.bytes [0xab]), .empty) := by
    decide +kernel
  have hfault : FirstFault "0x0001A" ["--max-item-size", "0", "here", "--max-array-size"]
      (.unexpected "here") :=
    .wrong (twoLimits.take 1) (.unexpected _ fun flag => by cases flag <;> decide)
  obtain ⟨-, hshows, -, -⟩ := run_shows_or_reports "vmvalue" "0x0001AB" (words twoLimits)
    (by decide) (by decide)
  obtain ⟨-, -, -, hreports⟩ := run_shows_or_reports "vmvalue" "0x0001A"
    ["--max-item-size", "0", "here", "--max-array-size"] (by decide) (by decide)
  obtain ⟨tree, htree, hrun⟩ := hshows twoLimits _ _ _ rfl hspells hdecode
  obtain ⟨-, -, -, herrors⟩ := hreports _ hfault
  refine ⟨?_, herrors .warn⟩
  have hprinted : Heap.empty.tree (.bytes [0xab]) = .ok "ByteArray 0xab\n" := by
    decide +kernel
  cases hprinted.symm.trans htree
  exact hrun

end ScriptHost.Inspector

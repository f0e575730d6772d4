import ScriptHost.Proofs.ClosedRuns
import ScriptHost.Proofs.Dispatch
import ScriptHost.Proofs.Registrations

/-!
# ScriptHost.Proofs.CallingContexts

Which script runs, which has called it and which was first. The answers come from the history of
loads and unloadings alone: an unloading ends the latest load that has not ended, and what is left
is what the engine holds (`unended_eq_drop`, `Engine.Offers.performAll`). A load by hash is part of
that history if the hash was registered; otherwise it fails and nothing happens. The syscalls that
ask for a hash read the last, the last but one and the first of the loads that are left.
-/

namespace ScriptHost

/-- What can happen to the loaded scripts. -/
inductive ContextChange
  | load (c : Context)
  | unload
deriving DecidableEq

namespace ContextChange

variable {c : Context} {changes : List ContextChange}

def apply : ContextChange → List Context → List Context
  | load c, contexts => c :: contexts
  | unload, contexts => contexts.tail

/-- The loads that have not ended, the latest first. The changes are read from the latest one
back, and so many unloadings that were read have not met their load yet. -/
def unended : Nat → List ContextChange → List Context
  | _, [] => []
  | pending, unload :: earlier => unended (pending + 1) earlier
  | 0, load c :: earlier => c :: unended 0 earlier
  | pending + 1, load _ :: earlier => unended pending earlier

/-- The loads that have not ended, in the order of loading. -/
def live (changes : List ContextChange) : List Context := (unended 0 changes.reverse).reverse

theorem unended_eq_drop (pending : Nat) (earlier : List ContextChange) :
    unended pending earlier = (earlier.foldr apply []).drop pending := by
  -- Each unloading that waits for its load takes one context off the top.
  induction earlier generalizing pending with
  | nil => simp [unended]
  | cons change earlier ih =>
    cases change with
    | unload => rw [unended, ih, List.foldr_cons, apply, List.drop_tail]
    | load c =>
      cases pending with
      | zero => rw [unended, ih]; rfl
      | succ pending => rw [unended, ih]; rfl

theorem foldl_apply (changes : List ContextChange) :
    changes.foldl (fun contexts change => change.apply contexts) [] = (live changes).reverse := by
  rw [live, List.reverse_reverse, unended_eq_drop, List.drop_zero, List.foldr_reverse]

theorem load_mem_of_mem_unended {pending : Nat} (h : c ∈ unended pending changes) :
    load c ∈ changes := by
  induction changes generalizing pending with
  | nil => simp [unended] at h
  | cons change earlier ih =>
    cases change with
    | unload => exact List.mem_cons_of_mem _ (ih h)
    | load d =>
      cases pending with
      | zero =>
        rcases List.mem_cons.mp h with rfl | h
        · exact List.mem_cons_self
        · exact List.mem_cons_of_mem _ (ih h)
      | succ pending => exact List.mem_cons_of_mem _ (ih h)

theorem load_mem_of_mem_live (h : c ∈ live changes) : load c ∈ changes :=
  List.mem_reverse.mp (load_mem_of_mem_unended (List.mem_reverse.mp h))

end ContextChange

variable {script? : ScriptHash → Option Bytes}

namespace Operation

/-- What an operation does to the loaded scripts, with the script there is for each hash. -/
def change? (script? : ScriptHash → Option Bytes) : Operation → Option ContextChange
  | loadScript script => some (.load (.ofScript script))
  | loadByHash hash => (script? hash).map fun script => .load ⟨script, hash⟩
  | unload => some .unload
  | call _ | pop | push _ | heap _ => none

/-- Loaded scripts have their own hash if those that are there for a hash have it. -/
theorem hash_of_change? (hown : ∀ hash script, script? hash = some script → hash = .ofScript script)
    {op : Operation} {c : Context} (h : op.change? script? = some (.load c)) :
    c.hash = .ofScript c.script := by
  cases op with
  | loadScript script =>
    cases h
    rfl
  | loadByHash hash =>
    obtain ⟨script, hscript, hload⟩ := Option.map_eq_some_iff.mp h
    cases hload
    exact hown hash script hscript
  | unload => cases h
  | call _ | pop | push _ | heap _ => cases h

end Operation

namespace Engine

variable {e : Engine} {hash : ScriptHash} {script : Bytes} {name : String}

/-- The engine after the operations are done one after the other. -/
def performAll (e : Engine) (ops : List Operation) : Engine := ops.foldl perform e

theorem performAll_cons (e : Engine) (op : Operation) (ops : List Operation) :
    e.performAll (op :: ops) = (e.perform op).performAll ops := rfl

/-- These are the scripts that the engine can load by their hash. -/
def Offers (e : Engine) (script? : ScriptHash → Option Bytes) : Prop :=
  ∃ table, e.scripts = some table ∧ ∀ hash : ScriptHash, table hash.bytes = script? hash

/-- A call of this name is paid for and pushes the hash of the context, or no bytes without one;
nothing else happens to the engine. -/
def Answers (e : Engine) (name : String) (context : Option Context) : Prop :=
  ∃ meter, e.charge name Builtin.price = (.ok (), { e with gas := meter }) ∧
    Registry.builtin.1.invoke name e =
      ⟨true, { e with
        gas := meter
        stack := e.stack.push (.bytes ((context.map (·.hash.bytes)).getD [])) }, []⟩

/-! ## One operation -/

theorem loadByHash_of_some (h : e.Offers script?) (hscript : script? hash = some script) :
    e.loadByHash hash = (.ok (), { e with contexts := ⟨script, hash⟩ :: e.contexts }) := by
  obtain ⟨table, htable, hfound⟩ := h
  simp only [loadByHash, htable, hfound, hscript]

theorem loadByHash_of_none (h : e.Offers script?) (hscript : script? hash = none) :
    e.loadByHash hash = (.error (.unknownScript hash.shown), e) := by
  obtain ⟨table, htable, hfound⟩ := h
  simp only [loadByHash, htable, hfound, hscript]

theorem invoke_frame (e : Engine) (name : String) :
    ∃ stack heap gas, (Registry.builtin.1.invoke name e).engine =
      { e with stack := stack, heap := heap, gas := gas } := by
  cases hfind : Registry.builtin.1.find? name with
  | none => exact ⟨e.stack, e.heap, e.gas, (Registry.invoke_unknown hfind).2⟩
  | some c =>
    by_cases hprice : e.gas.remaining < c.price
    · exact ⟨e.stack, e.heap, e.gas, (Registry.invoke_unpaid hfind hprice).2⟩
    · obtain ⟨meter, hcharge⟩ := GasMeter.exists_charge (UInt64.not_lt.mp hprice) name
      obtain ⟨stack, heap, hreply⟩ := Builtin.handler_frame (Registry.find?_builtin_iff.mp hfind).1
        { e with gas := meter }
      rw [(Registry.invoke_paid hfind hcharge).2, hreply]
      exact ⟨stack, heap, meter, rfl⟩

/-- An operation leaves the scripts that are offered, and changes those that are loaded as its
place in the history says. -/
theorem Offers.perform (h : e.Offers script?) (op : Operation) :
    (e.perform op).Offers script? ∧
      (e.perform op).contexts =
        ((op.change? script?).map (·.apply e.contexts)).getD e.contexts := by
  cases op with
  | call name =>
    obtain ⟨stack, heap, gas, hcall⟩ := invoke_frame e name
    rw [Engine.perform, hcall]
    exact ⟨h, rfl⟩
  | loadByHash hash =>
    rw [Engine.perform, Operation.change?]
    cases hscript : script? hash with
    | none =>
      rw [loadByHash_of_none h hscript]
      exact ⟨h, rfl⟩
    | some script =>
      rw [loadByHash_of_some h hscript]
      exact ⟨h, rfl⟩
  | pop | push _ | loadScript _ | unload | heap _ => exact ⟨h, rfl⟩

theorem answers (handler : Handler) {context : Option Context}
    (hmem : ⟨name, handler, Builtin.price⟩ ∈ Builtin.table)
    (hhandler : ∀ meter, handler { e with gas := meter } =
      Builtin.pushHash context { e with gas := meter })
    (hgas : Builtin.price ≤ e.gas.remaining) : e.Answers name context := by
  obtain ⟨meter, hcharge⟩ := GasMeter.exists_charge hgas name
  obtain ⟨hpay, hinvoke⟩ :=
    Registry.invoke_paid (Registry.find?_builtin_iff.mpr ⟨hmem, rfl⟩) hcharge
  refine ⟨meter, hpay, ?_⟩
  rw [hinvoke]
  refine (hhandler _).trans ?_
  cases context with
  | none => rfl
  | some c => rfl

/-! ## Runs -/

theorem Offers.performAll (h : e.Offers script?) (ops : List Operation) :
    (e.performAll ops).Offers script? ∧
      (e.performAll ops).contexts = (ops.filterMap (·.change? script?)).foldl
        (fun contexts change => change.apply contexts) e.contexts := by
  induction ops generalizing e with
  | nil => exact ⟨h, rfl⟩
  | cons op ops ih =>
    obtain ⟨hoffers, hcontexts⟩ := h.perform op
    obtain ⟨hoffers', hcontexts'⟩ := ih hoffers
    refine ⟨hoffers', ?_⟩
    rw [performAll_cons, hcontexts', hcontexts]
    cases hchange : op.change? script? <;> simp [hchange]

/-- After any registrations, under any codec for addresses, and any operations on an engine that
starts without a loaded script and finds the registered ones: the engine holds the loads that have
not ended, in their order. A load by a hash that is registered succeeds with the script for it; by
another it fails, names the hash, and leaves the engine as it is. With gas for a call, the hashes
of the executing, the calling and the entry script are those of the last, the last but one and the
first of these loads. And if what is registered is registered under its own hash, each loaded
script has its own hash. -/
theorem contexts_followHistory (codec : AddressCodec) (asked : List Registration) (start : Engine)
    (ops : List Operation) :
    let fresh : ScriptRegistry := { codec := codec }
    let stored := fresh.added asked
    let e := performAll
      { start with scripts := some (fresh.addAll asked).table, contexts := [] } ops
    let live := ContextChange.live (ops.filterMap (·.change? (fresh.firstScript? asked)))
    e.contexts.reverse = live ∧
    (∀ hash script, (hash, script) ∈ stored →
      e.loadByHash hash = (.ok (), { e with contexts := ⟨script, hash⟩ :: e.contexts })) ∧
    (∀ hash, hash ∉ stored.map (·.1) →
      e.loadByHash hash = (.error (.unknownScript hash.shown), e)) ∧
    (Builtin.price ≤ e.gas.remaining →
      e.Answers Builtin.getExecutingScriptHashName live.getLast? ∧
      e.Answers Builtin.getCallingScriptHashName live.dropLast.getLast? ∧
      e.Answers Builtin.getEntryScriptHashName live.head?) ∧
    ((∀ hash script, (hash, script) ∈ stored → hash = .ofScript script) →
      ∀ c ∈ e.contexts, c.hash = .ofScript c.script) := by
  intro fresh stored e live
  have hfresh : fresh.Stores [] := ScriptRegistry.stores_empty codec
  have hstored : ∀ hash script,
      (hash, script) ∈ stored ↔ fresh.firstScript? asked hash = some script := by
    intro hash script
    rw [hfresh.mem_added_iff]
    simp
  have hstart : Offers { start with scripts := some (fresh.addAll asked).table, contexts := [] }
      (fresh.firstScript? asked) := ⟨_, rfl, hfresh.table_addAll asked⟩
  obtain ⟨hoffers, hcontexts⟩ := hstart.performAll ops
  replace hcontexts : e.contexts = live.reverse :=
    hcontexts.trans (ContextChange.foldl_apply _)
  refine ⟨?_, ?_, ?_, ?_, ?_⟩
  · rw [hcontexts, List.reverse_reverse]
  · intro hash script hmem
    exact loadByHash_of_some hoffers ((hstored hash script).mp hmem)
  · intro hash hmem
    apply loadByHash_of_none hoffers
    cases hscript : fresh.firstScript? asked hash with
    | none => rfl
    | some script =>
      exact absurd (List.mem_map_of_mem ((hstored hash script).mpr hscript)) hmem
  · intro hgas
    have hlast : e.currentContext? = live.getLast? := by
      rw [currentContext?, hcontexts, List.head?_reverse]
    have hcaller : e.callingContext? = live.dropLast.getLast? := by
      rw [callingContext?, hcontexts, ← List.head?_reverse, ← List.tail_reverse, List.head?_tail]
    have hfirst : e.entryContext? = live.head? := by
      rw [entryContext?, hcontexts, List.getLast?_reverse]
    rw [← hlast, ← hcaller, ← hfirst]
    refine ⟨answers Builtin.getExecutingScriptHash ?_ (fun _ => rfl) hgas,
      answers Builtin.getCallingScriptHash ?_ (fun _ => rfl) hgas,
      answers Builtin.getEntryScriptHash ?_ (fun _ => rfl) hgas⟩ <;> simp [Builtin.table]
  · intro hown c hmem
    rw [hcontexts, List.mem_reverse] at hmem
    obtain ⟨op, _, hload⟩ := List.mem_filterMap.mp (ContextChange.load_mem_of_mem_live hmem)
    refine Operation.hash_of_change? ?_ hload
    intro hash script hscript
    exact hown hash script ((hstored hash script).mpr hscript)

/-- A script under its own hash. -/
def oneScript : List Registration := [⟨.hash (.ofScript [0x40]), [0x40]⟩]

/-- The entry script has loaded the registered one, and that has loaded a script that has ended.
The first unloading finds nothing to end. -/
def calledByHash : List Operation :=
  [.unload, .loadScript [0x11], .loadByHash (.ofScript [0x40]), .loadScript [0x12], .unload]

theorem contexts_followHistory_calledByHash :
    let r := ({} : ScriptRegistry).addAll oneScript
    let e := performAll { container := ⟨0⟩, scripts := some r.table } calledByHash
    e.contexts = [.ofScript [0x40], .ofScript [0x11]] ∧
      e.Answers Builtin.getExecutingScriptHashName (some (.ofScript [0x40])) ∧
      e.Answers Builtin.getCallingScriptHashName (some (.ofScript [0x11])) ∧
      e.Answers Builtin.getEntryScriptHashName (some (.ofScript [0x11])) ∧
      ∀ c ∈ e.contexts, c.hash = .ofScript c.script := by
  intro r e
  have hfirst : ({} : ScriptRegistry).firstScript? oneScript (.ofScript [0x40]) = some [0x40] := by
    rw [oneScript, ScriptRegistry.firstScript?_cons]
    exact if_pos rfl
  have hlive : ContextChange.live
      (calledByHash.filterMap (·.change? (({} : ScriptRegistry).firstScript? oneScript))) =
      [.ofScript [0x11], .ofScript [0x40]] := by
    simp [calledByHash, Operation.change?, hfirst, ContextChange.live, ContextChange.unended,
      Context.ofScript]
  have hkept : ∀ start : Engine, (start.performAll calledByHash).gas = start.gas := by
    -- The engine is arbitrary, so that no digest has to be computed.
    intro start
    simp only [performAll, calledByHash, List.foldl_cons, List.foldl_nil, perform, unload,
      loadScript, loadByHash]
    split
    · rfl
    · split <;> rfl
  have hgas : Builtin.price ≤ e.gas.remaining := by
    rw [show e.gas = .unlimited from hkept _]
    decide
  obtain ⟨hcontexts, _, _, hanswers, hown⟩ :=
    contexts_followHistory Address.hexCodec oneScript { container := ⟨0⟩ } calledByHash
  rw [hlive] at hcontexts
  obtain ⟨hexecuting, hcalling, hentry⟩ := hanswers hgas
  rw [hlive] at hexecuting hcalling hentry
  refine ⟨List.reverse_eq_iff.mp hcontexts, hexecuting, hcalling, hentry, hown ?_⟩
  intro hash script hmem
  rw [(ScriptRegistry.stores_empty _).mem_added_iff, oneScript,
    ScriptRegistry.firstScript?_cons] at hmem
  obtain ⟨-, hscript⟩ := hmem
  split at hscript
  · rename_i hnames
    obtain rfl : .ofScript [0x40] = hash := hnames
    cases hscript
    rfl
  · cases hscript

end Engine

end ScriptHost

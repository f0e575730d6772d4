import ScriptHost.Proofs.Charges
import ScriptHost.Syscall.Registry

/-!
# ScriptHost.Proofs.Dispatch

What calls cost. A call of a name that is not offered, or that the gas does not suffice for, does
nothing; any other is paid for first and then handed to its handler, whatever that answers. So as
long as handlers leave the meter alone, it has taken the prices of the calls that got to a handler
and nothing else (`Registry.accounts_invokeAll`). The built-in syscalls leave it alone, and a host
may add any that do.
-/

namespace ScriptHost

/-- The handler does not write to the gas meter, whether it succeeds or not. -/
def Syscall.KeepsGas (c : Syscall) : Prop := ∀ e, (c.handler e).engine.gas = e.gas

theorem Builtin.keepsGas {c : Syscall} (hc : c ∈ table) : c.KeepsGas := by
  intro e
  obtain ⟨stack, heap, hreply⟩ := handler_frame hc e
  rw [hreply]

namespace Registry

variable {r : Registry} {e : Engine} {name : String} {c : Syscall}

/-- The price of a syscall; a name that is not offered has none. -/
def priceOf (r : Registry) (name : String) : UInt64 := (r.price? name).getD 0

/-- The engine after calls are made one after the other. -/
def invokeAll (r : Registry) (e : Engine) (names : List String) : Engine :=
  names.foldl (fun e name => (r.invoke name e).engine) e

/-- Those of the calls that get to a handler: their name is offered, and their price remains. -/
def dispatched (r : Registry) (e : Engine) : List String → List String
  | [] => []
  | name :: names =>
    let later := r.dispatched (r.invoke name e).engine names
    match r.price? name with
    | none => later
    | some price => if e.gas.remaining < price then later else name :: later

/-- Each call as a charge of its price. -/
def charges (r : Registry) (names : List String) : List Charge :=
  names.map fun name => ⟨name, r.priceOf name⟩

theorem total_charges (r : Registry) (names : List String) :
    Charge.total (r.charges names) = (names.map fun name => (r.priceOf name).toNat).sum := by
  simp [Charge.total, charges, Function.comp_def]

theorem total_under_charges (r : Registry) (name : String) (names : List String) :
    Charge.total (Charge.under name (r.charges names)) =
      (r.priceOf name).toNat * names.count name := by
  induction names with
  | nil => rfl
  | cons first names ih =>
    simp only [Charge.total, Charge.under, charges, List.map_cons] at ih ⊢
    by_cases h : first = name
    · subst h
      simp only [List.filter_cons, decide_true, if_true, List.map_cons, List.sum_cons, ih,
        List.count_cons_self, Nat.mul_add, Nat.mul_one]
      omega
    · simp only [List.filter_cons, h, decide_false, Bool.false_eq_true, if_false, ih,
        List.count_cons_of_ne h]

theorem exists_mem_charges_iff {names : List String} :
    (∃ c ∈ r.charges names, c.name = name) ↔ name ∈ names := by
  constructor
  · rintro ⟨c, hc, rfl⟩
    obtain ⟨called, hcalled, rfl⟩ := List.mem_map.mp hc
    exact hcalled
  · intro h
    exact ⟨_, List.mem_map_of_mem h, rfl⟩

/-! ## One call -/

theorem priceOf_of_find? (hfind : r.find? name = some c) : r.priceOf name = c.price := by
  rw [priceOf, price?, hfind]
  rfl

theorem invoke_unknown (hfind : r.find? name = none) :
    (r.invoke name e).succeeded = false ∧ (r.invoke name e).engine = e := by
  simp only [invoke, hfind, and_self]

theorem invoke_unpaid (hfind : r.find? name = some c) (hprice : e.gas.remaining < c.price) :
    (r.invoke name e).succeeded = false ∧ (r.invoke name e).engine = e := by
  simp only [invoke, hfind, Engine.charge, GasMeter.charge, if_pos hprice, and_self]

/-- The handler is run on the engine with what is left of the gas, and its reply is the reply. -/
theorem invoke_paid {meter : GasMeter} (hfind : r.find? name = some c)
    (hcharge : e.gas.charge name c.price = (.ok (), meter)) :
    e.charge name c.price = (.ok (), { e with gas := meter }) ∧
      r.invoke name e = c.handler { e with gas := meter } := by
  have hpay : e.charge name c.price = (.ok (), { e with gas := meter }) := by
    rw [Engine.charge, hcharge]
  exact ⟨hpay, invoke_of_find? hfind hpay⟩

/-! ## Runs -/

theorem accounts_invokeAll (hr : ∀ name c, r.find? name = some c → c.KeepsGas)
    {done : List String} (h : e.gas.Accounts (r.charges done)) (names : List String) :
    (r.invokeAll e names).gas.limit = e.gas.limit ∧
      (r.invokeAll e names).gas.Accounts (r.charges (done ++ r.dispatched e names)) := by
  induction names generalizing e done with
  | nil => simpa [invokeAll, dispatched] using h
  | cons name names ih =>
    simp only [invokeAll, List.foldl_cons, dispatched, price?]
    cases hfind : r.find? name with
    | none =>
      rw [(invoke_unknown hfind).2]
      exact ih h
    | some c =>
      by_cases hprice : e.gas.remaining < c.price
      · rw [(invoke_unpaid hfind hprice).2, Option.map_some]
        simp only [if_pos hprice]
        exact ih h
      · have hfits : Charge.total (r.charges done) + c.price.toNat ≤ e.gas.limit.toNat :=
          Nat.le_of_not_lt (mt (h.exceeds_iff c.price).mpr hprice)
        obtain ⟨meter, hcharge, hlimit, hmeter⟩ := h.accept (c := ⟨name, c.price⟩) hfits
        have hgas : (r.invoke name e).engine.gas = meter := by
          rw [(invoke_paid hfind hcharge).2]
          exact hr name c hfind _
        have hcall : r.charges done ++ [⟨name, c.price⟩] = r.charges (done ++ [name]) := by
          simp [charges, priceOf_of_find? hfind]
        rw [hcall, ← hgas] at hmeter
        simp only [Option.map_some, if_neg hprice]
        rw [List.append_cons, ← hlimit, ← hgas]
        exact ih hmeter

theorem keepsGas_of_find? {cs : List Syscall} (hcs : ∀ c ∈ cs, c.KeepsGas)
    (hfind : (builder.extend cs).build.1.find? name = some c) : c.KeepsGas := by
  rcases Builder.get?_extend hfind with ⟨hmem, _⟩ | hbuiltin
  · exact hcs c hmem
  · exact Builtin.keepsGas (find?_builtin_iff.mp hbuiltin).1

/-- On a host that adds syscalls which leave the meter alone, and with a fresh meter: after any
calls, a call of a name that is not offered, or whose price does not remain, fails and leaves the
engine as it is. Any other call is charged its price, then the handler gets the engine and its
reply is the reply, and the charge stands. So the gas used is the sum of the prices of the calls
that got to a handler and within the limit, and what is listed under a name is its price times the
number of its calls among them. -/
theorem dispatch_exact (cs : List Syscall) (hcs : ∀ c ∈ cs, c.KeepsGas) (start : Engine)
    (limit : UInt64) (names : List String) :
    let r := (builder.extend cs).build.1
    let fresh : Engine := { start with gas := .withLimit limit }
    let e := r.invokeAll fresh names
    let done := r.dispatched fresh names
    (∀ name,
      (r.find? name = none →
        (r.invoke name e).succeeded = false ∧ (r.invoke name e).engine = e) ∧
      ∀ c, r.find? name = some c →
        (limit.toNat < e.gas.used.toNat + c.price.toNat →
          (r.invoke name e).succeeded = false ∧ (r.invoke name e).engine = e) ∧
        (e.gas.used.toNat + c.price.toNat ≤ limit.toNat →
          ∃ meter, e.charge name c.price = (.ok (), { e with gas := meter }) ∧
            meter.used.toNat = e.gas.used.toNat + c.price.toNat ∧
            r.invoke name e = c.handler { e with gas := meter } ∧
            (r.invoke name e).engine.gas = meter)) ∧
    e.gas.used.toNat = (done.map fun name => (r.priceOf name).toNat).sum ∧
    e.gas.used.toNat ≤ limit.toNat ∧
    ∀ name, (name ∈ e.gas.byName.keys ↔ name ∈ done) ∧
      (e.gas.usedBy name).toNat = (r.priceOf name).toNat * done.count name := by
  intro r fresh e done
  have hkeeps : ∀ name c, r.find? name = some c → c.KeepsGas :=
    fun _ _ hfind => keepsGas_of_find? hcs hfind
  have hfresh : fresh.gas.Accounts (r.charges []) := GasMeter.accounts_withLimit limit
  obtain ⟨hlimit, h⟩ : e.gas.limit = limit ∧ e.gas.Accounts (r.charges done) :=
    accounts_invokeAll hkeeps hfresh names
  refine ⟨?_, ?_, ?_, ?_⟩
  · intro name
    refine ⟨invoke_unknown, ?_⟩
    intro c hfind
    rw [h.used, ← hlimit]
    constructor
    · intro hexceeds
      exact invoke_unpaid hfind ((h.exceeds_iff c.price).mpr hexceeds)
    · intro hfits
      obtain ⟨meter, hcharge, _, hmeter⟩ := h.accept (c := ⟨name, c.price⟩) hfits
      obtain ⟨hpay, hinvoke⟩ := invoke_paid hfind hcharge
      refine ⟨meter, hpay, ?_, hinvoke, ?_⟩
      · rw [hmeter.used, Charge.total_append, Charge.total_singleton]
      · rw [hinvoke]
        exact hkeeps name c hfind _
  · rw [h.used, total_charges]
  · rw [h.used, ← hlimit]
    exact h.le_limit
  · intro name
    rw [h.listed, h.usedBy, total_under_charges, exists_mem_charges_iff]
    exact ⟨Iff.rfl, rfl⟩

/-- Pushes a boolean and fails, at a price of six. -/
def costlyFailure : Syscall where
  name := "Host.Costly"
  handler := fun e => ⟨false, e.push (.boolean true), []⟩
  price := 6

def idleEngine : Engine := { container := ⟨0⟩ }

/-- With a limit of ten, the second costly call finds four left; the last call costs one. -/
def costlyNames : List String :=
  ["Host.Costly", "Host.Missing", "Host.Costly", Builtin.getScriptContainerName]

/-- The first costly call is paid, pushes and fails. Later there is no gas for one, and it does
nothing. -/
theorem dispatch_exact_costlyFailure :
    (∀ c ∈ [costlyFailure], c.KeepsGas) ∧
      let r := (builder.extend [costlyFailure]).build.1
      let fresh := { idleEngine with gas := .withLimit 10 }
      let e := r.invokeAll fresh costlyNames
      (∃ meter, meter.used.toNat = 6 ∧
        r.invoke "Host.Costly" fresh =
          ⟨false, { fresh with gas := meter, stack := ⟨[.boolean true]⟩ }, []⟩) ∧
      ((r.invoke "Host.Costly" e).succeeded = false ∧ (r.invoke "Host.Costly" e).engine = e) ∧
      r.dispatched fresh costlyNames = ["Host.Costly", Builtin.getScriptContainerName] ∧
      e.gas.used.toNat = 7 ∧ (e.gas.usedBy "Host.Costly").toNat = 6 := by
  have hcs : ∀ c ∈ [costlyFailure], c.KeepsGas := by
    intro c hc e
    rw [List.mem_singleton.mp hc]
    rfl
  refine ⟨hcs, ?_⟩
  intro r fresh e
  have hfind : r.find? "Host.Costly" = some costlyFailure :=
    (Table.get?_insert ..).trans (if_pos rfl)
  have hdone :
      r.dispatched fresh costlyNames = ["Host.Costly", Builtin.getScriptContainerName] := by
    decide +kernel
  have hsum : (["Host.Costly", Builtin.getScriptContainerName].map
      fun name => (r.priceOf name).toNat).sum = 7 := by
    decide +kernel
  have hcount : (r.priceOf "Host.Costly").toNat *
      ["Host.Costly", Builtin.getScriptContainerName].count "Host.Costly" = 6 := by
    decide +kernel
  have hfirst := (dispatch_exact [costlyFailure] hcs idleEngine 10 []).1 "Host.Costly"
  obtain ⟨hlater, hused, -, hentries⟩ :=
    dispatch_exact [costlyFailure] hcs idleEngine 10 costlyNames
  have hcostly := (hentries "Host.Costly").2
  rw [hdone] at hused hcostly
  have hseven : e.gas.used.toNat = 7 := by
    rw [hused]
    exact hsum
  refine ⟨?_, ?_, hdone, hseven, ?_⟩
  · obtain ⟨meter, -, hmeter, hinvoke, -⟩ := (hfirst.2 costlyFailure hfind).2 (by decide)
    exact ⟨meter, hmeter, hinvoke⟩
  · have hprice : costlyFailure.price.toNat = 6 := rfl
    refine ((hlater "Host.Costly").2 costlyFailure hfind).1 ?_
    rw [hseven, hprice]
    decide
  · rw [hcostly]
    exact hcount

end Registry

end ScriptHost

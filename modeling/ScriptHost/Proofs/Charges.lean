import Mathlib.Algebra.Ring.Nat
import ScriptHost.Gas

/-!
# ScriptHost.Proofs.Charges

Exact books. A meter counts in words of 64 bits, adds without looking for an overflow and subtracts
without looking for an underflow; here it is held against unbounded sums. `Accounts` says that a
meter has taken certain charges and no others. A charge that fits keeps it (`Accounts.accept`), one
that does not fit changes nothing (`Accounts.refuse`), and so it holds along every run
(`Accounts.run`). Nothing wraps around because the limit is a word: what fits into it fits into the
sum of all charges, and so into the sum under each name.
-/

namespace ScriptHost

/-- An amount of gas that is asked for, and the name that it is to go on. -/
structure Charge where
  name : String
  amount : UInt64
deriving DecidableEq, Repr

namespace Charge

/-- What charges come to, however much that is. -/
def total (cs : List Charge) : Nat := (cs.map (·.amount.toNat)).sum

/-- The charges under one name. -/
def under (name : String) (cs : List Charge) : List Charge := cs.filter (·.name = name)

@[simp] theorem total_append (cs ds : List Charge) : total (cs ++ ds) = total cs + total ds := by
  simp [total]

@[simp] theorem total_singleton (c : Charge) : total [c] = c.amount.toNat := by
  simp [total]

theorem under_concat (name : String) (cs : List Charge) (c : Charge) :
    under name (cs ++ [c]) = if c.name = name then under name cs ++ [c] else under name cs := by
  by_cases h : c.name = name <;> simp [under, h]

theorem total_under_le (name : String) (cs : List Charge) : total (under name cs) ≤ total cs := by
  induction cs with
  | nil => exact Nat.le_refl _
  | cons c cs ih =>
    by_cases h : c.name = name
    · simp only [under, total, List.filter_cons, h, decide_true, if_true, List.map_cons,
        List.sum_cons] at ih ⊢
      omega
    · simp only [under, total, List.filter_cons, h, decide_false, Bool.false_eq_true, if_false,
        List.map_cons, List.sum_cons] at ih ⊢
      omega

end Charge

/-- Writing an entry adds its value to the sum of all, and takes off what the key had before. -/
theorem Table.sum_insert (t : Table UInt64) (key : String) (value : UInt64) :
    ((t.insert key value).entries.map (·.2.toNat)).sum + ((t.get? key).getD 0).toNat =
      (t.entries.map (·.2.toNat)).sum + value.toNat := by
  obtain ⟨before, after, hinsert, hentries⟩ := t.exists_entries_insert key value
  rw [hinsert, hentries]
  cases t.get? key with
  | none =>
    simp
    omega
  | some old =>
    simp
    omega

namespace GasMeter

variable {m : GasMeter} {paid : List Charge} {c : Charge}

/-- The meter after charges are made one after the other. -/
def chargeAll (m : GasMeter) (cs : List Charge) : GasMeter :=
  cs.foldl (fun m c => (m.charge c.name c.amount).2) m

/-- Those of the charges that are accepted. -/
def accepted (m : GasMeter) : List Charge → List Charge
  | [] => []
  | c :: cs =>
    match m.charge c.name c.amount with
    | (.ok (), m') => c :: m'.accepted cs
    | (.error _, m') => m'.accepted cs

theorem chargeAll_cons (m : GasMeter) (c : Charge) (cs : List Charge) :
    m.chargeAll (c :: cs) = (m.charge c.name c.amount).2.chargeAll cs := rfl

theorem accepted_cons_ok {m' : GasMeter} (h : m.charge c.name c.amount = (.ok (), m'))
    (cs : List Charge) : m.accepted (c :: cs) = c :: m'.accepted cs := by
  simp only [accepted, h]

theorem accepted_cons_error {e : EngineError} {m' : GasMeter}
    (h : m.charge c.name c.amount = (.error e, m')) (cs : List Charge) :
    m.accepted (c :: cs) = m'.accepted cs := by
  simp only [accepted, h]

/-- The meter has taken the charges `paid` and no others. -/
structure Accounts (m : GasMeter) (paid : List Charge) : Prop where
  used : m.used.toNat = Charge.total paid
  le_limit : Charge.total paid ≤ m.limit.toNat
  usedBy : ∀ name, (m.usedBy name).toNat = Charge.total (Charge.under name paid)
  listed : ∀ name, name ∈ m.byName.keys ↔ ∃ c ∈ paid, c.name = name
  sum : (m.byName.entries.map (·.2.toNat)).sum = Charge.total paid

theorem accounts_withLimit (limit : UInt64) : (withLimit limit).Accounts [] where
  used := rfl
  le_limit := Nat.zero_le _
  usedBy := fun _ => rfl
  listed := by simp [withLimit, Table.keys, Table.empty]
  sum := rfl

namespace Accounts

/-! ## One charge -/

theorem toNat_remaining (h : m.Accounts paid) :
    m.remaining.toNat = m.limit.toNat - Charge.total paid := by
  have hle : m.used ≤ m.limit := by
    rw [UInt64.le_iff_toNat_le, h.used]
    exact h.le_limit
  rw [remaining, UInt64.toNat_sub_of_le _ _ hle, h.used]

theorem exceeds_iff (h : m.Accounts paid) (amount : UInt64) :
    m.remaining < amount ↔ m.limit.toNat < Charge.total paid + amount.toNat := by
  have hle := h.le_limit
  rw [UInt64.lt_iff_toNat_lt, h.toNat_remaining]
  omega

/-- What fits into the limit overflows neither the sum of all charges nor that of one name. -/
theorem no_overflow (h : m.Accounts paid)
    (hfits : Charge.total paid + c.amount.toNat ≤ m.limit.toNat) :
    m.used.toNat + c.amount.toNat < UInt64.size ∧
      (m.usedBy c.name).toNat + c.amount.toNat < UInt64.size := by
  have hword : m.limit.toNat < UInt64.size := m.limit.toNat_lt
  have hunder := Charge.total_under_le c.name paid
  rw [h.used, h.usedBy]
  omega

theorem refuse (h : m.Accounts paid)
    (hexceeds : m.limit.toNat < Charge.total paid + c.amount.toNat) :
    m.charge c.name c.amount = (.error (.outOfGas c.amount m.remaining), m) := by
  rw [charge, if_pos ((h.exceeds_iff c.amount).mpr hexceeds)]

theorem accept (h : m.Accounts paid)
    (hfits : Charge.total paid + c.amount.toNat ≤ m.limit.toNat) :
    ∃ m', m.charge c.name c.amount = (.ok (), m') ∧ m'.limit = m.limit ∧
      m'.Accounts (paid ++ [c]) := by
  obtain ⟨hused, husedBy⟩ := h.no_overflow hfits
  have hentry : (addSaturating (m.usedBy c.name) c.amount).toNat =
      (m.usedBy c.name).toNat + c.amount.toNat := by
    rw [toNat_addSaturating]
    omega
  rw [charge, if_neg (by rw [h.exceeds_iff]; omega)]
  refine ⟨_, rfl, rfl, ?_⟩
  constructor
  case used =>
    rw [UInt64.toNat_add, Nat.mod_eq_of_lt hused, h.used, Charge.total_append,
      Charge.total_singleton]
  case le_limit =>
    rw [Charge.total_append, Charge.total_singleton]
    exact hfits
  case usedBy =>
    intro name
    rw [GasMeter.usedBy, Table.get?_insert, Charge.under_concat]
    by_cases hname : name = c.name
    · subst hname
      rw [if_pos rfl, if_pos rfl, Option.getD_some, hentry, h.usedBy, Charge.total_append,
        Charge.total_singleton]
    · rw [if_neg hname, if_neg (Ne.symm hname)]
      exact h.usedBy name
  case listed =>
    intro name
    have hlisted := h.listed name
    rw [Table.mem_keys_iff] at hlisted ⊢
    simp only [Table.get?_insert]
    by_cases hname : name = c.name
    · subst hname
      simp
    · rw [if_neg hname, hlisted]
      simp [Ne.symm hname]
  case sum =>
    have hsum := m.byName.sum_insert c.name (addSaturating (m.usedBy c.name) c.amount)
    rw [hentry, h.sum, ← GasMeter.usedBy] at hsum
    rw [Charge.total_append, Charge.total_singleton]
    dsimp only
    omega

/-! ## Runs -/

theorem run (h : m.Accounts paid) (cs : List Charge) :
    (m.chargeAll cs).limit = m.limit ∧ (m.chargeAll cs).Accounts (paid ++ m.accepted cs) := by
  induction cs generalizing m paid with
  | nil => simpa [chargeAll, accepted] using h
  | cons c cs ih =>
    by_cases hfits : Charge.total paid + c.amount.toNat ≤ m.limit.toNat
    · obtain ⟨m', hcharge, hlimit, h'⟩ := h.accept hfits
      rw [chargeAll_cons, accepted_cons_ok hcharge, hcharge, List.append_cons, ← hlimit]
      exact ih h'
    · have hcharge := h.refuse (Nat.lt_of_not_le hfits)
      rw [chargeAll_cons, accepted_cons_error hcharge, hcharge]
      exact ih h

end Accounts

/-- After any charges on a fresh meter, the gas used is the exact sum of the accepted ones and
within the limit; exactly the names of accepted charges are listed, in ascending order, each with
the sum of its own, and these add up to the gas used. What remains is the exact difference. One
more charge is accepted exactly if it fits, and then no sum overflows; if it does not fit, it is
refused with what remains, and the meter stays as it is. -/
theorem charges_exact (limit : UInt64) (cs : List Charge) :
    let m := (withLimit limit).chargeAll cs
    let paid := (withLimit limit).accepted cs
    (m.limit = limit ∧ m.used.toNat = Charge.total paid ∧ m.used.toNat ≤ limit.toNat ∧
      m.remaining.toNat = limit.toNat - m.used.toNat) ∧
    (m.byName.keys.Pairwise (· < ·) ∧
      (∀ name, name ∈ m.byName.keys ↔ ∃ c ∈ paid, c.name = name) ∧
      (∀ e ∈ m.byName.entries, e.2.toNat = Charge.total (Charge.under e.1 paid)) ∧
      (m.byName.entries.map (·.2.toNat)).sum = m.used.toNat) ∧
    ∀ c : Charge,
      if m.used.toNat + c.amount.toNat ≤ limit.toNat then
        (m.charge c.name c.amount).1 = .ok () ∧
          m.used.toNat + c.amount.toNat < UInt64.size ∧
          (m.usedBy c.name).toNat + c.amount.toNat < UInt64.size
      else m.charge c.name c.amount = (.error (.outOfGas c.amount m.remaining), m) := by
  intro m paid
  obtain ⟨hlimit, h⟩ : m.limit = limit ∧ m.Accounts paid := (accounts_withLimit limit).run cs
  refine ⟨⟨hlimit, h.used, ?_, ?_⟩, ⟨m.byName.sorted_keys, h.listed, ?_, ?_⟩, ?_⟩
  · rw [h.used, ← hlimit]
    exact h.le_limit
  · rw [h.toNat_remaining, h.used, hlimit]
  · rintro ⟨name, gas⟩ he
    have hentry := h.usedBy name
    rw [GasMeter.usedBy, (Table.mem_entries_iff _).mp he] at hentry
    exact hentry
  · rw [h.sum, h.used]
  · intro c
    rw [h.used, ← hlimit]
    split
    · rename_i hfits
      obtain ⟨m', hcharge, _⟩ := h.accept hfits
      rw [← h.used]
      exact ⟨congrArg Prod.fst hcharge, h.no_overflow hfits⟩
    · rename_i hover
      exact h.refuse (Nat.lt_of_not_le hover)

end GasMeter

end ScriptHost

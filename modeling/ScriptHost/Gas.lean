import ScriptHost.Engine.Error
import ScriptHost.Table
import ScriptHost.Word

/-!
# ScriptHost.Gas

Gas is what syscalls cost. A meter holds a limit, what is used up, and how much of it went on
each name; a charge that does not fit into what remains is refused and changes nothing.
-/

namespace ScriptHost

structure GasMeter where
  limit : UInt64
  used : UInt64 := 0
  byName : Table UInt64 := .empty

namespace GasMeter

def withLimit (limit : UInt64) : GasMeter := { limit := limit }

/-- A meter with the greatest limit there is. -/
def unlimited : GasMeter := withLimit greatestWord

def remaining (m : GasMeter) : UInt64 := m.limit - m.used

/-- What the charges under one name come to. -/
def usedBy (m : GasMeter) (name : String) : UInt64 := (m.byName.get? name).getD 0

def charge (m : GasMeter) (name : String) (amount : UInt64) :
    Except EngineError Unit × GasMeter :=
  if m.remaining < amount then (.error (.outOfGas amount m.remaining), m)
  else
    (.ok (),
      { m with
        used := m.used + amount
        byName := m.byName.insert name (addSaturating (m.usedBy name) amount) })

theorem exists_charge {m : GasMeter} {amount : UInt64} (h : amount ≤ m.remaining) (name : String) :
    ∃ m', m.charge name amount = (.ok (), m') := by
  rw [charge, if_neg (UInt64.not_lt.mpr h)]
  exact ⟨_, rfl⟩

end GasMeter

end ScriptHost

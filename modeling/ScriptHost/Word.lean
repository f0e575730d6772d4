/-!
# ScriptHost.Word

Sums of 64-bit words that stop at the greatest word instead of starting again at zero.
-/

namespace ScriptHost

def greatestWord : UInt64 := 0xFFFFFFFFFFFFFFFF

/-- The sum, or the greatest word if the sum is greater still. -/
def addSaturating (a b : UInt64) : UInt64 :=
  if a.toNat + b.toNat < UInt64.size then a + b else greatestWord

theorem toNat_addSaturating (a b : UInt64) :
    (addSaturating a b).toNat = min (a.toNat + b.toNat) (UInt64.size - 1) := by
  unfold addSaturating
  split
  · rename_i h
    rw [UInt64.toNat_add, Nat.mod_eq_of_lt h]
    omega
  · rw [show greatestWord.toNat = UInt64.size - 1 by decide]
    omega

end ScriptHost

import ScriptHost.Syscall.Builtin
import ScriptHost.Table

/-!
# ScriptHost.Syscall.Registry

The syscalls that a host offers, by name. A registry is put together by a builder, in which a
later syscall takes the place of an earlier one of the same name, and does not change after that.
Calling one charges its price first; without a syscall of that name, or without the gas, nothing
happens to the engine. The names of the built-in syscalls are distinct, so each of them is found
(`find?_builtin_iff`).
-/

namespace ScriptHost

structure Registry where
  calls : Table Syscall := .empty

namespace Registry

def find? (r : Registry) (name : String) : Option Syscall := r.calls.get? name

def price? (r : Registry) (name : String) : Option UInt64 := (r.find? name).map (·.price)

def size (r : Registry) : Nat := r.calls.size

/-- The names in ascending order. -/
def names (r : Registry) : List String := r.calls.keys

def invoke (r : Registry) (name : String) (e : Engine) : Reply :=
  match r.find? name with
  | none => ⟨false, e, [⟨.warn, "unknown syscall " ++ name⟩]⟩
  | some c =>
    match e.charge name c.price with
    | (.error err, e') =>
      ⟨false, e', [⟨.warn, "syscall " ++ name ++ " rejected: " ++ err.message⟩]⟩
    | (.ok (), e') => c.call e'

/-- Syscalls on the way to a registry. -/
structure Builder where
  calls : Table Syscall := .empty

namespace Builder

def empty : Builder := {}

/-- Offers one syscall, in place of one that has its name. -/
def register (b : Builder) (c : Syscall) : Builder := ⟨b.calls.insert c.name c⟩

/-- Offers every syscall of a list in turn. -/
def extend (b : Builder) (cs : List Syscall) : Builder := cs.foldl register b

/-- The registry, and what building it logs. -/
def build (b : Builder) : Registry × List Log.Record :=
  (⟨b.calls⟩,
    [⟨.debug, "interop registry built with " ++ toString b.calls.size ++ " syscalls"⟩])

end Builder

/-- A builder that offers the built-in syscalls. -/
def builder : Builder := Builder.empty.extend Builtin.table

/-- The built-in syscalls alone. -/
def builtin : Registry × List Log.Record := builder.build

/-! ## What a name finds -/

theorem Builder.get?_extend {cs : List Syscall} {b : Builder} {name : String} {c : Syscall}
    (h : (b.extend cs).calls.get? name = some c) :
    c ∈ cs ∧ c.name = name ∨ b.calls.get? name = some c := by
  induction cs generalizing b with
  | nil => exact .inr h
  | cons d cs ih =>
    rcases ih h with ⟨hmem, hname⟩ | hget
    · exact .inl ⟨List.mem_cons_of_mem _ hmem, hname⟩
    · rw [register, Table.get?_insert] at hget
      split at hget
      · rename_i hname
        cases hget
        exact .inl ⟨List.mem_cons_self, hname.symm⟩
      · exact .inr hget

theorem find?_builtin_iff {name : String} {c : Syscall} :
    builtin.1.find? name = some c ↔ c ∈ Builtin.table ∧ c.name = name := by
  constructor
  · intro h
    rcases Builder.get?_extend h with hmem | hempty
    · exact hmem
    · cases hempty
  · rintro ⟨h, rfl⟩
    simp only [Builtin.table, List.mem_cons, List.not_mem_nil, or_false] at h
    -- No two of the names are the same.
    rcases h with rfl | rfl | rfl | rfl | rfl | rfl <;>
      simp [builtin, builder, Builder.build, Builder.extend, Builder.register, Builtin.table,
        find?, Table.get?_insert, Builtin.getScriptContainerName,
        Builtin.getExecutingScriptHashName, Builtin.getCallingScriptHashName,
        Builtin.getEntryScriptHashName, Builtin.serializeName, Builtin.deserializeName]

theorem invoke_of_find? {r : Registry} {name : String} {c : Syscall} {e paid : Engine}
    (hfind : r.find? name = some c) (hpay : e.charge name c.price = (.ok (), paid)) :
    r.invoke name e = c.handler paid := by
  simp only [invoke, hfind, hpay, Syscall.call_eq]

end Registry

end ScriptHost

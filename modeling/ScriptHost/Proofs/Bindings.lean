import Mathlib.Data.List.Induction
import Mathlib.Data.List.Sort
import Mathlib.Logic.Relation
import ScriptHost.Proofs.Dispatch
import ScriptHost.Proofs.Hexadecimal

/-!
# ScriptHost.Proofs.Bindings

What a registry offers. However it is built, all that counts is the syscalls that are registered
and their order (`performAll_eq_extend`), and of those the last of each name (`get?_extend`). So
syscalls of different names can be registered in either order, and no run of calls shows which it
was (`replies_congr`). The names of a registry are listed in the order of their bytes, for the bytes
of two texts in UTF-8 come in the order of the characters (`order_toUTF8`).
-/

namespace ScriptHost

/-! ## The order of texts and of their bytes -/

theorem Bytes.order_append {a b : Bytes} (h : order a b = .lt) (p : Bytes) :
    order (p ++ a) (p ++ b) = .lt := by
  induction p with
  | nil => exact h
  | cons x p ih => exact (order_cons_eq_lt_iff ..).mpr (.inr ⟨rfl, ih⟩)

/-- A character that comes before another has a code that does, whatever stands behind. -/
theorem order_utf8EncodeChar {c d : Char} (h : c < d) (s t : Bytes) :
    Bytes.order (String.utf8EncodeChar c ++ s) (String.utf8EncodeChar d ++ t) = .lt := by
  have hlt : c.val.toNat < d.val.toNat := h
  have hd : d.val.toNat < 0x110000 := d.valid.elim (fun h => by omega) (fun h => h.2)
  have hbyte {k : Nat} (hk : k < 256) : (UInt8.ofNat k).toNat = k := UInt8.toNat_ofNat_of_lt' hk
  have htwo (k : Nat) : k / 4096 = k / 64 / 64 := (Nat.div_div_eq_div_mul k 64 64).symm
  have hthree (k : Nat) : k / 262144 = k / 64 / 64 / 64 := by
    rw [Nat.div_div_eq_div_mul, Nat.div_div_eq_div_mul]
  simp only [String.utf8EncodeChar, htwo, hthree]
  generalize c.val.toNat = m at hlt
  generalize d.val.toNat = n at hlt hd
  -- The first byte of a longer code is greater; codes of one length have the digits of the
  -- characters to base 64.
  repeat' split
  all_goals
    simp (disch := omega) only [List.cons_append, List.nil_append, Bytes.order_cons_eq_lt_iff,
      UInt8.lt_iff_toNat_lt, ← UInt8.toNat_inj, hbyte]
    omega

theorem order_toUTF8 {a b : String} (h : a < b) :
    Bytes.order a.toUTF8.toList b.toUTF8.toList = .lt := by
  rw [Text.Hex.toList_toUTF8, Text.Hex.toList_toUTF8]
  rw [String.lt_iff] at h
  generalize a.toList = cs at h
  generalize b.toList = ds at h
  induction cs generalizing ds with
  | nil =>
    cases ds with
    | nil => exact absurd h (List.lt_irrefl _)
    | cons d ds =>
      rw [List.flatMap_nil, Bytes.order_nil_eq_lt_iff, List.flatMap_cons]
      exact List.append_ne_nil_of_left_ne_nil (String.utf8EncodeChar_ne_nil) _
  | cons c cs ih =>
    cases ds with
    | nil => exact absurd h (List.not_lt_nil _)
    | cons d ds =>
      rcases List.cons_lt_cons_iff.mp h with hlt | ⟨rfl, hlt⟩
      · exact order_utf8EncodeChar hlt _ _
      · exact Bytes.order_append (ih ds hlt) _

namespace Registry

/-! ## Building -/

/-- One step in building a registry. -/
inductive Step
  | register (c : Syscall)
  | extend (cs : List Syscall)

/-- The syscalls that a step registers, in their order. -/
def Step.calls : Step → List Syscall
  | register c => [c]
  | extend cs => cs

/-- What a builder starts with. -/
inductive Start
  | empty
  | builtin

def Start.calls : Start → List Syscall
  | empty => []
  | builtin => Builtin.table

def Start.builder : Start → Builder
  | empty => .empty
  | builtin => Registry.builder

namespace Builder

def perform (b : Builder) : Step → Builder
  | .register c => b.register c
  | .extend cs => b.extend cs

def performAll (b : Builder) (steps : List Step) : Builder := steps.foldl perform b

end Builder

/-- The registry that comes out of the steps. -/
def built (start : Start) (steps : List Step) : Registry :=
  (start.builder.performAll steps).build.1

/-- All syscalls that are registered, in their order. -/
def registered (start : Start) (steps : List Step) : List Syscall :=
  start.calls ++ steps.flatMap Step.calls

/-- Lists of syscalls that differ in the order of two neighbours of different names. -/
inductive Exchanged : List Syscall → List Syscall → Prop
  | mk (before : List Syscall) {c d : Syscall} (after : List Syscall) :
      c.name ≠ d.name → Exchanged (before ++ c :: d :: after) (before ++ d :: c :: after)

/-- The syscall that is registered last under a name. -/
def lastNamed? (name : String) (cs : List Syscall) : Option Syscall :=
  cs.reverse.find? fun c => c.name = name

/-- What calls made one after the other are answered. -/
def replies (r : Registry) (e : Engine) : List String → List Reply
  | [] => []
  | name :: names =>
    let reply := r.invoke name e
    reply :: r.replies reply.engine names

variable {r r' : Registry} {e : Engine} {name : String} {c d : Syscall} {cs : List Syscall}

theorem lastNamed?_append (name : String) (cs ds : List Syscall) :
    lastNamed? name (cs ++ ds) = (lastNamed? name ds).or (lastNamed? name cs) := by
  rw [lastNamed?, List.reverse_append, List.find?_append]
  rfl

theorem exists_lastNamed?_iff : (∃ c, lastNamed? name cs = some c) ↔ ∃ c ∈ cs, c.name = name := by
  rw [lastNamed?, ← Option.isSome_iff_exists, List.find?_isSome]
  simp

theorem lastNamed?_of_exchanged {cs ds : List Syscall} (h : Relation.ReflTransGen Exchanged cs ds)
    (name : String) : lastNamed? name ds = lastNamed? name cs := by
  induction h with
  | refl => rfl
  | tail _ hstep ih =>
    rw [← ih]
    cases hstep with
    | @mk before c d after hne =>
      have hpair : lastNamed? name [d, c] = lastNamed? name [c, d] := by
        by_cases hc : c.name = name
        · have hd : d.name ≠ name := fun hd => hne (hc.trans hd.symm)
          simp [lastNamed?, hc, hd]
        · by_cases hd : d.name = name <;> simp [lastNamed?, hc, hd]
      have hsplit (x y : Syscall) : before ++ x :: y :: after = before ++ ([x, y] ++ after) := rfl
      simp only [hsplit, lastNamed?_append, hpair]

/-- Registering the syscalls of a list one by one, or the steps of a list, is registering all of
them. -/
theorem performAll_eq_extend (b : Builder) (steps : List Step) :
    b.performAll steps = b.extend (steps.flatMap Step.calls) := by
  induction steps generalizing b with
  | nil => rfl
  | cons s steps ih =>
    have hstep : b.perform s = b.extend s.calls := by cases s <;> rfl
    rw [Builder.performAll, List.foldl_cons, hstep, List.flatMap_cons]
    exact (ih _).trans List.foldl_append.symm

theorem performAll_extend_eq (b : Builder) (before after : List Step) (cs : List Syscall) :
    b.performAll (before ++ .extend cs :: after) =
      b.performAll (before ++ (cs.map .register ++ after)) := by
  have hcalls : (cs.map Step.register).flatMap Step.calls = cs := by
    rw [List.flatMap_map]
    exact List.flatMap_singleton' cs
  simp only [performAll_eq_extend, List.flatMap_append, List.flatMap_cons, hcalls]
  rfl

theorem get?_extend (b : Builder) (cs : List Syscall) (name : String) :
    (b.extend cs).calls.get? name = (lastNamed? name cs).or (b.calls.get? name) := by
  induction cs using List.reverseRecOn with
  | nil => rfl
  | append_singleton cs c ih =>
    rw [Builder.extend, List.foldl_append, List.foldl_cons, List.foldl_nil, Builder.register,
      Table.get?_insert, lastNamed?_append]
    by_cases hname : name = c.name
    · simp [lastNamed?, hname]
    · rw [if_neg hname]
      have hother : lastNamed? name [c] = none := by simp [lastNamed?, Ne.symm hname]
      rw [hother, Option.none_or]
      exact ih

theorem find?_built (start : Start) (steps : List Step) (name : String) :
    (built start steps).find? name = lastNamed? name (registered start steps) := by
  have hstart : start.builder = Builder.empty.extend start.calls := by cases start <;> rfl
  have hempty : Builder.empty.calls.get? name = none := rfl
  have hextend : start.builder.performAll steps = Builder.empty.extend (registered start steps) := by
    rw [performAll_eq_extend, hstart, registered]
    exact List.foldl_append.symm
  rw [built, hextend]
  exact (get?_extend _ _ _).trans (by rw [hempty, Option.or_none])

/-! ## What shows of a registry -/

theorem mem_names_iff : name ∈ r.names ↔ ∃ c, r.find? name = some c :=
  r.calls.mem_keys_iff

/-- The names are listed each once, in the order of their bytes. -/
theorem names_ascending (r : Registry) :
    r.names.Pairwise fun a b => Bytes.order a.toUTF8.toList b.toUTF8.toList = .lt :=
  r.calls.sorted_keys.imp order_toUTF8

theorem nodup_names (r : Registry) : r.names.Nodup :=
  r.calls.sorted_keys.imp fun {a b} (hlt : a < b) (heq : a = b) => String.lt_irrefl b (heq ▸ hlt)

theorem names_congr (h : ∀ name, r'.find? name = r.find? name) : r'.names = r.names := by
  have hmem (name : String) : name ∈ r'.names ↔ name ∈ r.names := by
    rw [mem_names_iff, mem_names_iff, h name]
  exact List.Pairwise.eq_of_mem_iff r'.calls.sorted_keys r.calls.sorted_keys hmem

/-- Registries that offer the same answer every run of calls alike. -/
theorem replies_congr (h : ∀ name, r'.find? name = r.find? name) (e : Engine)
    (names : List String) : r'.replies e names = r.replies e names := by
  induction names generalizing e with
  | nil => rfl
  | cons name names ih =>
    have hreply : r'.invoke name e = r.invoke name e := by simp only [invoke, h name]
    simp only [replies, hreply, ih]

/-- A call that has what it needs is paid for and answered by its handler, and any other fails and
leaves the engine as it is. -/
structure Answers (r : Registry) (name : String) (offered : Option Syscall) : Prop where
  unknown : offered = none → ∀ e,
    (r.invoke name e).succeeded = false ∧ (r.invoke name e).engine = e
  unpaid : ∀ c, offered = some c → ∀ e : Engine, e.gas.remaining < c.price →
    (r.invoke name e).succeeded = false ∧ (r.invoke name e).engine = e
  paid : ∀ c, offered = some c → ∀ e : Engine, c.price ≤ e.gas.remaining →
    ∃ meter, e.gas.charge name c.price = (.ok (), meter) ∧
      r.invoke name e = c.handler { e with gas := meter }

theorem answers_find? (r : Registry) (name : String) : r.Answers name (r.find? name) where
  unknown := fun hfind _ => invoke_unknown hfind
  unpaid := fun _ hfind _ hprice => invoke_unpaid hfind hprice
  paid := by
    intro c hfind e hprice
    obtain ⟨meter, hcharge⟩ := GasMeter.exists_charge hprice name
    exact ⟨meter, hcharge, (invoke_paid hfind hcharge).2⟩

/-- A registry, however it is built, offers under each name the syscall that was registered last
under it, and nothing else: that is found, has the price, and is called. Adding a list of syscalls
is registering them one by one. The names listed are those that were registered, each once and in
the order of their bytes. Where syscalls of different names are registered in another order, the
registry answers every run of calls alike. -/
theorem built_offers_last (start : Start) (steps : List Step) :
    (∀ name, (built start steps).find? name = lastNamed? name (registered start steps) ∧
      (built start steps).price? name = (lastNamed? name (registered start steps)).map (·.price) ∧
      (built start steps).Answers name (lastNamed? name (registered start steps))) ∧
    (∀ before cs after, steps = before ++ .extend cs :: after →
      built start steps = built start (before ++ (cs.map .register ++ after))) ∧
    (∀ name, name ∈ (built start steps).names ↔
      ∃ c ∈ registered start steps, c.name = name) ∧
    (built start steps).names.Nodup ∧
    ((built start steps).names.Pairwise fun a b =>
      Bytes.order a.toUTF8.toList b.toUTF8.toList = .lt) ∧
    (built start steps).size = (built start steps).names.length ∧
    ∀ steps', Relation.ReflTransGen Exchanged (steps.flatMap Step.calls)
        (steps'.flatMap Step.calls) →
      (∀ name, (built start steps').find? name = (built start steps).find? name) ∧
      (built start steps').names = (built start steps).names ∧
      ∀ e names, (built start steps').replies e names = (built start steps).replies e names := by
  have hfind := find?_built start steps
  refine ⟨?_, ?_, ?_, nodup_names _, names_ascending _, ?_, ?_⟩
  · intro name
    refine ⟨hfind name, ?_, hfind name ▸ answers_find? _ name⟩
    rw [price?, hfind]
  · rintro before cs after rfl
    rw [built, performAll_extend_eq]
    rfl
  · intro name
    rw [mem_names_iff, hfind, exists_lastNamed?_iff]
  · exact (List.length_map ..).symm
  · intro steps' hexchanged
    have hsame (name : String) :
        (built start steps').find? name = (built start steps).find? name := by
      rw [hfind, find?_built, registered, registered, lastNamed?_append, lastNamed?_append,
        lastNamed?_of_exchanged hexchanged]
    exact ⟨hsame, names_congr hsame, replies_congr hsame⟩

/-- Pushes `false` in place of the script container, at a price of nine. -/
def noContainer : Syscall where
  name := Builtin.getScriptContainerName
  handler := fun e => ⟨true, e.push (.boolean false), []⟩
  price := 9

theorem built_offers_last_noContainer :
    let r := built .builtin [.extend [costlyFailure, noContainer]]
    let r' := built .builtin [.register noContainer, .register costlyFailure]
    r.price? Builtin.getScriptContainerName = some 9 ∧ r.names.Nodup ∧ r'.names = r.names ∧
      r'.replies idleEngine costlyNames = r.replies idleEngine costlyNames := by
  intro r r'
  have hexchanged : Relation.ReflTransGen Exchanged
      ([Step.extend [costlyFailure, noContainer]].flatMap Step.calls)
      ([Step.register noContainer, .register costlyFailure].flatMap Step.calls) :=
    .single (.mk [] [] (by decide))
  obtain ⟨hoffers, -, -, hnodup, -, -, hsame⟩ :=
    built_offers_last .builtin [.extend [costlyFailure, noContainer]]
  obtain ⟨-, hnames, hreplies⟩ := hsame _ hexchanged
  refine ⟨?_, hnodup, hnames, hreplies idleEngine costlyNames⟩
  rw [(hoffers Builtin.getScriptContainerName).2.1]
  decide +kernel

end Registry

end ScriptHost

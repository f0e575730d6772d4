import ScriptHost.Proofs.Dispatch
import ScriptHost.Proofs.Separation

/-!
# ScriptHost.Proofs.CodecCalls

What a call of the two syscalls that write and read items leaves behind, for every stack, heap and
operand. The call takes its price (`GasMeter.Takes`); then it takes the top of the stack and puts
its result there, or puts nothing there and leaves the heap as it is (`Engine.Exchanges`). Which of
the two happens is for the codec to say: writing has a result if the item has an encoding, reading
if the item is a primitive whose bytes are decoded. Main statement: `codec_calls_exchange`.
-/

namespace ScriptHost

/-! ## The price -/

namespace GasMeter

variable {m : GasMeter} {c : Charge}

/-- The meter after a charge that it accepts: just that amount has gone on just that name. -/
structure Takes (m : GasMeter) (c : Charge) (m' : GasMeter) : Prop where
  accepted : m.charge c.name c.amount = (.ok (), m')
  limit : m'.limit = m.limit
  used : m'.used.toNat = m.used.toNat + c.amount.toNat
  usedBy : ∀ name, name ≠ c.name → m'.usedBy name = m.usedBy name
  accounts : ∀ paid, m.Accounts paid → m'.Accounts (paid ++ [c])

theorem exists_takes (hfits : m.used.toNat + c.amount.toNat ≤ m.limit.toNat) :
    ∃ m', m.Takes c m' := by
  have hword : m.limit.toNat < 2 ^ 64 := m.limit.toNat_lt
  have hused : m.used ≤ m.limit := by
    rw [UInt64.le_iff_toNat_le]
    omega
  have hremaining : c.amount ≤ m.remaining := by
    rw [UInt64.le_iff_toNat_le, remaining, UInt64.toNat_sub_of_le _ _ hused]
    omega
  obtain ⟨m', hcharge⟩ := exists_charge hremaining c.name
  have hm' := hcharge
  rw [charge, if_neg (UInt64.not_lt.mpr hremaining)] at hm'
  cases hm'
  refine ⟨_, hcharge, rfl, ?_, ?_, ?_⟩
  · rw [UInt64.toNat_add, Nat.mod_eq_of_lt (by omega)]
  · intro name hname
    simp only [GasMeter.usedBy, Table.get?_insert, if_neg hname]
  · intro paid h
    rw [h.used] at hfits
    obtain ⟨m', haccept, -, hm'⟩ := h.accept hfits
    rw [hcharge] at haccept
    cases haccept
    exact hm'

end GasMeter

/-! ## The operand and the result -/

/-- A primitive item is one that can be a key. -/
theorem Item.byteForm?_isSome_iff {x : Item} : x.byteForm?.isSome ↔ ∃ k : Key, x = k.item := by
  cases x
  case bytes b => exact ⟨fun _ => ⟨.bytes b, rfl⟩, fun _ => rfl⟩
  case boolean v => exact ⟨fun _ => ⟨.boolean v, rfl⟩, fun _ => rfl⟩
  case integer n => exact ⟨fun _ => ⟨.integer n, rfl⟩, fun _ => rfl⟩
  all_goals
    constructor
    · intro h
      cases h
    · rintro ⟨k, hk⟩
      cases k <;> cases hk

namespace Engine

variable {e : Engine} {x y : Item} {below : List Item}

/-- The reply of a call that takes the top of the stack and puts a result in its place. `result x y
heap` says that `y` is the result for `x`, and `heap` the heap that goes with it. -/
structure Exchanges (e : Engine) (result : Item → Item → Heap → Prop) (reply : Reply) : Prop where
  /-- With no operand the call fails, and changes nothing. -/
  empty : e.stack.items = [] → reply.succeeded = false ∧ reply.engine = e
  /-- The call succeeds with `y` exactly if that is the result. -/
  pushes_iff : ∀ x below y heap, e.stack.items = x :: below →
    (reply.succeeded = true ∧ reply.engine = { e with stack := ⟨y :: below⟩, heap := heap } ↔
      result x y heap)
  /-- A success has a result. -/
  exists_result : ∀ x below, e.stack.items = x :: below → reply.succeeded = true →
    ∃ y heap, result x y heap
  /-- A failure takes the operand and changes nothing else. -/
  fails : ∀ x below, e.stack.items = x :: below → reply.succeeded = false →
    reply.engine = { e with stack := ⟨below⟩ }

theorem pop_nil (h : e.stack.items = []) : e.pop = (.error .stackUnderflow, e) := by
  obtain ⟨container, scripts, contexts, ⟨items⟩, heap, limits, gas⟩ := e
  cases h
  rfl

theorem pop_cons (h : e.stack.items = x :: below) :
    e.pop = (.ok x, { e with stack := ⟨below⟩ }) := by
  obtain ⟨container, scripts, contexts, ⟨items⟩, heap, limits, gas⟩ := e
  cases h
  rfl

/-- What has to be shown of a handler: with an operand, there is one result and it is pushed, or
there is none and the operand is gone. -/
theorem exchanges_report {result : Item → Item → Heap → Prop} {name : String}
    {r : Except SyscallError Unit × Engine}
    (hempty : e.stack.items = [] → ∃ err, r = (.error err, e))
    (htop : ∀ x below, e.stack.items = x :: below →
      (∃ y heap, (∀ y' heap', result x y' heap' ↔ y' = y ∧ heap' = heap) ∧
        r = (.ok (), { e with stack := ⟨y :: below⟩, heap := heap })) ∨
      (∀ y heap, ¬result x y heap) ∧ ∃ err, r = (.error err, { e with stack := ⟨below⟩ })) :
    e.Exchanges result (Builtin.report name r) where
  empty := by
    intro h
    obtain ⟨err, rfl⟩ := hempty h
    exact ⟨rfl, rfl⟩
  pushes_iff := by
    intro x below y heap h
    rcases htop x below h with ⟨y₀, heap₀, hresult, rfl⟩ | ⟨hnone, err, rfl⟩
    · rw [hresult]
      constructor
      · rintro ⟨-, heq⟩
        cases heq
        exact ⟨rfl, rfl⟩
      · rintro ⟨rfl, rfl⟩
        exact ⟨rfl, rfl⟩
    · constructor
      · rintro ⟨hsucceeded, -⟩
        cases hsucceeded
      · exact fun h => absurd h (hnone y heap)
  exists_result := by
    intro x below h hsucceeded
    rcases htop x below h with ⟨y, heap, hresult, rfl⟩ | ⟨hnone, err, rfl⟩
    · exact ⟨y, heap, (hresult y heap).mpr ⟨rfl, rfl⟩⟩
    · cases hsucceeded
  fails := by
    intro x below h hfailed
    rcases htop x below h with ⟨y, heap, hresult, rfl⟩ | ⟨hnone, err, rfl⟩
    · cases hfailed
    · rfl

end Engine

namespace Builtin

/-- Writing `x` gives `y`: its encoding, with the heap as it is. -/
def Written (heap : Heap) (limits : Limits) (x y : Item) (heap' : Heap) : Prop :=
  ∃ b, encode heap x limits = .ok b ∧ y = .bytes b ∧ heap' = heap

/-- Reading `x` gives `y`: what the bytes of a primitive item are decoded to. -/
def Decoded (heap : Heap) (limits : Limits) (x y : Item) (heap' : Heap) : Prop :=
  ∃ (k : Key) (data : Bytes), x = k.item ∧ x.byteForm? = some data ∧
    decode heap data limits = (.ok y, heap')

theorem serialize_exchanges (e : Engine) : e.Exchanges (Written e.heap e.limits) (serialize e) := by
  refine Engine.exchanges_report ?_ ?_
  · intro h
    exact ⟨_, by rw [serializeTop, Engine.pop_nil h]⟩
  · intro x below h
    simp only [serializeTop, Engine.pop_cons h, Engine.encodeItem, Written]
    cases encode e.heap x e.limits with
    | error err => exact .inr ⟨by simp, _, rfl⟩
    | ok b => exact .inl ⟨.bytes b, e.heap, by simp, rfl⟩

theorem deserialize_exchanges (e : Engine) :
    e.Exchanges (Decoded e.heap e.limits) (deserialize e) := by
  refine Engine.exchanges_report ?_ ?_
  · intro h
    exact ⟨_, by rw [deserializeTop, Engine.pop_nil h]⟩
  · intro x below h
    simp only [deserializeTop, Engine.pop_cons h, Decoded]
    cases hbytes : x.byteForm? with
    | none => exact .inr ⟨by simp, _, rfl⟩
    | some data =>
      obtain ⟨k, hk⟩ := Item.byteForm?_isSome_iff.mp (by rw [hbytes]; rfl)
      simp only [Engine.decodeItem]
      rcases hdecode : decode e.heap data e.limits with ⟨err | y, heap⟩
      · rw [heap_of_decode_error hdecode]
        exact .inr ⟨by simp [hdecode], _, rfl⟩
      · refine .inl ⟨y, heap, fun y' heap' => ?_, rfl⟩
        constructor
        · rintro ⟨_, data', -, hdata, hdecode'⟩
          cases hdata
          rw [hdecode] at hdecode'
          cases hdecode'
          exact ⟨rfl, rfl⟩
        · rintro ⟨rfl, rfl⟩
          exact ⟨k, data, hk, rfl, hdecode⟩

/-- Reading looks at nothing of its operand but the bytes. -/
theorem deserialize_congr {e : Engine} {x x' : Item} {below : List Item} {data : Bytes}
    (hx : x.byteForm? = some data) (hx' : x'.byteForm? = some data) :
    deserialize { e with stack := ⟨x :: below⟩ } =
      deserialize { e with stack := ⟨x' :: below⟩ } := by
  unfold deserialize deserializeTop
  rw [Engine.pop_cons rfl, Engine.pop_cons rfl]
  simp only [hx, hx']

end Builtin

open Builtin

/-- The calls of the two codec syscalls, on any host that offers the built-in ones and with enough
gas. Each takes exactly its price, whatever it answers. Writing then exchanges the top of the stack
for its encoding, with the heap as it is. Reading exchanges a primitive item for what its bytes are
decoded to; the heap gains containers behind those it has, which refer to one another only, and two
operands with the same bytes get the same reply. In all else the engine stays as it was; a call that
fails has taken the operand and left the heap alone, and on an empty stack it has only been paid. -/
theorem codec_calls_exchange (r : Registry) (e : Engine)
    (hoffers : ∀ c ∈ table, r.find? c.name = some c)
    (hgas : e.gas.used.toNat + price.toNat ≤ e.gas.limit.toNat) :
    (∃ meter, e.gas.Takes ⟨serializeName, price⟩ meter ∧
      ({ e with gas := meter } : Engine).Exchanges (Written e.heap e.limits)
        (r.invoke serializeName e)) ∧
    (∃ meter, e.gas.Takes ⟨deserializeName, price⟩ meter ∧
      ({ e with gas := meter } : Engine).Exchanges (Decoded e.heap e.limits)
        (r.invoke deserializeName e)) ∧
    (∀ x y heap', Decoded e.heap e.limits x y heap' →
      ∃ arrays maps, Apart e.heap heap' [y] arrays maps) ∧
    ∀ x x' below data, x.byteForm? = some data → x'.byteForm? = some data →
      r.invoke deserializeName { e with stack := ⟨x :: below⟩ } =
        r.invoke deserializeName { e with stack := ⟨x' :: below⟩ } := by
  have hserialize : r.find? serializeName = some ⟨serializeName, serialize, price⟩ :=
    hoffers ⟨serializeName, serialize, price⟩ (by simp [table])
  have hdeserialize : r.find? deserializeName = some ⟨deserializeName, deserialize, price⟩ :=
    hoffers ⟨deserializeName, deserialize, price⟩ (by simp [table])
  obtain ⟨paid, hpaid⟩ := GasMeter.exists_takes (c := ⟨serializeName, price⟩) hgas
  obtain ⟨paid', hpaid'⟩ := GasMeter.exists_takes (c := ⟨deserializeName, price⟩) hgas
  refine ⟨⟨paid, hpaid, ?_⟩, ⟨paid', hpaid', ?_⟩, ?_, ?_⟩
  · rw [(Registry.invoke_paid hserialize hpaid.accepted).2]
    exact serialize_exchanges _
  · rw [(Registry.invoke_paid hdeserialize hpaid'.accepted).2]
    exact deserialize_exchanges _
  · rintro x y heap' ⟨_, _, -, -, hdecode⟩
    exact decode_apart hdecode
  · intro x x' below data hx hx'
    have called (z : Item) : r.invoke deserializeName { e with stack := ⟨z :: below⟩ } =
        deserialize { e with stack := ⟨z :: below⟩, gas := paid' } :=
      (Registry.invoke_paid (e := { e with stack := ⟨z :: below⟩ }) hdeserialize hpaid'.accepted).2
    rw [called, called]
    exact deserialize_congr (e := { e with gas := paid' }) hx hx'

/-- The encoding of an empty struct is on top, and the gas suffices for one call. -/
def structOnTop : Engine where
  container := ⟨0⟩
  stack := ⟨[.bytes [0x81, 0x00], .boolean true]⟩
  gas := .withLimit 1

/-- Reading the encoding leaves a struct in its place, and all gas is used up; the byte one and the
boolean true are read alike. -/
theorem codec_calls_exchange_struct :
    ((∀ c ∈ table, Registry.builtin.1.find? c.name = some c) ∧
      structOnTop.gas.used.toNat + price.toNat ≤ structOnTop.gas.limit.toNat) ∧
    (∃ meter, meter.used.toNat = 1 ∧
      let reply := Registry.builtin.1.invoke deserializeName structOnTop
      reply.succeeded = true ∧
        reply.engine = { structOnTop with
          gas := meter
          stack := ⟨[.struct ⟨0⟩, .boolean true]⟩
          heap := ⟨#[[]], #[]⟩ }) ∧
    Registry.builtin.1.invoke deserializeName { structOnTop with stack := ⟨[.bytes [1]]⟩ } =
      Registry.builtin.1.invoke deserializeName { structOnTop with stack := ⟨[.boolean true]⟩ } := by
  have hoffers : ∀ c ∈ table, Registry.builtin.1.find? c.name = some c :=
    fun c hc => Registry.find?_builtin_iff.mpr ⟨hc, rfl⟩
  have hgas : structOnTop.gas.used.toNat + price.toNat ≤ structOnTop.gas.limit.toNat := by decide
  have hdecode : decode .empty [0x81, 0x00] {} = (.ok (.struct ⟨0⟩), ⟨#[[]], #[]⟩) := by
    decide +kernel
  obtain ⟨-, ⟨meter, htakes, hexchange⟩, -, hcongr⟩ :=
    codec_calls_exchange Registry.builtin.1 structOnTop hoffers hgas
  have hpushes := (hexchange.pushes_iff (.bytes [0x81, 0x00]) [.boolean true] (.struct ⟨0⟩)
    ⟨#[[]], #[]⟩ rfl).mpr ⟨.bytes [0x81, 0x00], [0x81, 0x00], rfl, rfl, hdecode⟩
  exact ⟨⟨hoffers, hgas⟩, ⟨meter, htakes.used, hpushes⟩,
    hcongr (.bytes [1]) (.boolean true) [] [1] rfl rfl⟩

end ScriptHost

import ScriptHost.Proofs.Footprint
import ScriptHost.Proofs.HeapCall
import ScriptHost.Syscall.Registry

/-!
# ScriptHost.Proofs.ClosedRuns

Engines without dangling handles. An engine is closed if the items on its stack and in its heap
have good handles. Each operation keeps it closed, whether it succeeds or not
(`Engine.Closed.perform`): what it makes is made of good items, what a failed decoding drops came
with that decoding, and a handle that comes from outside has to be good when it comes. So an engine
stays closed along every run, and writing the top of its stack cannot fail for the heap.
-/

namespace ScriptHost

/-- What can happen to an engine. -/
inductive Operation
  | call (name : String)
  | pop
  | push (x : Item)
  | loadScript (script : Bytes)
  | loadByHash (hash : ScriptHash)
  | unload
  | heap (c : HeapCall)

/-- The items that come from outside. -/
def Operation.arguments : Operation → List Item
  | push x => [x]
  | heap c => c.arguments
  | call _ | pop | loadScript _ | loadByHash _ | unload => []

namespace Engine

/-- The engine after the operation, whether it succeeds or not. -/
def perform (e : Engine) : Operation → Engine
  | .call name => (Registry.builtin.1.invoke name e).engine
  | .pop => e.pop.2
  | .push x => e.push x
  | .loadScript script => (e.loadScript script).2
  | .loadByHash hash => (e.loadByHash hash).2
  | .unload => e.unload.2
  | .heap c => { e with heap := e.heap.perform c }

/-- Operations one after the other; a handle that comes from outside is good when it comes. -/
inductive Runs (e : Engine) : Engine → Prop
  | refl : e.Runs e
  | step {e' : Engine} {op : Operation} :
      e.Runs e' → (∀ x ∈ op.arguments, e'.heap.Resolves x) → e.Runs (e'.perform op)

/-- The items on the stack and those inside the heap have good handles, and no map has a key
twice. -/
structure Closed (e : Engine) : Prop where
  stack : ∀ x ∈ e.stack.items, e.heap.Resolves x
  heap : e.heap.Closed

namespace Closed

variable {e e' : Engine} {x y : Item} {data : Bytes}

/-! ## The parts of an operation -/

theorem congr (h : e.Closed) (hstack : e'.stack = e.stack) (hheap : e'.heap = e.heap) :
    e'.Closed :=
  ⟨by rw [hstack, hheap]; exact h.stack, by rw [hheap]; exact h.heap⟩

theorem push (h : e.Closed) (hx : e.heap.Resolves x) : (e.push x).Closed where
  stack := by
    intro y hy
    rcases List.mem_cons.mp hy with rfl | hy
    · exact hx
    · exact h.stack y hy
  heap := h.heap

theorem of_pop (h : e.Closed) {r : Except EngineError Item} (hpop : e.pop = (r, e')) :
    e'.Closed := by
  rcases pop_cases hpop with ⟨_, rfl⟩ | ⟨x, rest, hitems, _, rfl⟩
  · exact h
  · exact ⟨fun y hy => h.stack y (hitems ▸ List.mem_cons_of_mem x hy), h.heap⟩

theorem resolves_of_pop (h : e.Closed) (hpop : e.pop = (.ok x, e')) : e'.heap.Resolves x := by
  rcases pop_cases hpop with ⟨herr, _⟩ | ⟨y, rest, hitems, hok, rfl⟩
  · cases herr
  · cases hok
    exact h.stack x (hitems ▸ List.mem_cons_self)

/-- What stays behind has good handles after a change of the heap that loses no place. -/
theorem setHeap {heap : Heap} (h : e.Closed) (hheap : heap.Closed)
    (hkeeps : ∀ s, e.heap.Has s → heap.Has s) : { e with heap := heap }.Closed :=
  ⟨fun x hx => (h.stack x hx).mono hkeeps, hheap⟩

theorem charge (h : e.Closed) (name : String) (amount : UInt64) :
    (e.charge name amount).2.Closed :=
  h.congr rfl rfl

theorem decodeItem_ok (h : e.Closed) (hdecode : e.decodeItem data = (.ok y, e')) :
    e'.Closed ∧ e'.heap.Resolves y := by
  simp only [decodeItem] at hdecode
  rcases hrun : decode e.heap data e.limits with ⟨r, heap⟩
  rw [hrun] at hdecode
  cases hdecode
  obtain ⟨hclosed, hy⟩ := h.heap.decode hrun
  obtain ⟨arrays, maps, hapart⟩ := decode_apart hrun
  refine ⟨h.setHeap hclosed fun s hs => ?_, hy⟩
  rw [hapart.eq_add]
  exact hs.add arrays maps

theorem decodeItem_error (h : e.Closed) {err : DecodeError}
    (hdecode : e.decodeItem data = (.error err, e')) : e'.Closed := by
  simp only [decodeItem] at hdecode
  rcases hrun : decode e.heap data e.limits with ⟨r, heap⟩
  rw [hrun] at hdecode
  cases hdecode
  exact h.congr rfl (heap_of_decode_error hrun)

/-! ## The syscalls -/

theorem serializeTop (h : e.Closed) : (Builtin.serializeTop e).2.Closed := by
  unfold Builtin.serializeTop
  split
  · rename_i hpop
    exact h.of_pop hpop
  · rename_i x e' hpop
    split
    · exact h.of_pop hpop
    · exact (h.of_pop hpop).push trivial

theorem deserializeTop (h : e.Closed) : (Builtin.deserializeTop e).2.Closed := by
  unfold Builtin.deserializeTop
  split
  · rename_i hpop
    exact h.of_pop hpop
  · rename_i x e' hpop
    have hrest := h.of_pop hpop
    split
    · exact hrest
    · split
      · rename_i hdecode
        exact hrest.decodeItem_error hdecode
      · rename_i y e'' hdecode
        obtain ⟨hclosed, hy⟩ := hrest.decodeItem_ok hdecode
        exact hclosed.push hy

theorem pushHash (h : e.Closed) (context : Option Context) :
    (Builtin.pushHash context e).engine.Closed := by
  cases context with
  | none => exact h.push trivial
  | some c => exact h.push trivial

theorem handler (h : e.Closed) {c : Syscall} (hc : c ∈ Builtin.table) :
    (c.handler e).engine.Closed := by
  simp only [Builtin.table, List.mem_cons, List.not_mem_nil, or_false] at hc
  rcases hc with rfl | rfl | rfl | rfl | rfl | rfl
  · exact h.push trivial
  · exact h.pushHash _
  · exact h.pushHash _
  · exact h.pushHash _
  · simp only [Builtin.serialize, Builtin.engine_report]
    exact h.serializeTop
  · simp only [Builtin.deserialize, Builtin.engine_report]
    exact h.deserializeTop

theorem invoke (h : e.Closed) {r : Registry}
    (hr : ∀ name c, r.find? name = some c → c ∈ Builtin.table) (name : String) :
    (r.invoke name e).engine.Closed := by
  unfold Registry.invoke
  split
  · exact h
  · rename_i c hfind
    have hcharged := h.charge name c.price
    split
    · rename_i hpay
      rw [hpay] at hcharged
      exact hcharged
    · rename_i hpay
      rw [hpay] at hcharged
      exact hcharged.handler (hr name c hfind)

/-! ## Operations and runs -/

theorem perform (h : e.Closed) {op : Operation} (hargs : ∀ x ∈ op.arguments, e.heap.Resolves x) :
    (e.perform op).Closed := by
  cases op with
  | call name =>
    rw [Engine.perform]
    exact h.invoke (fun _ _ hfind => (Registry.find?_builtin_iff.mp hfind).1) name
  | pop => exact h.of_pop rfl
  | push x => exact h.push (hargs x List.mem_cons_self)
  | loadScript script => exact h.congr rfl rfl
  | loadByHash hash =>
    simp only [Engine.perform, Engine.loadByHash]
    split
    · exact h
    · split
      · exact h
      · exact h.congr rfl rfl
  | unload => exact h.congr rfl rfl
  | heap c =>
    have hchange := Heap.perform_changes e.heap c
    exact h.setHeap (hchange.closed h.heap hargs) fun s hs => hchange.has hs

theorem runs (h : e.Closed) (hrun : e.Runs e') : e'.Closed := by
  induction hrun with
  | refl => exact h
  | step _ hargs ih => exact ih.perform hargs

/-- Writing the top of the stack can fail, but not for a bad handle. -/
theorem serializeTop_ne_heap_error (h : e.Closed) (err : HeapError) (e' : Engine) :
    Builtin.serializeTop e ≠ (.error (.encode (.heap err)), e') := by
  unfold Builtin.serializeTop
  split
  · simp
  · rename_i x e₁ hpop
    have hwhole := (h.of_pop hpop).heap.whole (h.resolves_of_pop hpop)
    split
    · rename_i encodeErr hencode
      intro heq
      cases heq
      exact encode_ne_heap_error hwhole _ err hencode
    · simp

end Closed

end Engine

/-- On a closed engine, whatever built-in syscalls are called, scripts loaded or unloaded, items
popped, good items pushed and good items put into containers, the engine stays closed. So when the
engine pays for writing the top of its stack, that does not fail for a bad handle. -/
theorem runs_closed {e e' : Engine} (hrun : e.Runs e') (h : e.Closed) :
    e'.Closed ∧
      ∀ paid, e'.charge Builtin.serializeName Builtin.price = (.ok (), paid) →
        Registry.builtin.1.invoke Builtin.serializeName e' =
          Builtin.report Builtin.serializeName (Builtin.serializeTop paid) ∧
        ∀ err after, Builtin.serializeTop paid ≠ (.error (.encode (.heap err)), after) := by
  have hclosed := h.runs hrun
  refine ⟨hclosed, ?_⟩
  intro paid hpay
  have hpaid : paid.Closed := by
    have := hclosed.charge Builtin.serializeName Builtin.price
    rw [hpay] at this
    exact this
  have hfind : Registry.builtin.1.find? Builtin.serializeName =
      some ⟨Builtin.serializeName, Builtin.serialize, Builtin.price⟩ :=
    Registry.find?_builtin_iff.mpr ⟨by simp [Builtin.table], rfl⟩
  exact ⟨Registry.invoke_of_find? hfind hpay, hpaid.serializeTop_ne_heap_error⟩

/-- On the stack, the bytes of an array that holds a map, above an array that is there already. -/
def encodedOnTop : Engine where
  container := ⟨0⟩
  stack := ⟨[.bytes [0x80, 0x01, 0x82, 0x00], .array ⟨0⟩]⟩
  heap := mapInArray
  gas := .withLimit 2

/-- The bytes are decoded, and the new map gets the old array for a value. -/
def decodedOnTop : Engine :=
  (encodedOnTop.perform (.call Builtin.deserializeName)).perform
    (.heap (.mapInsert ⟨1⟩ (.boolean true) (.array ⟨0⟩)))

theorem runs_closed_decodedOnTop :
    encodedOnTop.Runs decodedOnTop ∧ encodedOnTop.Closed ∧ decodedOnTop.Closed ∧
      ∃ paid, decodedOnTop.charge Builtin.serializeName Builtin.price = (.ok (), paid) ∧
        ∀ err after, Builtin.serializeTop paid ≠ (.error (.encode (.heap err)), after) := by
  obtain ⟨hdecoded, hgas⟩ : (encodedOnTop.perform (.call Builtin.deserializeName)).heap =
      mapInArray.add [[.map ⟨1⟩]] [.empty] ∧ ¬decodedOnTop.gas.remaining < Builtin.price := by
    decide +kernel
  have hrun : encodedOnTop.Runs decodedOnTop := by
    refine .step (.step .refl (by simp [Operation.arguments])) ?_
    rw [hdecoded]
    simp [Operation.arguments, HeapCall.arguments, Heap.resolves_iff, Item.slot?, Heap.Has,
      mapInArray]
  have hclosed : encodedOnTop.Closed := {
    stack := by simp [encodedOnTop, mapInArray, Heap.resolves_iff, Item.slot?, Heap.Has]
    heap := mapInArray_closed }
  obtain ⟨paid, hpay⟩ :
      ∃ paid, decodedOnTop.charge Builtin.serializeName Builtin.price = (.ok (), paid) := by
    simp only [Engine.charge, GasMeter.charge, if_neg hgas]
    exact ⟨_, rfl⟩
  obtain ⟨hclosed', hwrites⟩ := runs_closed hrun hclosed
  exact ⟨hrun, hclosed, hclosed', paid, hpay, (hwrites paid hpay).2⟩

end ScriptHost

import ScriptHost.Proofs.Footprint
import ScriptHost.Proofs.HeapCall

/-!
# ScriptHost.Proofs.Isolation

A decoded item shares no container with the values that were there before. Writing the one into
containers of the other makes references, but the containers stay apart: calls that target old
containers only never show in what the decoded item is written as, and calls that target only what
came with it or later never show in an old value.
-/

namespace ScriptHost

/-- Under any limits, calls that target only containers from before the decoding leave what comes of
writing the decoded item as it was right after, and calls that target none of them leave what comes
of writing an item as it was before, if the item reached no dangling handle then. The arguments of
the calls do not matter. -/
theorem decode_isolated {heap heap' : Heap} {data : Bytes} {limits : Limits} {y : Item}
    (h : decode heap data limits = (.ok y, heap')) (calls : List HeapCall) :
    ((∀ c ∈ calls, ∀ s, c.target? = some s → heap.Has s) → ∀ limits',
      encode (heap'.performAll calls) y limits' = encode heap' y limits') ∧
    ((∀ c ∈ calls, ∀ s, c.target? = some s → ¬heap.Has s) → ∀ x, heap.Whole x → ∀ limits',
      encode (heap'.performAll calls) x limits' = encode heap x limits') := by
  obtain ⟨arrays, maps, hapart⟩ := decode_apart h
  refine ⟨?_, ?_⟩
  · intro htargets limits'
    refine encode_congr (fun z hz s hs => ?_) limits'
    obtain ⟨hhas, hnew⟩ := hapart.added_of_reaches (List.mem_singleton_self y) hz hs
    refine Heap.sameAt_performAll hhas ?_
    intro c hc htarget
    exact hnew (htargets c hc s htarget)
  · intro htargets x hx limits'
    refine encode_congr (fun z hz s hs => ?_) limits'
    have hhas : heap.Has s := Heap.resolves_iff.mp (hx z hz) s hs
    obtain rfl := hapart.eq_add
    have hdecoded := hhas.sameAt_of_extends (Heap.extends_add heap arrays maps)
    refine hdecoded.trans (Heap.sameAt_performAll (hhas.add arrays maps) ?_)
    intro c hc htarget
    exact htargets c hc s htarget hhas

/-- An array that holds an empty array, decoded behind an array that holds a map. Then the outer
array is put into the old map, or the old array into the inner one. -/
theorem decode_isolated_mapInArray :
    decode mapInArray [0x80, 0x01, 0x80, 0x00] {} =
      (.ok (.array ⟨2⟩), mapInArray.add [[], [.array ⟨1⟩]] []) ∧
    (∀ limits,
      encode ((mapInArray.add [[], [.array ⟨1⟩]] []).performAll
          [.mapInsert ⟨0⟩ (.boolean true) (.array ⟨2⟩)]) (.array ⟨2⟩) limits =
        encode (mapInArray.add [[], [.array ⟨1⟩]] []) (.array ⟨2⟩) limits) ∧
    mapInArray.Whole (.array ⟨0⟩) ∧
    ∀ limits,
      encode ((mapInArray.add [[], [.array ⟨1⟩]] []).performAll
          [.pushItem ⟨1⟩ (.array ⟨0⟩), .newMap, .mapInsert ⟨1⟩ (.boolean true) (.array ⟨2⟩)])
        (.array ⟨0⟩) limits = encode mapInArray (.array ⟨0⟩) limits := by
  have hdecode : decode mapInArray [0x80, 0x01, 0x80, 0x00] {} =
      (.ok (.array ⟨2⟩), mapInArray.add [[], [.array ⟨1⟩]] []) := by
    decide +kernel
  have hwhole : mapInArray.Whole (.array ⟨0⟩) := mapInArray_closed.whole ⟨_, rfl⟩
  refine ⟨hdecode, (decode_isolated hdecode _).1 ?_, hwhole,
    (decode_isolated hdecode _).2 ?_ _ hwhole⟩
  · simp [HeapCall.target?, Heap.Has, mapInArray]
  · simp [HeapCall.target?, Heap.Has, mapInArray]

end ScriptHost

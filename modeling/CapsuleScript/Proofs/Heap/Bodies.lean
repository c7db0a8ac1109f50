import CapsuleScript.Proofs.Evaluation.Operations

/-! The bodies of the functions of a heap. Every function is made from a node that was evaluated or
copied from another one, so a property of bodies that holds of all of them is kept by every
operation that adds none without it. -/

namespace CapsuleScript.Heap

variable {P : Node → Prop} {h k : Heap}

/-- The body of every function passes the test. -/
def Bodies (P : Node → Prop) (h : Heap) : Prop := ∀ g, P (h.function g).body

namespace Bodies

theorem of_functions (hh : h.Bodies P) (hfunctions : k.functions = h.functions) : k.Bodies P := by
  intro g
  rw [function_congr hfunctions]
  exact hh g

theorem addFunction (hh : h.Bodies P) {data : Function} (hdata : P data.body) :
    (h.addFunction data).Bodies P := by
  intro g
  rw [function_addFunction]
  split
  · exact hdata
  · exact hh g

theorem initializeFrom (hh : h.Bodies P) (g source : FunctionId) :
    (h.initializeFrom g source).Bodies P := by
  intro u
  rw [function_initializeFrom]
  split
  · exact hh source
  · exact hh u

mutual

theorem rehome (f : FrameId) : (v : Value) → {h : Heap} → h.Bodies P →
    (Heap.rehome f v h).2.Bodies P
  | .function g, h, hh => by
      rw [Heap.rehome]
      split
      · exact hh.addFunction (hh g)
      · exact hh
  | .list elements, _, hh => rehomeAll f elements hh
  | .number _, _, hh | .bool _, _, hh | .null, _, hh | .text _, _, hh | .encap .., _, hh
  | .empty, _, hh => hh

theorem rehomeAll (f : FrameId) : (values : List Value) → {h : Heap} → h.Bodies P →
    (Heap.rehomeAll f values h).2.Bodies P
  | [], _, hh => hh
  | v :: rest, _, hh => rehomeAll f rest (rehome f v hh)

end

theorem splice (hh : h.Bodies P) (t link : TableId) : (h.splice t link).2.Bodies P := by
  by_cases hmem : t ∈ h.chain link
  · rw [splice_of_mem hmem]
    exact hh
  · rw [splice_of_not_mem hmem]
    exact hh.of_functions rfl

theorem cut (hh : h.Bodies P) (around t : TableId) : (Evaluation.cut h around t).Bodies P := by
  unfold Evaluation.cut
  split
  · exact hh.of_functions rfl
  · exact hh

theorem callFrame (hh : h.Bodies P) (callee : Function) (arguments : List Value) (span : Span) :
    (Evaluation.callFrame callee arguments span h).2.Bodies P := by
  rw [callFrame_eq]
  exact hh.of_functions rfl

theorem objectScope (hh : h.Bodies P) (span : Span) (typeName : Option String) (strict : Bool)
    (body : FrameId) (fields : Bindings Value) :
    (Evaluation.objectScope span typeName strict body fields h).2.Bodies P := by
  cases strict <;> exact hh.of_functions rfl

end Bodies

end CapsuleScript.Heap

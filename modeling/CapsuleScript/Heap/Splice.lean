import CapsuleScript.Heap.Chain

/-! Splicing chains of tables. Everything visible from one table is made visible from another by
linking the end of the second chain to the first; where the chains already meet, the link is put in
just before the meeting point, so that no table loses a name that it saw. -/

namespace CapsuleScript.Heap

/-- The last table on the chain from `t`, within `steps` links, before one that is among
`visible`. -/
def splicePoint (heap : Heap) (visible : List TableId) : Nat → TableId → TableId
  | 0, t => t
  | steps + 1, t =>
    match (heap.table t).parent with
    | none => t
    | some p => if p ∈ visible then t else splicePoint heap visible steps p

/-- Makes everything visible from `link` visible from `t`, and gives the table whose parent is now
`link`. There is none, and nothing changes, if `t` is visible from `link`: the chain would become a
circle. -/
def splice (heap : Heap) (t link : TableId) : Option TableId × Heap :=
  let visible := heap.chain link
  if t ∈ visible then (none, heap)
  else
    let point := heap.splicePoint visible heap.tables.size t
    (some point, heap.setParent point (some link))

end CapsuleScript.Heap

import CapsuleScript.Heap.Basic
import CapsuleScript.Text.Escaped

/-! Tables as they are shown to someone who looks into a heap. -/

namespace CapsuleScript.Heap

/-- The names that the table `t` binds, in alphabetical order, and whether it has a parent. -/
def describe (heap : Heap) (t : TableId) : String :=
  let table := heap.table t
  let names := table.bindings.names.mergeSort (fun a b => a ≤ b)
  "Table \x7b names: [" ++ ", ".intercalate (names.map Text.quote) ++ "], has_parent: " ++
    (if table.parent.isSome then "true" else "false") ++ " \x7d"

end CapsuleScript.Heap

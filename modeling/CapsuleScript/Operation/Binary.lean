import CapsuleScript.Operation.Numeric
import CapsuleScript.Operation.Sequence
import CapsuleScript.Run

/-! Operators between two evaluated operands. The left operand decides which operators there are and
what they mean; `and` and `or` are the same for all. A failure is one of the code of both operands,
in the frame of the left one. -/

namespace CapsuleScript

namespace Capsule

/-- The members of both objects, those of `right` in place of those of `left`. -/
def mergedMembers (left right : Capsule) : Bindings Value := left.members.override right.members

/-- The two objects as one, read in a new frame that falls back on the scope of `left`. -/
def merge (left right : Capsule) (entry : Span) (heap : Heap) : Capsule × Heap :=
  let members := mergedMembers left right
  let below := heap.frame left.scope
  let (table, heap) := heap.newTable (some below.table) members
  let (scope, heap) := heap.enterTable below.label table left.scope entry
  (⟨members, [], left.types ++ right.types, scope⟩, heap)

end Capsule

namespace Operation

/-- Gives the result, or fails with the reason, of an operation on two operands. -/
def settle (left right : Stamped) : Except FaultKind Value → Run Value
  | .ok value => return value
  | .error kind => .raise (.failed (left.fault kind (left.span.through right.span)))

/-- The result of an operator whose left operand is the object `capsule`. -/
def object (op : BinaryOp) (capsule : Capsule) (left right : Stamped) : Run Value :=
  match op, right.value with
  | .add, .encap fields inherited types scope => do
    let merged ← .make (capsule.merge ⟨fields, inherited, types, scope⟩ left.span)
    return merged.toValue
  | .div, .text name => return (capsule.field? name).getD .null
  | .equal, other => return .bool (left.value.equal other)
  | .notEqual, other => return .bool !(left.value.equal other)
  | _, _ => settle left right (.error .illegalOperation)

/-- The result of an operator other than `and` and `or`. -/
def typed (op : BinaryOp) (left right : Stamped) : Run Value :=
  match left.value with
  | .number _ => settle left right (numeric op left.value right.value)
  | .bool _ => settle left right (numeric op left.value right.value)
  | .null => settle left right (numeric op left.value right.value)
  | .text s => settle left right (text op s right.value)
  | .list elements => do
    let result ← .read fun heap => list heap op elements right.value
    settle left right result
  | .encap fields inherited types scope => object op ⟨fields, inherited, types, scope⟩ left right
  | .function _ => settle left right (.error .illegalOperation)
  | .empty => settle left right (.error .illegalOperation)

/-- The result of an operator. Both operands of `and` and `or` count as true or false. -/
def binary (op : BinaryOp) (left right : Stamped) : Run Value :=
  match op with
  | .and => return .bool (left.value.isTrue && right.value.isTrue)
  | .or => return .bool (left.value.isTrue || right.value.isTrue)
  | _ => typed op left right

end Operation

end CapsuleScript

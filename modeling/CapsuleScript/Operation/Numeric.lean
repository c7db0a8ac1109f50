import CapsuleScript.Fault

/-! Operators on numbers. Truth values and `null` take part as numbers. -/

namespace CapsuleScript.Operation

/-- The result of an operator on two numbers. -/
def onNumbers (op : BinaryOp) (x y : Float) : Except FaultKind Value :=
  match op with
  | .add => .ok (.number (x + y))
  | .sub => .ok (.number (x - y))
  | .mul => .ok (.number (x * y))
  | .div => if y == 0.0 then .error .divisionByZero else .ok (.number (x / y))
  | .less => .ok (.bool (x < y))
  | .greater => .ok (.bool (x > y))
  | .lessEqual => .ok (.bool (x ≤ y))
  | .greaterEqual => .ok (.bool (x ≥ y))
  | .equal => .ok (.bool (x == y))
  | .notEqual => .ok (.bool (x != y))
  | .and => .error .illegalOperation
  | .or => .error .illegalOperation
  | .access => .error .illegalOperation

/-- The result of an operator whose left operand counts as a number. -/
def numeric (op : BinaryOp) (left right : Value) : Except FaultKind Value :=
  match left.number?, right.number? with
  | some x, some y => onNumbers op x y
  | _, _ => .error .illegalOperation

end CapsuleScript.Operation

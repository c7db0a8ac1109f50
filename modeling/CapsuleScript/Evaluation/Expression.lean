import CapsuleScript.Evaluation.Basic

/-! Expressions other than functions, loops and objects. They neither bind names nor change the
current frame. -/

namespace CapsuleScript.Evaluation

/-- A list of the values of its elements. -/
def list (sub : Evaluator) (span : Span) (elements : List Node) (f : FrameId) : Run Outcome := do
  let elements ← values sub f elements
  return give (.list elements) span f

/-- What a name means. -/
def ident (span : Span) (name : String) (f : FrameId) : Run Outcome := do
  match ← .read (·.lookup f name) with
  | some value => return give value span f
  | none => .fail (.undefinedName name) span f

/-- An operator between two operands. The right operand of an access is evaluated in the scope of
the object on its left. -/
def binary (sub : Evaluator) (span : Span) (op : BinaryOp) (left right : Node) (f : FrameId) :
    Run Outcome := do
  let left ← value sub left f
  match op with
  | .access =>
    match left.value with
    | .encap _ _ _ scope =>
      let right ← value sub right scope
      return give right.value span f
    | _ => .raise (.failed (left.fault .illegalOperation left.span))
  | op =>
    let right ← value sub right f
    return give (← Operation.binary op left right) span f

/-- An operator in front of an operand. The signs multiply by one and minus one. -/
def unary (sub : Evaluator) (span : Span) (op : UnaryOp) (operand : Node) (f : FrameId) :
    Run Outcome := do
  let operand ← value sub operand f
  let factor (x : Float) : Stamped := ⟨.number x, operand.span, operand.owner⟩
  match op with
  | .plus => return give (← Operation.binary .mul operand (factor 1.0)) span f
  | .negate => return give (← Operation.binary .mul operand (factor (-1.0))) span f
  | .not => return give (.bool !operand.value.isTrue) span f

/-- A choice. As a statement it has the value false, like a choice without the branch asked for. -/
def conditional (sub : Evaluator) (span : Span) (producesValue : Bool) (condition thenBranch : Node)
    (elseBranch : Option Node) (f : FrameId) : Run Outcome := do
  let condition ← value sub condition f
  match if condition.value.isTrue then some thenBranch else elseBranch with
  | none => return give (.bool false) span f
  | some branch =>
    let outcome ← sub branch f
    if producesValue then return outcome
    else return ⟨.of (.bool false) span f, outcome.frame⟩

/-- Evaluation in the frame that the current one was entered from. -/
def prev (sub : Evaluator) (span : Span) (expression : Node) (f : FrameId) : Run Outcome := do
  match ← .read (fun heap => (heap.frame f).parent) with
  | some parent =>
    let result ← value sub expression parent
    return give result.value span f
  | none => .fail .noParentFrame span f

end CapsuleScript.Evaluation

import CapsuleScript.Operation.Binary

/-! Evaluation of a node in a frame. It gives a value and the frame in which the next statement
runs: a statement that binds a name may open a frame for it. The parts of a node are evaluated by an
evaluator that each construct is handed. -/

namespace CapsuleScript

/-- A value, and the frame in which the next statement runs. -/
structure Outcome where
  result : Stamped
  frame : FrameId

/-- Evaluates a node in a frame. -/
abbrev Evaluator := Node → FrameId → Run Outcome

namespace Evaluation

/-- The outcome that `value` is given by the code at `span`, in the frame `f` that stays current. -/
def give (value : Value) (span : Span) (f : FrameId) : Outcome := ⟨.of value span f, f⟩

/-- The value of a node, for use in the frame `f`. -/
def value (sub : Evaluator) (node : Node) (f : FrameId) : Run Stamped := do
  let outcome ← sub node f
  return outcome.result.anchored f

/-- The values of several nodes, from the first to the last. -/
def values (sub : Evaluator) (f : FrameId) : List Node → Run (List Value)
  | [] => return []
  | node :: rest => do
    let first ← value sub node f
    return first.value :: (← values sub f rest)

/-- The frame in which the code at `span` binds `name`: the frame `f`, or a new one if `f` binds the
name already. -/
def bindingTarget (name label : String) (span : Span) (f : FrameId) : Run FrameId := do
  if ← .read (·.bindsDirectly f name) then .make (·.enter label f span) else return f

end Evaluation

end CapsuleScript

import CapsuleScript.Evaluation.Basic

/-! Statements: assignments, blocks and results. -/

namespace CapsuleScript.Evaluation

/-- Binds `name` to a value. A function given to a name that has a placeholder defines the
placeholder; any other name of the program that has a meaning already is refused. Objects, and names
that the current frame binds already, are bound in a new frame. -/
def assign (sub : Evaluator) (span : Span) (name : String) (topLevel : Bool) (node : Node)
    (f : FrameId) : Run Outcome := do
  let given ← value sub node f
  let kept ←
    match ← .read (·.placeholder? f name), given.value with
    | some placeholder, .function g => do
      Run.change (·.initializeFrom placeholder g)
      pure (.function placeholder)
    | _, other => do
      if topLevel && (← .read fun heap => (heap.lookup f name).isSome) then
        .fail (.alreadyBound name) span f
      else pure other
  let target ←
    if kept.capsule?.isSome then .make (·.enter name f span) else bindingTarget name name span f
  let bound ← .make (Heap.rehome target kept)
  Run.change (·.define target name bound)
  return give bound span target

/-- The statements of a block, one after the other, each in the frame that the one before it leaves.
A block inside the block keeps its frames to itself. -/
def statements (sub : Evaluator) : List Node → Outcome → Run Outcome
  | [], outcome => return outcome
  | statement :: rest, outcome => do
    let next ← sub statement outcome.frame
    let frame := match statement with
      | .block .. => outcome.frame
      | _ => next.frame
    statements sub rest ⟨next.result, frame⟩

/-- Statements in a frame of their own. -/
def block (sub : Evaluator) (span : Span) (body : List Node) (f : FrameId) : Run Outcome := do
  let scope ← .make (·.enter "<block>" f span)
  statements sub body (give .empty span scope)

/-- The result of a function. -/
def result (sub : Evaluator) (span : Span) (node : Option Node) (f : FrameId) : Run Outcome := do
  match node with
  | some node => .raise (.returned (← value sub node f))
  | none => .raise (.returned (.of .null span f))

end CapsuleScript.Evaluation

import CapsuleScript.Evaluation.Basic

/-! Functions: their definition, their declaration ahead of it, and calls. The body of a function
runs in a frame that was entered from the home of the function, with the parameters bound in it. -/

namespace CapsuleScript.Evaluation

/-- A function. One with a name is bound to it, and defines the placeholder that the name has. -/
def function (span : Span) (name : Option String) (params : List String) (autoReturn : Bool)
    (body : Node) (f : FrameId) : Run Outcome := do
  let g ← .make (·.newFunction ⟨name.getD "anonymous", params, body, f, autoReturn, true⟩)
  match name with
  | none => return give (.function g) span f
  | some name =>
    let target ←
      match ← .read (·.placeholder? f name) with
      | some placeholder => do
        Run.change (·.initializeFrom placeholder g)
        pure f
      | none => bindingTarget name ("--" ++ name) span f
    let bound ← .make (Heap.rehome target (.function g))
    Run.change (·.define target name bound)
    return ⟨.of bound span f, target⟩

/-- The declaration of a function: its name is bound to a placeholder. -/
def declaration (span : Span) (name : String) (placeholder : Node) (f : FrameId) : Run Outcome := do
  let target ← bindingTarget name ("--" ++ name) span f
  let g ← .make (·.newPlaceholder name placeholder target)
  Run.change (·.define target name (.function g))
  return give (.function g) span target

/-- The frame of a call at `span`, with the parameters bound to the arguments. -/
def callFrame (callee : Function) (arguments : List Value) (span : Span) (heap : Heap) :
    FrameId × Heap :=
  let (frame, heap) := heap.enter callee.name callee.home span
  (frame, (callee.params.zip arguments).foldl
    (fun heap entry => heap.define frame entry.1 entry.2) heap)

/-- The call of the function `callee`. -/
def apply (sub : Evaluator) (span : Span) (callee : Function) (arguments : List Value)
    (f : FrameId) : Run Outcome := do
  if callee.params.length < arguments.length then
    .fail (.tooManyArguments (arguments.length - callee.params.length) callee.name) span f
  else if arguments.length < callee.params.length then
    .fail (.tooFewArguments (callee.params.length - arguments.length) callee.name) span f
  else
    let frame ← .make (callFrame callee arguments span)
    match ← (sub callee.body frame).attempt with
    | .ok outcome => return give (if callee.autoReturn then outcome.result.value else .null) span f
    | .error (.returned result) => return give result.value span f
    | .error signal => .raise signal

/-- A call: the function is evaluated first, then the arguments. -/
def call (sub : Evaluator) (span : Span) (callee : Node) (arguments : List Node) (f : FrameId) :
    Run Outcome := do
  let callee ← value sub callee f
  let arguments ← values sub f arguments
  match callee.value with
  | .function g => apply sub span (← .read (·.function g)) arguments f
  | _ => .fail .illegalOperation span f

end CapsuleScript.Evaluation

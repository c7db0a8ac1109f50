import CapsuleScript.Evaluation.Basic

/-! Loops. Each turn runs in the frame that the one before it leaves, also when that one was cut
short. -/

namespace CapsuleScript.Evaluation

/-- How a turn of a loop ends: whether the loop goes on, the value of the turn if it has one, and
the frame it leaves. -/
structure Turn where
  goesOn : Bool
  result : Option Stamped
  frame : FrameId

/-- One turn of a loop with the given body, which takes up the signals that loops understand. -/
def turn (sub : Evaluator) (body : Node) (f : FrameId) : Run Turn := do
  match ← (sub body f).attempt with
  | .ok outcome => return ⟨true, some outcome.result, outcome.frame⟩
  | .error (.exited exit _ raised) =>
    return ⟨exit = .next, none, ← .read (·.resume f raised)⟩
  | .error signal => .raise signal

/-- The turns of a loop with a condition, at most `bound` of them, from the frame and with the value
that `outcome` gives. -/
def whileTurns (sub : Evaluator) (condition body : Node) : Nat → Outcome → Run Outcome
  | 0, _ => .exhausted
  | bound + 1, outcome => do
    if (← value sub condition outcome.frame).value.isTrue then
      let done ← turn sub body outcome.frame
      let outcome := ⟨done.result.getD outcome.result, done.frame⟩
      if done.goesOn then whileTurns sub condition body bound outcome else return outcome
    else return outcome

/-- A loop with a condition, of at most `bound` turns. Its value is that of its last turn. -/
def whileLoop (sub : Evaluator) (bound : Nat) (condition body : Node) (f : FrameId) : Run Outcome :=
  whileTurns sub condition body bound (give .null condition.span f)

/-- What a loop over a list has come to: the values of its turns, the last one first, the last value
and the current frame. -/
structure Progress where
  collected : List Value
  result : Stamped
  frame : FrameId

/-- Whether a turn is taken: whether there is no filter or it gives a true value. -/
def admitted (sub : Evaluator) (filter : Option Node) (f : FrameId) : Run Bool := do
  match filter with
  | none => return true
  | some filter => return (← value sub filter f).value.isTrue

/-- The turns of a loop over a list. -/
def forTurns (sub : Evaluator) (span : Span) (name : String) (body : Node) (filter : Option Node) :
    List Value → Progress → Run Progress
  | [], progress => return progress
  | element :: rest, progress => do
    let frame ← .make (·.enter "<for>" progress.frame span)
    Run.change (·.define frame name element)
    if ← admitted sub filter frame then
      let done ← turn sub body frame
      let progress : Progress :=
        match done.result with
        | some result => ⟨result.value :: progress.collected, result, done.frame⟩
        | none => ⟨progress.collected, progress.result, done.frame⟩
      if done.goesOn then forTurns sub span name body filter rest progress else return progress
    else forTurns sub span name body filter rest ⟨progress.collected, progress.result, frame⟩

/-- A loop over a list. A comprehension gives the values of its turns and leaves the current frame
as it is; a statement gives the value of its last turn and leaves the frame of that turn. -/
def forLoop (sub : Evaluator) (span : Span) (name : String) (comprehension : Bool)
    (source body : Node) (filter : Option Node) (f : FrameId) : Run Outcome := do
  let source ← value sub source f
  match source.value with
  | .list elements =>
    let progress ← forTurns sub span name body filter elements ⟨[], .of .null span f, f⟩
    if comprehension then return give (.list progress.collected.reverse) span f
    else return ⟨progress.result, progress.frame⟩
  | other => .fail (.notAList (← .read (·.render other))) span f

end CapsuleScript.Evaluation

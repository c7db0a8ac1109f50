import CapsuleScript.Evaluation.Call
import CapsuleScript.Evaluation.Expression
import CapsuleScript.Evaluation.Loop
import CapsuleScript.Evaluation.Object
import CapsuleScript.Evaluation.Statement

/-! Evaluation of all nodes and of programs. The fuel bounds how deep evaluations stand inside each
other and how many turns a loop takes; with more fuel an evaluation that ends gives the same. -/

namespace CapsuleScript

/-- The limits of an evaluation. -/
structure Limits where
  /-- How many frames of the body of a strict object may be walked. -/
  nesting : Nat := 1000

namespace Evaluation

/-- Evaluates a node with `sub` for its parts. A loop with a condition takes at most `bound` turns.
-/
def node (limits : Limits) (bound : Nat) (sub : Evaluator) : Evaluator
  | .number span x, f => return give (.number x) span f
  | .text span s, f => return give (.text s) span f
  | .list span elements, f => list sub span elements f
  | .binary span op left right, f => binary sub span op left right f
  | .unary span op operand, f => unary sub span op operand f
  | .assign span name topLevel node, f => assign sub span name topLevel node f
  | .ident span name, f => ident span name f
  | .block span _ body, f => block sub span body f
  | .conditional span producesValue condition thenBranch elseBranch, f =>
    conditional sub span producesValue condition thenBranch elseBranch f
  | .function span name params autoReturn body, f => function span name params autoReturn body f
  | .declaration span name placeholder, f => declaration span name placeholder f
  | .call span callee arguments, f => call sub span callee arguments f
  | .result span node, f => result sub span node f
  | .stopLoop span, f => .raise (.exited .stop span f)
  | .nextTurn span, f => .raise (.exited .next span f)
  | .whileLoop _ condition body, f => whileLoop sub bound condition body f
  | .forLoop span name comprehension source body filter, f =>
    forLoop sub span name comprehension source body filter f
  | .encap span typeName strict body parent, f =>
    encap sub limits.nesting span typeName strict body parent f
  | .prev span expression, f => prev sub span expression f

/-- Evaluates a node with the given fuel. -/
def eval (limits : Limits) : Nat → Evaluator
  | 0, _, _ => .exhausted
  | fuel + 1, n, f => node limits fuel (eval limits fuel) n f

/-- The statements of a program, one after the other. A result ends the program. -/
def programFrom (sub : Evaluator) : List Node → Outcome → Run Outcome
  | [], outcome => return outcome
  | statement :: rest, outcome => do
    match ← (sub statement outcome.frame).attempt with
    | .ok next => programFrom sub rest next
    | .error (.returned result) => return ⟨result, outcome.frame⟩
    | .error signal => .raise signal

/-- Evaluates a program in the frame `f`, which is its own. -/
def program (limits : Limits) (fuel : Nat) (n : Node) (f : FrameId) : Run Outcome :=
  match n with
  | .block span _ body => programFrom (eval limits fuel) body (give .empty span f)
  | n => eval limits fuel n f

end Evaluation

end CapsuleScript

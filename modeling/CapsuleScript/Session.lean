import CapsuleScript.Evaluation.Program
import CapsuleScript.Heap.Reach
import CapsuleScript.Node.Hoist
import CapsuleScript.Node.Parser.Program
import CapsuleScript.Token.Lexer

/-! Sessions. A session runs one program after the other. Each runs in a frame of its own that sees
the names of the earlier ones, and the session moves on to the frame it leaves; a program that fails
is forgotten, apart from what it changed in tables and functions that the session can reach. What
the session cannot reach any more is cleared after every run. -/

namespace CapsuleScript

/-- The program that a text is, ready to be evaluated. -/
def Node.ofSource (source text : String) : Except SourceError Node := do
  let tokens ← Token.readAll source text
  let program ← Node.ofTokens tokens
  return program.declareFunctions

/-- A text is a program if it can be cut into tokens and these can be read. -/
theorem Node.ofSource_eq_ok_iff {source text : String} {program : Node} :
    Node.ofSource source text = .ok program ↔ ∃ tokens parsed,
      Token.readAll source text = .ok tokens ∧ Node.ofTokens tokens = .ok parsed ∧
      program = parsed.declareFunctions := by
  unfold ofSource
  cases htokens : Token.readAll source text with
  | error e => simp [bind, Except.bind]
  | ok tokens =>
      cases hparsed : ofTokens tokens with
      | error e => simp [bind, Except.bind, hparsed]
      | ok parsed => simp [bind, Except.bind, pure, Except.pure, hparsed, eq_comm]

/-- The label of the frames in which programs run. -/
def moduleLabel : String := "<module>"

/-- What a session keeps between programs. -/
structure Session where
  heap : Heap
  frame : FrameId
  limits : Limits

/-- How a program ended. -/
inductive Answer where
  /-- With a value, which is shown as `text`. -/
  | shown (text : String)
  /-- It is no program. -/
  | refused (error : SourceError)
  /-- It failed, which is told by `message`. -/
  | failed (fault : Fault) (message : String)
  /-- It did not end within its fuel. -/
  | unfinished

/-- What is printed for a program. -/
def Answer.message : Answer → String
  | shown text => text
  | refused error => error.message
  | failed _ message => message
  | unfinished => ""

/-- Whether a program ended with a value. -/
def Answer.isShown : Answer → Bool
  | shown _ => true
  | _ => false

namespace Session

/-- A session in which no program has run. -/
def start (limits : Limits) : Session :=
  let (table, heap) := Heap.newTable {} none []
  let (frame, heap) := heap.newRoot moduleLabel table none
  ⟨heap.bindBuiltins table, frame, limits⟩

/-- The session after clearing what it cannot reach. -/
def collect (s : Session) : Session := { s with heap := s.heap.collect s.frame }

/-- The frame in which the next program runs. -/
def nextFrame (s : Session) : FrameId × Heap :=
  let (table, heap) := s.heap.newTable (some (s.heap.frame s.frame).table) []
  heap.detach s.frame moduleLabel table none

/-- Runs a program that has been read. -/
def execute (s : Session) (fuel : Nat) (program : Node) : Answer × Session :=
  let (frame, heap) := s.nextFrame
  match Evaluation.program s.limits fuel program frame heap with
  | .done outcome heap =>
    (.shown (heap.render outcome.result.value), { s with heap := heap, frame := outcome.frame })
  | .raised signal heap =>
    match signal.toExcept with
    | .ok result => (.shown (heap.render result.value), { s with heap := heap })
    | .error fault => (.failed fault (fault.message heap), { s with heap := heap })
  | .outOfFuel => (.unfinished, s)

/-- Runs the program `text`, known as `source`. -/
def run (s : Session) (fuel : Nat) (source text : String) : Answer × Session :=
  let (answer, next) :=
    match Node.ofSource source text with
    | .ok program => s.execute fuel program
    | .error error => (.refused error, s)
  (answer, next.collect)

end Session

end CapsuleScript

import CapsuleScript.Heap.Chain
import CapsuleScript.Number.Index

/-! What goes wrong while a program runs, and how it is told: the way on which execution came to the
failing code, the outermost frame first, and then the reason. -/

namespace CapsuleScript

/-- The sequences that are read by position. -/
inductive Container where
  | list
  | text
deriving DecidableEq

/-- The statements that only loops understand. -/
inductive LoopExit where
  | stop
  | next
deriving DecidableEq

/-- The word for such a statement. -/
def LoopExit.word : LoopExit → String
  | stop => "break"
  | next => "continue"

/-- The reasons for which a program fails. -/
inductive FaultKind where
  /-- An operator does not take such operands. -/
  | illegalOperation
  | divisionByZero
  /-- There is nothing at the position `index` of a sequence of the given length. -/
  | indexOutOfRange (container : Container) (length : Nat) (rendered : String) (index : Float)
  /-- A text of `length` bytes cannot be repeated `count` times. -/
  | textTooLong (length count : Nat)
  | undefinedName (name : String)
  /-- A call has `count` arguments too many. -/
  | tooManyArguments (count : Nat) (name : String)
  /-- A call has `count` arguments too few. -/
  | tooFewArguments (count : Nat) (name : String)
  /-- A name of the program is bound for the second time. -/
  | alreadyBound (name : String)
  | parentIsNoObject
  /-- An object inherits from one that it is created inside of. -/
  | inheritanceCycle
  | noParentFrame
  | nestingTooDeep
  /-- A loop runs over a value that is no list. -/
  | notAList (rendered : String)
  | outsideLoop (exit : LoopExit)

/-- The wording of a reason. -/
def FaultKind.message : FaultKind → String
  | illegalOperation => "illegal operation"
  | divisionByZero => "Division by zero"
  | indexOutOfRange container length rendered index =>
    let (noun, unit) := match container with
      | .list => ("List", "elements")
      | .text => ("String", "characters")
    noun ++ " has " ++ toString length ++ " " ++ unit ++ " as " ++ rendered ++ " but " ++
      Number.render index ++ " was retrieved"
  | textTooLong length count =>
    "Repeating a string of " ++ toString length ++ " bytes " ++ toString count ++
      " times exceeds the limit of " ++ toString maxRepeatedBytes ++ " bytes"
  | undefinedName name => "Undefined variable " ++ name
  | tooManyArguments count name => toString count ++ " too many args passed into '" ++ name ++ "'"
  | tooFewArguments count name => toString count ++ " too few args passed into '" ++ name ++ "'"
  | alreadyBound name => "Cannot re-initialize the variable '" ++ name ++ "'"
  | parentIsNoObject => "Encaps can only inherit from other Encaps"
  | inheritanceCycle => "Encaps cannot inherit from an Encap they are created inside of"
  | noParentFrame => "No parent context found"
  | nestingTooDeep => "Context nesting depth allowed inside Sencaps exceeded"
  | notAList rendered => rendered ++ " must be a list"
  | outsideLoop exit => "'" ++ exit.word ++ "' used outside of a loop"

/-- A failure: its reason, the failing code and the frame that was executing it, if that frame is
known. -/
structure Fault where
  kind : FaultKind
  span : Span
  frame : Option FrameId

namespace Fault

/-- The lines for the given frames, the first of which execution left at `position`. A frame that
was entered at an unknown place leaves the one before it at line zero of `source`. -/
def traceLines (heap : Heap) (source : String) : Option Span → List FrameId → List String
  | _, [] => []
  | position, f :: rest =>
    let frame := heap.frame f
    let name := position.elim source Span.source
    let line := position.elim 0 Span.lineNumber
    ("File: " ++ name ++ ", line: " ++ toString line ++ " " ++ frame.label ++ " main") ::
      traceLines heap source frame.entry rest

/-- The way on which execution came to the failing code, the outermost frame first. -/
def traceback (heap : Heap) (fault : Fault) : List String :=
  (traceLines heap fault.span.source (some fault.span)
    (fault.frame.elim [] heap.ancestry)).reverse

/-- The text shown for a failure. -/
def message (heap : Heap) (fault : Fault) : String :=
  let lines := (fault.traceback heap).map (· ++ "\n")
  "Error Traceback, (Most recent call last):\n" ++ String.join lines ++ "Runtime Error: " ++
    fault.kind.message

end Fault

end CapsuleScript

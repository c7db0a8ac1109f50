import CapsuleScript.Fault
import CapsuleScript.Value.Equality

/-! Operators on texts and lists. Texts are counted in characters, their repetition is limited in
bytes. Subtraction takes the head off a text and one element out of a list; division reads at a
position. -/

namespace CapsuleScript

/-- The text `s` repeated `count` times. -/
def repeatText (s : String) (count : Nat) : String :=
  if count = 0 then ""
  else
    let half := repeatText s (count / 2)
    if count % 2 = 0 then half ++ half else half ++ half ++ s
termination_by count

namespace Operation

/-- The result of an operator on two texts. -/
def onTexts (op : BinaryOp) (s t : String) : Except FaultKind Value :=
  match op with
  | .add => .ok (.text (s ++ t))
  | .equal => .ok (.bool (s == t))
  | .notEqual => .ok (.bool (s != t))
  | _ => .error .illegalOperation

/-- The result of an operator on a text and a number. -/
def onTextAndNumber (op : BinaryOp) (s : String) (x : Float) : Except FaultKind Value :=
  let length := s.length
  match op with
  | .sub =>
    match Number.splitOffset? x length with
    | some offset => .ok (.text (s.drop offset).copy)
    | none => .error (.indexOutOfRange .text length s x)
  | .mul =>
    match Number.repeatCount? x with
    | some count =>
      if (Number.repeatedLength? s.utf8ByteSize count).isSome then .ok (.text (repeatText s count))
      else .error (.textTooLong s.utf8ByteSize count)
    | none => .error .illegalOperation
  | .div =>
    match Number.elementIndex? x length with
    | some index => .ok (.text ((s.drop index).take 1).copy)
    | none => .error (.indexOutOfRange .text length s x)
  | _ => .error .illegalOperation

/-- The result of an operator whose left operand is the text `s`. -/
def text (op : BinaryOp) (s : String) (right : Value) : Except FaultKind Value :=
  match right with
  | .text t => onTexts op s t
  | _ =>
    match right.number? with
    | some x => onTextAndNumber op s x
    | none => .error .illegalOperation

/-- The position in a list that an operand names. -/
def listIndex (heap : Heap) (elements : List Value) (right : Value) : Except FaultKind Nat :=
  match right.number? with
  | some x =>
    match Number.elementIndex? x elements.length with
    | some index => .ok index
    | none => .error (.indexOutOfRange .list elements.length (heap.render (.list elements)) x)
  | none => .error .illegalOperation

/-- The result of an operator whose left operand is a list. -/
def list (heap : Heap) (op : BinaryOp) (elements : List Value) (right : Value) :
    Except FaultKind Value :=
  match op with
  | .add => .ok (.list (elements ++ [right]))
  | .sub => (listIndex heap elements right).map fun index => .list (elements.eraseIdx index)
  | .mul =>
    match right with
    | .list others => .ok (.list (elements ++ others))
    | _ => .error .illegalOperation
  | .div => (listIndex heap elements right).map fun index => elements.getD index .null
  | .equal => .ok (.bool (Value.equal (.list elements) right))
  | .notEqual => .ok (.bool !(Value.equal (.list elements) right))
  | _ => .error .illegalOperation

end Operation

end CapsuleScript

import CapsuleScript.Operation.Numeric
import CapsuleScript.Operation.Sequence

/-! Operators on numbers and texts give plain values: numbers, truth values and texts. -/

namespace CapsuleScript

/-- A number, a truth value or a text. -/
def Value.IsPlain : Value → Prop
  | .number _ => True
  | .bool _ => True
  | .text _ => True
  | _ => False

namespace Operation

theorem isPlain_onNumbers {op : BinaryOp} {x y : Float} {v : Value} (hv : onNumbers op x y = .ok v) :
    v.IsPlain := by
  cases op <;> simp only [onNumbers] at hv
  case div =>
    split at hv
    · cases hv
    · cases hv
      trivial
  all_goals cases hv
  all_goals trivial

theorem isPlain_numeric {op : BinaryOp} {left right v : Value} (hv : numeric op left right = .ok v) :
    v.IsPlain := by
  unfold numeric at hv
  split at hv
  · exact isPlain_onNumbers hv
  · cases hv

theorem isPlain_onTextAndNumber {op : BinaryOp} {s : String} {x : Float} {v : Value}
    (hv : onTextAndNumber op s x = .ok v) : v.IsPlain := by
  cases op <;> simp only [onTextAndNumber] at hv
  case sub =>
    split at hv
    · cases hv
      trivial
    · cases hv
  case mul =>
    split at hv
    · split at hv
      · cases hv
        trivial
      · cases hv
    · cases hv
  case div =>
    split at hv
    · cases hv
      trivial
    · cases hv
  all_goals cases hv

theorem isPlain_text {op : BinaryOp} {s : String} {right v : Value} (hv : text op s right = .ok v) :
    v.IsPlain := by
  unfold text at hv
  split at hv
  · cases op <;> cases hv <;> trivial
  · split at hv
    · exact isPlain_onTextAndNumber hv
    · cases hv

end Operation

end CapsuleScript

import CapsuleScript.Number.Text
import CapsuleScript.Value.Basic

/-! Values as they are shown: texts without quotes, lists in brackets, functions and objects by
name. -/

namespace CapsuleScript.Value

mutual

/-- The text of a value, with `nameOf` giving the names of functions. -/
def render (nameOf : FunctionId → String) : Value → String
  | .number x => Number.render x
  | .bool b => if b then "true" else "false"
  | .null => "null"
  | .text s => s
  | .list elements => "[" ++ ", ".intercalate (renderAll nameOf elements) ++ "]"
  | .function id => "<" ++ nameOf id ++ ">"
  | .encap _ _ types _ => "<" ++ types.getLast?.getD "Anonymous" ++ " Instance>"
  | .empty => ""

/-- The texts of several values. -/
def renderAll (nameOf : FunctionId → String) : List Value → List String
  | [] => []
  | value :: rest => render nameOf value :: renderAll nameOf rest

end

end CapsuleScript.Value

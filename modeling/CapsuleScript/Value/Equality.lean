import CapsuleScript.Value.Basic

/-! When two values are equal: numbers, truth values and `null` as numbers, texts by their
characters, lists element by element, and objects if each member of one equals the member of the
other of the same name. Functions are equal to nothing. -/

namespace CapsuleScript.Value

mutual

/-- Whether two values are equal. -/
def equal : Value → Value → Bool
  | .text s, .text t => s == t
  | .list xs, .list ys => equalAll xs ys
  | .encap fields inherited types scope, .encap fields' inherited' types' scope' =>
    let left := Capsule.members ⟨fields, inherited, types, scope⟩
    let right := Capsule.members ⟨fields', inherited', types', scope'⟩
    left.length == right.length && matched [] right fields &&
      matched (Bindings.names fields) right inherited
  | a, b =>
    match a.number?, b.number? with
    | some x, some y => x == y
    | _, _ => false

/-- Whether two lists are equal element by element. -/
def equalAll : List Value → List Value → Bool
  | [], [] => true
  | x :: xs, y :: ys => equal x y && equalAll xs ys
  | _, _ => false

/-- Whether each entry whose name is not among `hidden` equals the member of that name. -/
def matched (hidden : List String) (members : Bindings Value) : List (String × Value) → Bool
  | [] => true
  | (name, value) :: rest =>
    (hidden.contains name || (members.get? name).elim false (fun other => equal value other)) &&
      matched hidden members rest

end

end CapsuleScript.Value

import CapsuleScript.Bindings

/-! The values that programs compute with. Functions and the scopes of objects are numbers into a
heap, which holds what they share. -/

namespace CapsuleScript

/-- The number of a table of names. -/
structure TableId where
  index : Nat
deriving DecidableEq

/-- The number of a frame. -/
structure FrameId where
  index : Nat
deriving DecidableEq

/-- The number of a function. -/
structure FunctionId where
  index : Nat
deriving DecidableEq

/-- A value. -/
inductive Value where
  | number (value : Float)
  | bool (value : Bool)
  | null
  | text (value : String)
  | list (elements : List Value)
  | function (id : FunctionId)
  /-- An object: what its body binds, what it has from the object it inherits from, its type names
  from the oldest to its own, and the frame in which its members are read. -/
  | encap (fields inherited : List (String × Value)) (types : List String) (scope : FrameId)
  /-- The value of a program without declarations. -/
  | empty

/-- The parts of an object. -/
structure Capsule where
  fields : Bindings Value
  inherited : Bindings Value
  types : List String
  scope : FrameId

namespace Capsule

/-- The object as a value. -/
def toValue (c : Capsule) : Value := .encap c.fields c.inherited c.types c.scope

/-- Every member of the object, its own fields in place of inherited ones. -/
def members (c : Capsule) : Bindings Value := c.inherited.override c.fields

/-- The member `name`. -/
def field? (c : Capsule) (name : String) : Option Value :=
  (c.fields.get? name).or (c.inherited.get? name)

/-- The most specific type name. -/
def typeName? (c : Capsule) : Option String := c.types.getLast?

end Capsule

namespace Value

/-- The object that the value is. -/
def capsule? : Value → Option Capsule
  | encap fields inherited types scope => some ⟨fields, inherited, types, scope⟩
  | _ => none

/-- The function that the value is. -/
def function? : Value → Option FunctionId
  | function id => some id
  | _ => none

/-- The value in arithmetic: numbers are themselves, truth values one and zero, `null` is zero. -/
def number? : Value → Option Float
  | number x => some x
  | bool b => some (if b then 1.0 else 0.0)
  | null => some 0.0
  | _ => none

/-- Whether the value counts as true: numbers other than zero, texts, lists and objects that are not
empty. -/
def isTrue : Value → Bool
  | number x => x != 0.0
  | bool b => b
  | null => false
  | text s => !s.isEmpty
  | list elements => !elements.isEmpty
  | encap fields inherited types scope =>
    !(Capsule.members ⟨fields, inherited, types, scope⟩).isEmpty
  | function _ => false
  | empty => false

end Value

end CapsuleScript

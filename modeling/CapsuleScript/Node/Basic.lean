import CapsuleScript.Span

/-! Programs as trees. Every node carries the region of the text it was read from. -/

namespace CapsuleScript

/-- The operators between two operands. -/
inductive BinaryOp where
  | add
  | sub
  | mul
  | div
  | less
  | greater
  | lessEqual
  | greaterEqual
  | equal
  | notEqual
  | and
  | or
  /-- Evaluation of the right operand in the scope of the left one. -/
  | access
deriving DecidableEq

/-- How loosely an operator binds, from one for the tightest to five for the loosest. -/
def BinaryOp.looseness : BinaryOp → Nat
  | access => 1
  | mul => 2
  | div => 2
  | add => 3
  | sub => 3
  | less => 4
  | greater => 4
  | lessEqual => 4
  | greaterEqual => 4
  | equal => 4
  | notEqual => 4
  | and => 5
  | or => 5

/-- The operators in front of one operand. -/
inductive UnaryOp where
  | plus
  | negate
  | not
deriving DecidableEq

/-- A piece of a program. -/
inductive Node where
  | number (span : Span) (value : Float)
  | text (span : Span) (value : String)
  | list (span : Span) (elements : List Node)
  | binary (span : Span) (op : BinaryOp) (left right : Node)
  | unary (span : Span) (op : UnaryOp) (operand : Node)
  /-- Binds `name`; names of the program itself are bound only once. -/
  | assign (span : Span) (name : String) (topLevel : Bool) (value : Node)
  | ident (span : Span) (name : String)
  /-- Statements in a scope of their own. The functions defined in a block that may declare are
  known from its start. -/
  | block (span : Span) (mayDeclare : Bool) (statements : List Node)
  /-- A choice, either inside an expression or as a statement without a value. -/
  | conditional (span : Span) (producesValue : Bool) (condition thenBranch : Node)
      (elseBranch : Option Node)
  /-- A function; with `autoReturn` the value of its body is the result of a call. -/
  | function (span : Span) (name : Option String) (params : List String) (autoReturn : Bool)
      (body : Node)
  /-- Binds `name` to a function that evaluates `placeholder` until its definition runs. -/
  | declaration (span : Span) (name : String) (placeholder : Node)
  | call (span : Span) (callee : Node) (arguments : List Node)
  | result (span : Span) (value : Option Node)
  | stopLoop (span : Span)
  | nextTurn (span : Span)
  | whileLoop (span : Span) (condition body : Node)
  /-- A loop over a list. A comprehension collects the values of its body, and passes over the
  elements that its filter refuses. -/
  | forLoop (span : Span) (name : String) (comprehension : Bool) (source body : Node)
      (filter : Option Node)
  /-- An object literal. A strict object does not see the scope around it. -/
  | encap (span : Span) (typeName : Option String) (strict : Bool) (body : Node)
      (parent : Option Node)
  /-- Evaluation in the frame that the current one was entered from. -/
  | prev (span : Span) (expression : Node)

/-- The region of the text that a node was read from. -/
def Node.span : Node → Span
  | number s _ => s
  | text s _ => s
  | list s _ => s
  | binary s _ _ _ => s
  | unary s _ _ => s
  | assign s _ _ _ => s
  | ident s _ => s
  | block s _ _ => s
  | conditional s _ _ _ _ => s
  | function s _ _ _ _ => s
  | declaration s _ _ => s
  | call s _ _ => s
  | result s _ => s
  | stopLoop s => s
  | nextTurn s => s
  | whileLoop s _ _ => s
  | forLoop s _ _ _ _ _ => s
  | encap s _ _ _ _ => s
  | prev s _ => s

end CapsuleScript

import CapsuleScript.Node.Basic
import CapsuleScript.SourceError
import CapsuleScript.Token.Basic

/-! Reading from a list of tokens: single tokens, rows of items and chains of operands. The bound of
a repetition is a number of tokens: every round takes one at least, so when the bound is used up no
token is left. -/

namespace CapsuleScript

namespace Token

/-- Whether the token is the given mark. -/
def isMark (m : Mark) : Token → Bool
  | mark sign => sign = m
  | _ => false

/-- Whether the token is the given keyword. -/
def isKeyword (k : Keyword) : Token → Bool
  | keyword word => word = k
  | _ => false

/-- Whether the token ends a statement. -/
def isNewline : Token → Bool
  | newline => true
  | _ => false

/-- Whether the token is the end of the text. -/
def isFinish : Token → Bool
  | finish => true
  | _ => false

/-- Whether no expression can start with the token, because it closes what stands before it. -/
def closes : Token → Bool
  | newline => true
  | finish => true
  | mark .closeBrace => true
  | mark .closeParen => true
  | mark .closeBracket => true
  | mark .comma => true
  | keyword .elseWord => true
  | _ => false

/-- The operator between two operands that the token is. -/
def binaryOp? : Token → Option BinaryOp
  | mark .plus => some .add
  | mark .minus => some .sub
  | mark .star => some .mul
  | mark .slash => some .div
  | mark .less => some .less
  | mark .greater => some .greater
  | mark .lessEqual => some .lessEqual
  | mark .greaterEqual => some .greaterEqual
  | mark .equalEqual => some .equal
  | mark .bangEqual => some .notEqual
  | mark .fatArrow => some .access
  | keyword .andWord => some .and
  | keyword .orWord => some .or
  | _ => none

/-- The operator in front of an operand that the token is. -/
def unaryOp? : Token → Option UnaryOp
  | mark .plus => some .plus
  | mark .minus => some .negate
  | mark .bang => some .not
  | _ => none

end Token

/-- Reads something from the head of a list of tokens, which it shortens. -/
abbrev Parser := StateT (List Located) (Except SourceError)

namespace Parser

/-! ### Single tokens -/

/-- The next token, which is left in place. -/
def peek : Parser Located := do
  match ← get with
  | [] => throw .endOfTokens
  | t :: _ => return t

/-- Drops the next token. -/
def advance : Parser Unit := modify List.tail

/-- Whether there is a next token and it passes the test. -/
def nextIs (test : Token → Bool) : Parser Bool := do
  return (← get).head?.any (fun t => test t.token)

/-- Takes the next token if it passes the test. -/
def accept (test : Token → Bool) : Parser Bool := do
  if ← nextIs test then
    advance
    return true
  else return false

/-- Takes the next token, which has to pass the test. -/
def expect (test : Token → Bool) (expectation : Expectation) : Parser Span := do
  let t ← peek
  if test t.token then
    advance
    return t.span
  else throw (.unexpected expectation t.span)

/-- Drops the line breaks and semicolons that come next. -/
def skipNewlines : Parser Unit := modify (List.dropWhile (fun t => t.token.isNewline))

/-- Takes a name. -/
def name : Parser (String × Span) := do
  let t ← peek
  match t.token with
  | .name n =>
    advance
    return (n, t.span)
  | _ => throw (.unexpected .name t.span)

/-! ### Repetitions -/

/-- What follows the first item of a row: a comma and an item, as often as there is a comma. -/
def moreItems {α : Type} (item : Parser α) : Nat → Parser (List α)
  | 0 => return []
  | bound + 1 => do
    if ← accept (Token.isMark .comma) then
      let first ← item
      return first :: (← moreItems item bound)
    else return []

/-- One item or several with commas between them. -/
def items {α : Type} (item : Parser α) : Parser (List α) := do
  let first ← item
  return first :: (← moreItems item (← get).length)

/-- The elements of a list from its first one on, and the bracket that closes it. -/
def elements (item : Parser Node) : Nat → Parser (List Node × Span)
  | 0 => throw .endOfTokens
  | bound + 1 => do
    let first ← item
    let t ← peek
    if t.token.isMark .comma then
      advance
      let (rest, close) ← elements item bound
      return (first :: rest, close)
    else if t.token.isMark .closeBracket then
      advance
      return ([first], t.span)
    else throw (.unexpected .listEnd t.span)

/-- What follows the first operand of a chain: operators of the given looseness, each with its right
operand. They are grouped to the left. -/
def moreOperands (operand : Parser Node) (looseness : Nat) (left : Node) : Nat → Parser Node
  | 0 => return left
  | bound + 1 => do
    match (← get).head?.bind (fun t => t.token.binaryOp?) with
    | some op =>
      if op.looseness = looseness then
        advance
        let right ← operand
        moreOperands operand looseness (.binary (left.span.through right.span) op left right) bound
      else return left
    | none => return left

/-- Operands joined by operators up to the given looseness. -/
def chain (operand : Parser Node) : Nat → Parser Node
  | 0 => operand
  | looseness + 1 => do
    let left ← chain operand looseness
    moreOperands (chain operand looseness) (looseness + 1) left (← get).length

/-- What follows the first statement of a block. -/
def moreStatements (statement : Parser Node) : Nat → Parser (List Node)
  | 0 => return []
  | bound + 1 => do
    if ← nextIs Token.isNewline then
      skipNewlines
      if ← nextIs (Token.isMark .closeBrace) then return []
      else
        let first ← statement
        return first :: (← moreStatements statement bound)
    else return []

end Parser

end CapsuleScript

import CapsuleScript.Node.Parser.Basic

/-! The phrases of the grammar, each read with a reader `sub` of the phrases inside it. It calls for
those only after it has taken a token. -/

namespace CapsuleScript

/-- The phrases of the grammar that other phrases call for. -/
inductive Phrase where
  | expression
  /-- A statement. A block in its place declares its own functions only if `mayDeclare`. -/
  | statement (mayDeclare : Bool)
  /-- An operand with the signs in front of it. -/
  | signed
deriving DecidableEq

namespace Parser

/-- Statements in braces, at least one. -/
def block (sub : Phrase → Parser Node) (mayDeclare : Bool) : Parser Node := do
  let opened ← expect (Token.isMark .openBrace) .openBrace
  skipNewlines
  let first ← sub (.statement true)
  let rest ← moreStatements (sub (.statement true)) (← get).length
  let closed ← expect (Token.isMark .closeBrace) .closeBrace
  return .block (opened.through closed) mayDeclare (first :: rest)

/-- The name of a function, which only a function that is a statement may have. -/
def functionName (named : Bool) : Parser (Option String) := do
  let t ← peek
  match t.token with
  | .name n =>
    if named then
      advance
      return some n
    else throw (.unexpected .namelessFunction t.span)
  | _ => return none

/-- The parameters of a function. -/
def parameters : Parser (List String) := do
  if ← accept (Token.isMark .colon) then items (Prod.fst <$> name)
  else return []

/-- The body of a function, and whether its value is the result of a call. A function without a body
gives `null`; the region of that body is the token after the function. -/
def functionBody (sub : Phrase → Parser Node) (hasParams : Bool) : Parser (Node × Bool) := do
  let t ← peek
  if t.token.isMark .arrow || t.token.isMark .fatArrow then
    advance
    return (← sub .expression, true)
  else if t.token.isMark .openBrace then
    return (← block sub true, false)
  else if hasParams && !t.token.closes then
    return (← sub (.statement true), false)
  else return (.ident t.span "null", true)

/-- A function from behind its first word, which stands at `start`. -/
def functionLiteral (sub : Phrase → Parser Node) (start : Span) (named : Bool) : Parser Node := do
  let name ← functionName named
  let params ← parameters
  let (body, autoReturn) ← functionBody sub (!params.isEmpty)
  return .function (start.through body.span) name params autoReturn body

/-- The object that an object literal inherits from. It starts with a name. -/
def encapParent (sub : Phrase → Parser Node) : Parser Node := do
  let t ← peek
  match t.token with
  | .name _ => sub .expression
  | _ => throw (.unexpected .name t.span)

/-- An object literal from behind its first word, which stands at `start`. -/
def encapLiteral (sub : Phrase → Parser Node) (start : Span) (strict : Bool) : Parser Node := do
  let body ← block sub true
  if ← accept (Token.isKeyword .asWord) then
    let (typeName, typeSpan) ← name
    if ← accept (Token.isMark .colon) then
      let parent ← encapParent sub
      return .encap (start.through parent.span) (some typeName) strict body (some parent)
    else return .encap (start.through typeSpan) (some typeName) strict body none
  else return .encap (start.through body.span) none strict body none

/-- An operand without a sign. -/
def operand (sub : Phrase → Parser Node) : Parser Node := do
  let t ← peek
  match t.token with
  | .number value =>
    advance
    return .number t.span value
  | .text value =>
    advance
    return .text t.span value
  | .name n =>
    advance
    return .ident t.span n
  | .mark .openParen =>
    advance
    let inner ← sub .expression
    let _ ← expect (Token.isMark .closeParen) .closeParen
    return inner
  | .mark .openBracket =>
    advance
    let next ← peek
    if next.token.isMark .closeBracket then
      advance
      return .list (t.span.through next.span) []
    else
      let (parts, close) ← elements (sub .expression) (← get).length
      return .list (t.span.through close) parts
  | .keyword .funWord =>
    advance
    functionLiteral sub t.span false
  | .keyword .prevWord =>
    advance
    let inner ← sub .expression
    return .prev (t.span.through inner.span) inner
  | .keyword .encapWord =>
    advance
    encapLiteral sub t.span false
  | .keyword .sencapWord =>
    advance
    encapLiteral sub t.span true
  | _ => throw (.unexpected .operand t.span)

/-- An operand with the signs in front of it. -/
def signed (sub : Phrase → Parser Node) : Parser Node := do
  let t ← peek
  match t.token.unaryOp? with
  | some op =>
    advance
    let inner ← sub .signed
    return .unary (t.span.through inner.span) op inner
  | none => operand sub

/-- The loop of a comprehension from behind its first word. -/
def comprehension (sub : Phrase → Parser Node) (body : Node) : Parser Node := do
  let (loopName, _) ← name
  let _ ← expect (Token.isKeyword .inWord) .inWord
  let source ← sub .expression
  if ← accept (Token.isMark .arrow) then
    let _ ← expect (Token.isKeyword .ifWord) .ifWord
    let filter ← sub .expression
    return .forLoop (body.span.through filter.span) loopName true source body (some filter)
  else return .forLoop (body.span.through source.span) loopName true source body none

/-- A chain of operands, and at most one choice, call or loop behind it. -/
def expression (sub : Phrase → Parser Node) : Parser Node := do
  let left ← chain (signed sub) 5
  let t ← peek
  match t.token with
  | .keyword .ifWord =>
    advance
    let condition ← sub .expression
    let _ ← expect (Token.isKeyword .elseWord) .elseWord
    let otherwise ← sub .expression
    return .conditional (left.span.through otherwise.span) true condition left (some otherwise)
  | .mark .colon =>
    advance
    let arguments ← items (sub .expression)
    let last := arguments.getLast?.elim left.span Node.span
    return .call (left.span.through last) left arguments
  | .mark .bang =>
    advance
    return .call (left.span.through t.span) left []
  | .keyword .forWord =>
    advance
    comprehension sub left
  | _ => return left

/-- A choice between statements, from behind its first word. Its other branch may start on a later
line. -/
def ifStatement (sub : Phrase → Parser Node) (start : Span) : Parser Node := do
  let condition ← sub .expression
  let branch ← sub (.statement false)
  match (← get).dropWhile (fun t => t.token.isNewline) with
  | ⟨.keyword .elseWord, _⟩ :: rest =>
    set rest
    let otherwise ← sub (.statement false)
    return .conditional (start.through otherwise.span) false condition branch (some otherwise)
  | _ => return .conditional (start.through branch.span) false condition branch none

/-- A loop with a condition, from behind its first word. -/
def whileStatement (sub : Phrase → Parser Node) (start : Span) : Parser Node := do
  let condition ← sub .expression
  let body ← sub (.statement false)
  return .whileLoop (start.through body.span) condition body

/-- A loop over a list, from behind its first word. -/
def forStatement (sub : Phrase → Parser Node) (start : Span) : Parser Node := do
  let (loopName, _) ← name
  let _ ← expect (Token.isKeyword .inWord) .inWord
  let source ← sub .expression
  let body ← sub (.statement false)
  return .forLoop (start.through body.span) loopName false source body none

/-- The definition of a function without parameters, from behind its first word. -/
def defineStatement (sub : Phrase → Parser Node) (start : Span) : Parser Node := do
  let (name, _) ← name
  let _ ← expect (Token.isMark .equals) .equals
  let body ← sub .expression
  return .function (start.through body.span) (some name) [] true body

/-- The result of a function, from behind its first word. -/
def returnStatement (sub : Phrase → Parser Node) (start : Span) : Parser Node := do
  let t ← peek
  if t.token.closes then return .result start none
  else
    let value ← sub .expression
    return .result (start.through value.span) (some value)

/-- A statement: told by its first two tokens, else an expression. -/
def statement (sub : Phrase → Parser Node) (mayDeclare : Bool) : Parser Node := do
  match ← get with
  | ⟨.name name, start⟩ :: ⟨.mark .equals, _⟩ :: rest =>
    set rest
    let value ← sub .expression
    return .assign (start.through value.span) name false value
  | ⟨.keyword .ifWord, start⟩ :: rest =>
    set rest
    ifStatement sub start
  | ⟨.keyword .whileWord, start⟩ :: rest =>
    set rest
    whileStatement sub start
  | ⟨.keyword .forWord, start⟩ :: rest =>
    set rest
    forStatement sub start
  | ⟨.mark .openBrace, _⟩ :: _ => block sub mayDeclare
  | ⟨.keyword .defineWord, start⟩ :: rest =>
    set rest
    defineStatement sub start
  | ⟨.keyword .funWord, start⟩ :: ⟨.name name, span⟩ :: rest =>
    set (⟨.name name, span⟩ :: rest : List Located)
    functionLiteral sub start true
  | ⟨.keyword .returnWord, start⟩ :: rest =>
    set rest
    returnStatement sub start
  | ⟨.keyword .breakWord, start⟩ :: rest =>
    set rest
    return .stopLoop start
  | ⟨.keyword .continueWord, start⟩ :: rest =>
    set rest
    return .nextTurn start
  | _ => expression sub

end Parser

end CapsuleScript

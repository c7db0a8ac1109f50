import CapsuleScript.Span

/-! The reasons for which a program text is refused. The first one found ends the reading. -/

namespace CapsuleScript

/-- What would have had to stand in place of a token. -/
inductive Expectation where
  | name
  | equals
  | closeParen
  | openBrace
  | closeBrace
  | listEnd
  | inWord
  | ifWord
  | elseWord
  | operand
  /-- A function literal inside an expression stands without a name. -/
  | namelessFunction
deriving DecidableEq

/-- The wording of an expectation. -/
def Expectation.message : Expectation → String
  | .name => "Expected an identifier"
  | .equals => "Expected '='"
  | .closeParen => "Expected ')'"
  | .openBrace => "Expected '\x7b'"
  | .closeBrace => "Expected '\x7d'"
  | .listEnd => "Expected ',' or the end of the list"
  | .inWord => "Expected 'in'"
  | .ifWord => "Expected 'if'"
  | .elseWord => "Expected 'else'"
  | .operand =>
    "Expected a number, string, identifier, 'fun', 'prev', 'encap', '[' or '('"
  | .namelessFunction => "Lambda expressions are not named"

/-- Why a program text is refused. -/
inductive SourceError where
  /-- No token starts like `text`. -/
  | illegalText (text : String) (span : Span)
  /-- The token at `span` is not what the grammar asks for. -/
  | unexpected (expectation : Expectation) (span : Span)
  /-- The tokens ended inside a construct. -/
  | endOfTokens
deriving DecidableEq

namespace SourceError

/-- The message shown for a refused text. -/
def message : SourceError → String
  | illegalText text span => "Illegal Character: '" ++ text ++ "', " ++ span.render
  | unexpected expectation span =>
    "Invalid Syntax: " ++ expectation.message ++ ", " ++ span.render
  | endOfTokens => "Invalid Syntax: unexpected end of input"

/-- Where the text is at fault, unless it is at its end. -/
def span? : SourceError → Option Span
  | illegalText _ span => some span
  | unexpected _ span => some span
  | endOfTokens => none

end SourceError

end CapsuleScript

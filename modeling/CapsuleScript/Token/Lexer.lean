import CapsuleScript.Number.Text
import CapsuleScript.SourceError
import CapsuleScript.Token.Basic
import CapsuleScript.Token.Quoted

/-! Program text cut into tokens. At every place the longest piece that is a token, a run of blanks
or a comment is taken; blanks and comments leave no token. -/

namespace CapsuleScript.Token

/-- Spaces, tabs, carriage returns and form feeds. -/
def isBlank (c : Char) : Bool := c = ' ' || c = '\t' || c = '\r' || c = '\x0c'

/-- The characters that may follow the first letter of a word. -/
def isWordChar (c : Char) : Bool := c.isAlphanum || c = '_'

/-- What stands at the head of a text. The counts are of characters after the first. -/
inductive Piece where
  | token (value : Token) (more : Nat)
  | blank (more : Nat)
  | illegal (more : Nat)

/-- How many characters after its first digit a number goes on for: digits, then a point and digits
or an `e` and at least one digit. -/
def numberLength (rest : List Char) : Nat :=
  let (digits, tail) := Number.takeDigits rest
  match tail with
  | '.' :: ds => digits.length + 1 + (Number.takeDigits ds).1.length
  | 'e' :: d :: ds =>
    if d.isDigit then digits.length + 2 + (Number.takeDigits ds).1.length else digits.length
  | _ => digits.length

/-- The longest piece at the head of the text `c :: rest`. -/
def munch (c : Char) (rest : List Char) : Piece :=
  if isBlank c then .blank (rest.takeWhile isBlank).length
  else if c = '/' ∧ rest.head? = some '/' then .blank (rest.takeWhile (· ≠ '\n')).length
  else if c.isDigit then
    let more := numberLength rest
    match Number.ofChars? (c :: rest.take more) with
    | some value => .token (number value) more
    | none => .illegal 0
  else if c.isAlpha then
    let tail := rest.takeWhile isWordChar
    .token (ofWord (String.ofList (c :: tail))) tail.length
  else if c = '"' then
    match Quoted.read rest with
    | .closed value length => .token (text (String.ofList value)) length
    | .unclosed length => .illegal length
  else
    match symbols.find? (fun entry => entry.1.isPrefixOf (c :: rest)) with
    | some (spelling, value) => .token value (spelling.length - 1)
    | none => .illegal 0

/-- How many bytes a text takes. -/
def byteLength (cs : List Char) : Nat := cs.foldr (fun c length => c.utf8Size + length) 0

/-- The tokens of a text that starts at the position `p` of the source `source`. -/
def readFrom (source : String) (p : Position) : List Char → Except SourceError (List Located)
  | [] => .ok [⟨finish, ⟨source, p, p⟩⟩]
  | c :: rest =>
    match munch c rest with
    | .token value more =>
      let next := p.after (c :: rest.take more)
      (readFrom source next (rest.drop more)).map (⟨value, ⟨source, p, next⟩⟩ :: ·)
    | .blank more => readFrom source (p.after (c :: rest.take more)) (rest.drop more)
    | .illegal more =>
      let taken := c :: rest.take more
      .error (.illegalText (String.ofList taken) ⟨source, p, p.shift (byteLength taken)⟩)
termination_by cs => cs.length
decreasing_by all_goals (simp only [List.length_drop, List.length_cons]; omega)

/-- The tokens of the program `program`, known as `source`, with the end of the text as the last. -/
def readAll (source program : String) : Except SourceError (List Located) :=
  readFrom source .origin program.toList

end CapsuleScript.Token

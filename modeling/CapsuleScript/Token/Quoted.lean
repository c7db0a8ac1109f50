/-! Quoted texts. Between the quotes a backslash takes the next character out of its role; before
`n` and `t` it makes a line break and a tab. It cannot stand before a line break. -/

namespace CapsuleScript.Quoted

/-- What a backslash and the character after it stand for. -/
def unescape (c : Char) : Char :=
  if c = 'n' then '\n' else if c = 't' then '\t' else c

/-- How a quoted text ends. -/
inductive Reading where
  /-- After `length` characters, the closing quote included, with the text `value`. -/
  | closed (value : List Char) (length : Nat)
  /-- It does not end; `length` characters can belong to it. -/
  | unclosed (length : Nat)

/-- The reading of a text that starts with `width` characters which stand for `c`. -/
def Reading.push (c : Char) (width : Nat) : Reading → Reading
  | closed value length => closed (c :: value) (width + length)
  | unclosed length => unclosed (width + length)

/-- Reads a quoted text from behind its opening quote. -/
def read : List Char → Reading
  | [] => .unclosed 0
  | '"' :: _ => .closed [] 1
  | '\\' :: [] => .unclosed 1
  | '\\' :: '\n' :: _ => .unclosed 1
  | '\\' :: c :: rest => (read rest).push (unescape c) 2
  | c :: rest => (read rest).push c 1

end CapsuleScript.Quoted

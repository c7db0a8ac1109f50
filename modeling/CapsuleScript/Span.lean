/-! Places in program text. A position counts UTF-8 bytes from the start of the text and from the
start of its line; lines and columns start at zero and are only shown to the user from one. -/

namespace CapsuleScript

/-- A single place in a text. -/
structure Position where
  /-- Bytes before the place. -/
  index : Nat
  /-- Line breaks before the place. -/
  line : Nat
  /-- Bytes between the last line break before the place and the place. -/
  column : Nat
deriving DecidableEq

namespace Position

/-- The start of a text. -/
def origin : Position := ⟨0, 0, 0⟩

/-- The place just after `c`, when `c` stands at `p`. -/
def advance (p : Position) (c : Char) : Position :=
  if c = '\n' then ⟨p.index + c.utf8Size, p.line + 1, 0⟩
  else ⟨p.index + c.utf8Size, p.line, p.column + c.utf8Size⟩

/-- The place just after the text `cs`, when `cs` starts at `p`. -/
def after (p : Position) (cs : List Char) : Position :=
  cs.foldl advance p

@[simp] theorem after_nil (p : Position) : p.after [] = p := rfl

@[simp] theorem after_cons (p : Position) (c : Char) (cs : List Char) :
    p.after (c :: cs) = (p.advance c).after cs := rfl

theorem after_append (p : Position) (cs ds : List Char) :
    p.after (cs ++ ds) = (p.after cs).after ds := by
  simp [after]

/-- The place `bytes` further on, counted as if the line did not end before it. -/
def shift (p : Position) (bytes : Nat) : Position :=
  ⟨p.index + bytes, p.line, p.column + bytes⟩

end Position

/-- A region of the text called `source`: from `start` to just before `stop`. -/
structure Span where
  /-- The name of the text, such as a file name. -/
  source : String
  start : Position
  stop : Position
deriving DecidableEq

namespace Span

/-- The region from the start of `s` to the end of `t`. -/
def through (s t : Span) : Span := ⟨s.source, s.start, t.stop⟩

@[simp] theorem through_self (s : Span) : s.through s = s := rfl

/-- The line on which the region starts, counted from one. -/
def lineNumber (s : Span) : Nat := s.start.line + 1

/-- The region as it is named in messages. -/
def render (s : Span) : String :=
  "File " ++ s.source ++ " in line number " ++ toString s.lineNumber

end Span

end CapsuleScript

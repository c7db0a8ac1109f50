import CapsuleScript.Span

/-! The words of a program: numbers, quoted texts, names, keywords, marks and the ends of
statements. -/

namespace CapsuleScript

/-- The words that are not names. -/
inductive Keyword where
  | funWord
  | ifWord
  | elseWord
  | whileWord
  | forWord
  | inWord
  | returnWord
  | breakWord
  | continueWord
  | asWord
  | prevWord
  | defineWord
  | encapWord
  | sencapWord
  | andWord
  | orWord
deriving DecidableEq

namespace Keyword

/-- Every keyword. -/
def all : List Keyword :=
  [funWord, ifWord, elseWord, whileWord, forWord, inWord, returnWord, breakWord, continueWord,
    asWord, prevWord, defineWord, encapWord, sencapWord, andWord, orWord]

/-- How a keyword is written. -/
def spelling : Keyword → String
  | funWord => "fun"
  | ifWord => "if"
  | elseWord => "else"
  | whileWord => "while"
  | forWord => "for"
  | inWord => "in"
  | returnWord => "return"
  | breakWord => "break"
  | continueWord => "continue"
  | asWord => "as"
  | prevWord => "prev"
  | defineWord => "define"
  | encapWord => "encap"
  | sencapWord => "sencap"
  | andWord => "and"
  | orWord => "or"

/-- The keyword written as `word`. -/
def ofWord? (word : String) : Option Keyword := all.find? (·.spelling == word)

end Keyword

/-- Operators and brackets. -/
inductive Mark where
  | plus
  | minus
  | star
  | slash
  | openParen
  | closeParen
  | openBrace
  | closeBrace
  | openBracket
  | closeBracket
  | comma
  | colon
  | arrow
  | fatArrow
  | equals
  | equalEqual
  | bangEqual
  | lessEqual
  | greaterEqual
  | less
  | greater
  | bang
deriving DecidableEq

/-- A word of a program. -/
inductive Token where
  | number (value : Float)
  /-- A quoted text, its escapes resolved. -/
  | text (value : String)
  | name (value : String)
  | keyword (word : Keyword)
  | mark (sign : Mark)
  /-- A line break or a semicolon. -/
  | newline
  /-- The end of the program text. -/
  | finish

namespace Token

/-- The token of a letter sequence: a keyword if it is spelled like one, else a name. -/
def ofWord (word : String) : Token :=
  match Keyword.ofWord? word with
  | some k => keyword k
  | none => name word

/-- The tokens with one fixed spelling that is no word. A spelling stands before those it begins
with, so the first that fits is the longest that fits. -/
def symbols : List (List Char × Token) :=
  [(['-', '>'], mark .arrow), (['=', '>'], mark .fatArrow), (['=', '='], mark .equalEqual),
    (['!', '='], mark .bangEqual), (['<', '='], mark .lessEqual), (['>', '='], mark .greaterEqual),
    (['+'], mark .plus), (['-'], mark .minus), (['*'], mark .star), (['/'], mark .slash),
    (['('], mark .openParen), ([')'], mark .closeParen), (['\x7b'], mark .openBrace),
    (['\x7d'], mark .closeBrace), (['['], mark .openBracket), ([']'], mark .closeBracket),
    ([','], mark .comma), ([':'], mark .colon), (['='], mark .equals), (['<'], mark .less),
    (['>'], mark .greater), (['!'], mark .bang), (['&'], keyword .andWord),
    (['|'], keyword .orWord), ([';'], newline), (['\n'], newline)]

end Token

/-- A token and the region of the text it was read from. -/
structure Located where
  token : Token
  span : Span

end CapsuleScript

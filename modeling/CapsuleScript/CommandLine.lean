import CapsuleScript.Session

/-! The program as it is started from a shell: with a file it runs the file, without one it reads
programs line by line and answers each of them. -/

namespace CapsuleScript

/-- What the arguments of a start ask for. -/
inductive Command where
  | showVersion
  | showHelp
  /-- The arguments cannot be understood. -/
  | refuse
  /-- Run `file`, or the lines that are typed in. -/
  | start (file : Option String) (limits : Limits)

namespace Command

/-- The number that an argument stands for, if a machine word can hold it. -/
def count? (arg : List Char) : Option Nat :=
  let digits := match arg with
    | '+' :: ds => ds
    | ds => ds
  let n := Number.ofDigits digits
  if digits ≠ [] ∧ digits.all Char.isDigit ∧ n < Nat.pow 2 64 then some n else none

/-- The option that takes the number of frames a strict object may have. -/
def nestingOption : String := "--max-nesting-depth"

/-- What has been understood of the arguments. -/
structure Given where
  file : Option String := none
  nesting : Option Nat := none

/-- The start that the arguments ask for. -/
def Given.command (given : Given) : Command :=
  .start given.file (given.nesting.elim {} fun n => { nesting := n })

/-- Takes an argument as the file; there can be only one, and its name is not empty. -/
def Given.withFile? (given : Given) (arg : String) : Option Given :=
  if given.file.isSome || arg.isEmpty then none else some { given with file := some arg }

/-- Takes an argument as the number of the nesting option, which can be given only once. -/
def Given.withNesting? (given : Given) (arg : List Char) : Option Given :=
  if given.nesting.isSome then none else (count? arg).map fun n => { given with nesting := some n }

/-- Reads arguments that are all names of files. -/
def ofFiles (given : Given) : List String → Command
  | [] => given.command
  | arg :: rest =>
    match given.withFile? arg with
    | some given => ofFiles given rest
    | none => .refuse

/-- Reads the arguments from the first to the last. -/
def ofArgs (given : Given) : List String → Command
  | [] => given.command
  | arg :: rest =>
    let cs := arg.toList
    if arg = "--version" ∨ ['-', 'V'].isPrefixOf cs then .showVersion
    else if arg = "--help" ∨ ['-', 'h'].isPrefixOf cs then .showHelp
    else if arg = "--" then ofFiles given rest
    else if arg = nestingOption then
      match rest with
      | [] => .refuse
      | n :: rest =>
        match given.withNesting? n.toList with
        | some given => ofArgs given rest
        | none => .refuse
    else if (nestingOption ++ "=").toList.isPrefixOf cs then
      match given.withNesting? (cs.drop (nestingOption.length + 1)) with
      | some given => ofArgs given rest
      | none => .refuse
    else if cs.head? = some '-' ∧ arg ≠ "-" then .refuse
    else
      match given.withFile? arg with
      | some given => ofArgs given rest
      | none => .refuse

end Command

/-- What a start leaves behind. -/
structure Console where
  code : Nat
  out : String := ""
  err : String := ""

namespace Console

/-- Enough steps for every program that ends. -/
def fuel : Nat := Nat.pow 10 18

/-- What is written before each line that is typed in. -/
def prompt : String := "Imperal> "

/-- The name and the number of this version. -/
def version : Console := { code := 0, out := "imperal 0.1.0\n" }

/-- How the program is started. -/
def help : Console := { code := 0, out := "Usage: imperal [OPTIONS] [FILE]\n" }

/-- The start with arguments that cannot be understood. -/
def refusal : Console := { code := 2 }

/-- The answer to one line, known as `source`. -/
def answer (session : Session) (source text : String) : Answer × Session :=
  session.run fuel source text

/-- Runs the file `path`, whose bytes are `content` if it can be read. -/
def runFile (limits : Limits) (path : String) (content : Option ByteArray) : Console :=
  match content.bind String.fromUTF8? with
  | none =>
    { code := 1
      err := "Failed to read the input file '" ++ path ++
        "'. Perhaps this file does not exist?\n" }
  | some text =>
    let answer := (answer (.start limits) path text).1
    { code := if answer.isShown then 0 else 1, out := answer.message ++ "\n" }

/-- A line as it was read backwards up to a line feed, without a carriage return before that. -/
def endLine : List UInt8 → List UInt8
  | 13 :: backwards => backwards.reverse
  | backwards => backwards.reverse

/-- The lines of a text, where `backwards` has been read of the first one. A line feed ends a line,
and a carriage return before it belongs to the line's end. -/
def linesFrom (backwards : List UInt8) : List UInt8 → List (List UInt8)
  | [] => if backwards = [] then [] else [backwards.reverse]
  | byte :: rest =>
    if byte = 10 then endLine backwards :: linesFrom [] rest
    else linesFrom (byte :: backwards) rest

/-- The lines of a text. -/
def lines (bytes : List UInt8) : List (List UInt8) := linesFrom [] bytes

/-- The dialogue over the given lines: a prompt before each line and the answer after it. It ends
with the lines, or with one that is no text. -/
def dialogue (session : Session) : List (List UInt8) → String
  | [] => prompt ++ "\n"
  | line :: rest =>
    match String.fromUTF8? ⟨line.toArray⟩ with
    | none => prompt ++ "\n"
    | some text =>
      let (answer, session) := answer session "<stdin>" text
      prompt ++ answer.message ++ "\n" ++ dialogue session rest

/-- The start with the given arguments, where `content` gives the bytes of files that can be read
and `input` is typed in. -/
def run (args : List String) (content : String → Option ByteArray) (input : ByteArray) :
    Console :=
  match Command.ofArgs {} args with
  | .showVersion => version
  | .showHelp => help
  | .refuse => refusal
  | .start (some path) limits => runFile limits path (content path)
  | .start none limits => { code := 0, out := dialogue (.start limits) (lines input.toList) }

end Console

end CapsuleScript

import CapsuleScript.CommandLine

/-! The start from a shell. Lines are answered as they are typed in. -/

namespace CapsuleScript

/-- Writes what a start leaves behind and gives its code. -/
def Console.write (console : Console) : IO UInt32 := do
  IO.print console.out
  IO.eprint console.err
  return console.code.toUInt32

/-- The next line that is typed in, where `backwards` has been read of it. There is none at the end
of the input. -/
partial def nextLine (input : IO.FS.Stream) (backwards : List UInt8) :
    IO (Option (List UInt8)) := do
  match (← input.read 1).toList with
  | [] => return if backwards = [] then none else some backwards.reverse
  | byte :: _ =>
    if byte = 10 then return some (Console.endLine backwards)
    else nextLine input (byte :: backwards)

/-- Answers line after line, until there is none or one that is no text. -/
partial def converse (input output : IO.FS.Stream) (session : Session) : IO UInt32 := do
  output.putStr Console.prompt
  output.flush
  match (← nextLine input []).bind fun line => String.fromUTF8? ⟨line.toArray⟩ with
  | none =>
    output.putStrLn ""
    return 0
  | some text =>
    let (answer, session) := Console.answer session "<stdin>" text
    output.putStrLn answer.message
    converse input output session

/-- Does what the arguments ask for. -/
def start (args : List String) : IO UInt32 := do
  match Command.ofArgs {} args with
  | .showVersion => Console.version.write
  | .showHelp => Console.help.write
  | .refuse =>
    IO.eprintln "The arguments cannot be understood."
    Console.refusal.write
  | .start (some path) limits =>
    let content ← (try some <$> IO.FS.readBinFile path catch _ => pure none)
    (Console.runFile limits path content).write
  | .start none limits => converse (← IO.getStdin) (← IO.getStdout) (.start limits)

end CapsuleScript

/-- The program as a shell starts it. -/
def main (args : List String) : IO UInt32 := CapsuleScript.start args

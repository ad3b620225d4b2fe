import DependentClasses.CommandLine

/-! The command line: `-c` takes a program as its argument, `-f` the path of one, and `-r`
starts a session. -/
namespace DependentClasses

namespace CommandLine

def finish (e : Exit) : IO UInt32 := do
  IO.print e.output
  IO.eprint e.errors
  pure e.code

def reason : IO.Error → String
  | .noFileOrDirectory .. => missingFile
  | .permissionDenied .. => "Permission denied (os error 13)"
  | .inappropriateType .. => "Is a directory (os error 21)"
  | .userError _ => "stream did not contain valid UTF-8"
  | e => toString e

def runFile (path : String) : IO UInt32 := do
  let read ← try Except.ok <$> IO.FS.readFile path catch e => pure (.error e)
  match read with
  | .ok source => finish (runSource source)
  | .error e => finish (unreadable path (reason e))

partial def repeatSession (m : Toplevel) : IO UInt32 := do
  IO.print prompt
  (← IO.getStdout).flush
  let line ← (← IO.getStdin).getLine
  if line.isEmpty then
    IO.println ""
    pure 0
  else
    match interact m (String.ofList (withoutEnd line.toList)) with
    | .ok (text, m) => do
      IO.print text
      repeatSession m
    | .error h => do
      IO.eprint (haltMessage h)
      pure haltCode

end CommandLine

end DependentClasses

open DependentClasses in
def main : List String → IO UInt32
  | ["-c", source] => CommandLine.finish (CommandLine.runSource source)
  | ["-f", path] => CommandLine.runFile path
  | ["-r"] => CommandLine.repeatSession {}
  | _ => do
    IO.eprintln "usage: -c STATEMENTS | -f PATH | -r"
    pure 1

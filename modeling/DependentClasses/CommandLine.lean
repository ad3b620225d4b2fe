import DependentClasses.Report
import DependentClasses.Toplevel

/-! What the program does on a terminal: it runs a source text, or the lines of an
interactive session one by one. -/
namespace DependentClasses

namespace CommandLine

/-- The depth that the computations of a program may reach. -/
def depth : Nat := 1000000

/-- How a run ends: its exit code, and what it has written to both streams. -/
structure Exit where
  code : UInt32
  output : String := ""
  errors : String := ""

def written (outputs : List String) : String := String.join (outputs.map (· ++ "\n"))

def haltMessage : Halt → String
  | .fault cause => "fatal error: " ++ cause.message ++ "\n"
  | .outOfFuel => "fatal error: computation too deep\n"

def haltCode : UInt32 := 101

/-- The report of a program that stops, unless the machine has given up on it. -/
def reported (source : String) : Trouble → Except Halt String
  | .parse e => .ok ((e.report source).getD "")
  | .failure f => .ok ((f.report source).getD "")
  | .halt h => .error h

/-- Runs a program from an empty scope. Its outputs appear only if all of it succeeds. -/
def runSource (source : String) : Exit :=
  match (Toplevel.execute depth {} source).1 with
  | .ok outputs => { code := 0, output := written outputs }
  | .error t =>
    match reported source t with
    | .ok report => { code := 1, output := report }
    | .error h => { code := haltCode, errors := haltMessage h }

def unreadable (path reason : String) : Exit :=
  { code := 1, errors := "error: could not read " ++ path ++ ": " ++ reason ++ "\n" }

def missingFile : String := "No such file or directory (os error 2)"

def prompt : String := "> "

/-- Runs one line of a session in the scope of those before it; a blank line does nothing. -/
def interact (m : Toplevel) (line : String) : Except Halt (String × Toplevel) :=
  if line.toList.all Text.isBlank then .ok ("", m)
  else
    match m.execute depth line with
    | (.ok outputs, m) => .ok (written outputs, m)
    | (.error t, m) => (reported line t).map fun report => (report, m)

def withoutEnd (line : List Char) : List Char :=
  match line.reverse with
  | '\n' :: '\r' :: rest => rest.reverse
  | '\n' :: rest => rest.reverse
  | _ => line

/-- The lines of a session that are still to come, after `output` has been written. -/
def session (m : Toplevel) (output : String) : List (List Char) → Exit
  | [] => { code := 0, output := output ++ prompt ++ "\n" }
  | line :: rest =>
    match interact m (String.ofList (withoutEnd line)) with
    | .ok (text, m) => session m (output ++ prompt ++ text) rest
    | .error h => { code := haltCode, output := output ++ prompt, errors := haltMessage h }

def runSession (input : String) : Exit := session {} "" (Text.lines input.toList)

end CommandLine

end DependentClasses

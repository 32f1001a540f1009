import MiniC.CommandLine
import MiniC.Program

/-!
# The program

Runs the program that the command line gives on the standard input.
-/

namespace MiniC.Main

def runProgram (code : String) : IO UInt32 := do
  let input ← (← IO.getStdin).readToEnd
  let (r, m) := Program.run code input
  IO.print m.output
  match r with
  | .ok _ => return 0
  | .error e =>
    IO.eprintln e.message
    return 1

def readProgram (path : String) : IO String := do
  return String.ofList (Text.unifyNewlines (← IO.FS.readFile path).toList)

end MiniC.Main

open MiniC MiniC.Main in
def main (args : List String) : IO UInt32 := do
  match CommandLine.parse args with
  | .usage =>
    IO.eprintln "usage: minic [-h] (-f FILE | -c CODE)"
    return 2
  | .help =>
    IO.println "usage: minic [-h] (-f FILE | -c CODE)"
    return 0
  | .file path => runProgram (← readProgram path)
  | .code text => runProgram text

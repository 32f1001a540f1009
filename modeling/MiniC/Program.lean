import MiniC.Analysis.Check
import MiniC.Eval.Basic
import MiniC.Grammar.Program

/-!
# Running programs

A program is read, checked and executed. The warnings of the check come first in the output, and a
program that is not accepted is not executed.
-/

namespace MiniC

inductive Failure where
  | emptySource
  | syntactic (e : SyntaxError)
  | semantic (e : SemanticError)
  | fault (f : Fault)

namespace Failure

def ofRejection : Rejection → Failure
  | .error e => semantic e
  | .fault f => fault f

def message : Failure → String
  | emptySource => "the program is empty"
  | syntactic e => e.message
  | semantic e => e.message
  | fault f => f.message

end Failure

namespace Program

/-- More steps than any run takes. -/
def stepBound : Nat := Nat.pow 10 15

def parse (code : String) : Except Failure Tree :=
  if code.isEmpty then .error .emptySource
  else
    match Grammar.parseStream (Stream.ofText code) with
    | .ok t => .ok t
    | .error e => .error (.syntactic e)

def check (t : Tree) : Except Failure Unit × String :=
  let (r, warnings) := Analysis.analyze t
  (r.mapError Failure.ofRejection, String.join (warnings.map Warning.message))

def execute (t : Tree) (m : Machine) : Except Failure Scalar × Machine :=
  let (r, m) := (Eval.execute stepBound t).execute m
  (r.mapError Failure.fault, m)

def checkAndExecute (t : Tree) (m : Machine) : Except Failure Scalar × Machine :=
  let (r, warnings) := check t
  let m := { m with output := m.output ++ warnings }
  match r with
  | .ok () => execute t m
  | .error e => (.error e, m)

def statusLines (status : Scalar) : String :=
  "\n\x1b[94mProcess terminated with status " ++ status.render ++ "\x1b[0m\n"

/-- Tells the status of a run, if it has one, at the end of its output. -/
def tellStatus : Except Failure Scalar × Machine → Except Failure Scalar × Machine
  | (.ok status, m) => (.ok status, { m with output := m.output ++ statusLines status })
  | (.error e, m) => (.error e, m)

def runFrom (code : String) (m : Machine) : Except Failure Scalar × Machine :=
  match parse code with
  | .error e => (.error e, m)
  | .ok t => tellStatus (checkAndExecute t m)

def run (code input : String) : Except Failure Scalar × Machine :=
  runFrom code (Machine.start input)

end Program

end MiniC

import MiniC.Eval.Expression

/-!
# Executing declarations

What a program declares is bound in the innermost scope: functions and structures to themselves,
variables to a cell with a random value, and the functions and constants of a library one by one.
-/

namespace MiniC.Eval

def define (name : String) (v : Value) : Run Unit := do
  Run.declareFunction name
  Run.writeName name v

def defineStruct (name : String) (fields : Table VarType) : Run Unit := do
  Run.declareStruct name
  Run.writeName name (.structDef name fields)

def declare (var type : Tree) : Run Unit := do
  let type ← typeOf type
  Run.declareVariable type (← nameOf var)

/-- Declares the functions of a library and then its constants. -/
def includeLibrary (name : String) : Run Unit := do
  match Library.find? name with
  | some l =>
    l.functions.forM fun f => define f.name (.builtin f)
    l.constants.forM fun c => Run.declareConstant c.1 (.int c.2)
  | none => throw (.noSuchLibrary name)

@[specialize]
def program {M : Type → Type} [Monad M] [MonadLiftT Run M] (eval : Evaluator M) :
    List Tree → M Value
  | [] => return .nothing
  | t :: ts => do
    if t.isTopLevel then
      let _ ← eval t
      program eval ts
    else Run.fail .assumption

end MiniC.Eval

import MiniC.Eval.Expression
import MiniC.Library.Call

/-!
# Calling functions

A function of the program runs in a frame of its own, in which its parameters are declared with the
values of the arguments. Its value is converted to the return type and its frame is removed; if it
has none, the frame stays. A library function receives the plain values of the numbers.
-/

namespace MiniC.Eval

/-- Whether a function is given the memory as a last argument; it depends on the name only. -/
def takesMemory (name : String) : Bool :=
  name == "scanf" || name == "malloc" || name == "free"

/-- The plain value of a number; everything else is handed over as it is. -/
def argument (v : Value) : Value :=
  match v.number? with
  | some n => .scalar n.value.toScalar
  | none => v

def bindParam (p : Tree) (v : Value) : Run Unit := do
  let some (type, var) := p.declared? | throw .noSuchPart
  let type ← typeOf type
  let name ← nameOf var
  match type with
  | .number t => Run.declareNumber t name
  | .struct _ => throw .noSuchPart
  Run.writeName name v

/-- Gives the parameters their values. There may be more parameters than arguments, but not fewer.
-/
def bindParams : List Tree → List Value → Run Unit
  | _, [] => return ()
  | [], _ :: _ => throw .noSuchIndex
  | p :: ps, v :: vs => do
    bindParam p v
    bindParams ps vs

def callBuiltin (f : Builtin) (args : List Value) : Run Value := do
  match ← f.apply (args.map argument) with
  | .nothing => return .nothing
  | s =>
    match f.returnType with
    | some t => return .number (← Run.makeNumber t s)
    | none => throw .noSuchPart

def enterFunction (name : String) (params : List Tree) (args : List Value) : Run Unit := do
  Run.changeStore fun s => .ok (s.pushFrame name)
  bindParams params args

def leaveFunction (type : Tree) (v : Value) : Run Value := do
  if v.isNothing then return .nothing
  let type ← typeOf type
  let content ← Run.ofExcept v.content
  let r ← convert type (.scalar content)
  Run.changeStore Store.popFrame
  return r

section

variable {M : Type → Type} [Monad M] [MonadLiftT Run M]

@[specialize]
def callFunction (eval : Evaluator M) (type : Tree) (name : String) (params : List Tree)
    (body : Tree) (args : List Value) : M Value := do
  enterFunction name params args
  let v ← eval body
  leaveFunction type v

@[specialize]
def callName (eval : Evaluator M) (name : String) (args : List Value) : M Value := do
  match ← Run.readName name with
  | .builtin f => callBuiltin f args
  | .function type name params body => callFunction eval type name params body args
  | _ => Run.fail .noSuchPart

@[specialize]
def arguments (eval : Evaluator M) : List Tree → M (List Value)
  | [] => return []
  | t :: ts => do
    let v ← eval t
    return v :: (← arguments eval ts)

@[specialize]
def call (eval : Evaluator M) (name : String) (args : List Tree) : M Value := do
  let values ← arguments eval args
  callName eval name (if takesMemory name then values ++ [.memory] else values)

end

end MiniC.Eval

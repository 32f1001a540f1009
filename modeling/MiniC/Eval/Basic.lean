import MiniC.Eval.Call
import MiniC.Eval.Declaration
import MiniC.Eval.Statement

/-!
# Evaluation

The value of a tree, by the rule for its root. Evaluation is bounded by a number of steps: the depth
of the recursion and the turns of each loop are at most that number. A program is executed by
evaluating its declarations and then calling its function `main`.
-/

namespace MiniC.Eval

section

variable {M : Type → Type} [Monad M] [MonadLiftT Run M]

/-- The rule for the root of a tree, given the evaluation of its parts. -/
@[specialize]
def rule (eval : Evaluator M) (fuel : Nat) (t : Tree) : M Value := do
  match t with
  | .noOp _ => return .nothing
  | .num token _ => literal token
  | .string token _ => return .scalar token.value
  | .var token _ => Run.readName token.value.render
  | .binary left op right _ => binary eval left op right
  | .unary op operand inFront _ =>
    if inFront then before eval op.kind operand else behind op.kind operand
  | .cast target operand inFront _ => cast eval target operand inFront
  | .assign target op value _ => assign eval target op value
  | .sequence children _ => sequence eval .nothing children
  | .call name args _ => call eval name args
  | .field op base member _ => fieldValue op base member
  | .switch subject children _ => switch eval subject children
  | .ifElse condition whenTrue whenFalse _ => ifElse eval condition whenTrue whenFalse
  | .forLoop setup condition increment body _ => forLoop eval fuel setup condition increment body
  | .whileLoop condition body _ => whileTrue (eval condition) (eval body) (return .nothing) fuel
  | .doWhile condition body _ => doWhile (eval condition) (eval body) fuel
  | .returning value _ => eval value
  | .breaking _ => return .jump .leave
  | .continuing _ => return .jump .again
  | .block children _ => block eval children
  | .body children _ => body eval children
  | .program children _ => program eval children
  | .varDecl var type _ =>
    declare var type
    return .nothing
  | .structDecl name fields _ _ =>
    defineStruct name fields
    return .nothing
  | .library name _ =>
    includeLibrary name
    return .nothing
  | .function type name params body _ =>
    define name (.function type name params body)
    return .nothing
  | t => Run.fail (.noRule t.className)

/-- The call with which the declarations of a program are followed. -/
def callMain : Tree := .call "main" [] 0

/-- Executes a program by an evaluation of trees, and gives the value that `main` returns. -/
@[specialize]
def executeBy (eval : Evaluator M) (t : Tree) : M Scalar := do
  let _ ← eval t
  Run.changeStore fun s => .ok (s.pushFrame "main")
  let v ← eval callMain
  Run.changeStore Store.popFrame
  Run.ofExcept v.content

end

def eval : Nat → Evaluator Run
  | 0, _ => throw .outOfFuel
  | fuel + 1, t => rule (eval fuel) fuel t

def execute (fuel : Nat) (t : Tree) : Run Scalar :=
  executeBy (eval fuel) t

end MiniC.Eval

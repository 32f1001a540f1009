import MiniC.Eval.Expression

/-!
# Executing statements

The rules for the nodes of statements. A statement that asks for a jump has the jump as its value.
A block passes it on, a loop or a switch ends with it if it asks to leave, and a loop goes on with
its next turn if it does not. Only a return that stands directly in the block of a function ends the
function.
-/

namespace MiniC.Eval

variable {M : Type → Type} [Monad M] [MonadLiftT Run M]

/-- Statements one after the other, up to one that asks for a jump. -/
@[specialize]
def untilJump (eval : Evaluator M) : List Tree → M Value
  | [] => return .nothing
  | t :: ts => do
    match ← eval t with
    | .jump j => return .jump j
    | _ => untilJump eval ts

@[specialize]
def block (eval : Evaluator M) (children : List Tree) : M Value := do
  Run.changeStore Store.pushScope
  let v ← untilJump eval children
  Run.changeStore Store.popScope
  return v

/-- The block of a function, up to a return. -/
@[specialize]
def body (eval : Evaluator M) : List Tree → M Value
  | [] => return .nothing
  | t :: ts => do
    let v ← eval t
    if t.isReturn then return v else body eval ts

@[specialize]
def ifElse (eval : Evaluator M) (condition whenTrue whenFalse : Tree) : M Value := do
  if (← eval condition).truth then eval whenTrue else eval whenFalse

/-- The children of a switch. Labels are compared with the subject until one fits, and then the
statements are executed, further labels being passed over. -/
@[specialize]
def cases (eval : Evaluator M) (subject : Value) : Bool → List Tree → M Unit
  | _, [] => return ()
  | false, t :: ts => do
    match t with
    | .caseLabel e _ =>
      let v ← eval e
      let fits ← Run.ofExcept (v.compare .eq subject)
      cases eval subject fits.truth ts
    | .defaultLabel _ => cases eval subject true ts
    | _ => cases eval subject false ts
  | true, t :: ts => do
    if t.isLabel then cases eval subject true ts
    else
      match ← eval t with
      | .jump .leave => return ()
      | _ => cases eval subject true ts

@[specialize]
def switch (eval : Evaluator M) (subject : Tree) (children : List Tree) : M Value := do
  cases eval (← eval subject) false children
  return .nothing

/-- Repeats a body and what follows it as long as the condition holds, for at most `fuel` turns. -/
@[specialize]
def whileTrue (condition body follow : M Value) : Nat → M Value
  | 0 => Run.fail .outOfFuel
  | fuel + 1 => do
    if (← condition).truth then
      match ← body with
      | .jump .leave => return .nothing
      | _ =>
        let _ ← follow
        whileTrue condition body follow fuel
    else return .nothing

/-- Repeats a body until the condition does not hold after it, for at most `fuel` turns. -/
@[specialize]
def doWhile (condition body : M Value) : Nat → M Value
  | 0 => Run.fail .outOfFuel
  | fuel + 1 => do
    match ← body with
    | .jump .leave => return .nothing
    | _ => if (← condition).truth then doWhile condition body fuel else return .nothing

@[specialize]
def forLoop (eval : Evaluator M) (fuel : Nat) (setup condition increment body : Tree) :
    M Value := do
  let _ ← eval setup
  whileTrue (eval condition) (eval body) (eval increment) fuel

end MiniC.Eval

import MiniC.Grammar.Declaration

/-!
# Statements

Statements contain statements, always behind at least one token, so again the number of tokens left
bounds the depth. Blocks, function bodies and switch bodies mix statements with declarations.
-/

namespace MiniC.Grammar

open MiniC.Parser

def isJump (k : Kind) : Bool :=
  k == .kwReturn || k == .kwBreak || k == .kwContinue

def isSelection (k : Kind) : Bool :=
  k == .kwIf || k == .kwSwitch

def isIteration (k : Kind) : Bool :=
  k == .kwWhile || k == .kwDo || k == .kwFor

def expressionStatement : Parser Tree := do
  if (← kind) == .semicolon then
    advance
    return .noOp (← line)
  else
    let e ← expression
    eat .semicolon
    return e

/-- A jump; an empty place if no jump stands here. -/
def jumpStatement : Parser Tree := do
  match ← kind with
  | .kwReturn =>
    advance
    let nothing ← empty
    let value ← if (← kind) == .semicolon then pure nothing else expression
    eat .semicolon
    return .returning value (← line)
  | .kwBreak =>
    advance
    eat .semicolon
    return .breaking (← line)
  | .kwContinue =>
    advance
    eat .semicolon
    return .continuing (← line)
  | _ => return .absent

def switchLabel : Parser Tree := do
  if (← kind) == .kwCase then
    advance
    let value ← expression
    eat .colon
    return .caseLabel value (← line)
  else
    eat .kwDefault
    eat .colon
    return .defaultLabel (← line)

def itemOf (statement : Parser Tree) : Parser (List Tree) := do
  if (← kind).startsDeclaration then declaration else return [← statement]

def itemsOf (statement : Parser Tree) : Parser (List Tree) := do
  eat .lbracket
  let items ← manyWhile (· != .rbracket) (itemOf statement)
  eat .rbracket
  return items.flatten

def compoundOf (statement : Parser Tree) : Parser Tree := do
  let items ← itemsOf statement
  return .block items (← line)

def ifOf (statement : Parser Tree) : Parser Tree := do
  eat .kwIf
  eat .lparen
  let condition ← expression
  eat .rparen
  let whenTrue ← statement
  let nothing ← empty
  if (← kind) == .kwElse then
    advance
    let whenFalse ← statement
    return .ifElse condition whenTrue whenFalse (← line)
  else return .ifElse condition whenTrue nothing (← line)

def switchOf (statement : Parser Tree) : Parser Tree := do
  eat .kwSwitch
  eat .lparen
  let subject ← expression
  eat .rparen
  eat .lbracket
  let items ← manyWhile (· != .rbracket) (do
    let k ← kind
    if k == .kwCase || k == .kwDefault then return [← switchLabel] else itemOf statement)
  eat .rbracket
  return .switch subject items.flatten (← line)

/-- A selection; an empty place if none stands here. -/
def selectionOf (statement : Parser Tree) : Parser Tree := do
  match ← kind with
  | .kwIf => ifOf statement
  | .kwSwitch => switchOf statement
  | _ => return .absent

def whileOf (statement : Parser Tree) : Parser Tree := do
  eat .kwWhile
  eat .lparen
  let condition ← expression
  eat .rparen
  let body ← statement
  return .whileLoop condition body (← line)

def doWhileOf (statement : Parser Tree) : Parser Tree := do
  eat .kwDo
  let body ← statement
  eat .kwWhile
  eat .lparen
  let condition ← expression
  eat .rparen
  eat .semicolon
  return .doWhile condition body (← line)

def forOf (statement : Parser Tree) : Parser Tree := do
  eat .kwFor
  eat .lparen
  let setup ← expressionStatement
  let condition ← expressionStatement
  let nothing ← empty
  let increment ← if (← kind) == .rparen then pure nothing else expression
  eat .rparen
  let body ← statement
  return .forLoop setup condition increment body (← line)

def iterationOf (statement : Parser Tree) : Parser Tree := do
  match ← kind with
  | .kwWhile => whileOf statement
  | .kwDo => doWhileOf statement
  | _ => forOf statement

def statementOf (statement : Parser Tree) : Parser Tree := do
  let k ← kind
  if isIteration k then iterationOf statement
  else if isSelection k then selectionOf statement
  else if isJump k then jumpStatement
  else if k == .lbracket then compoundOf statement
  else expressionStatement

def statementAt : Nat → Parser Tree
  | 0 => throw .exhausted
  | depth + 1 => statementOf (statementAt depth)

def withStatements {α : Type} (rule : Parser Tree → Parser α) : Parser α := do
  rule (statementAt (← left))

def statement : Parser Tree := withStatements statementOf

def functionBody : Parser Tree := do
  let items ← withStatements itemsOf
  return .body items (← line)

end MiniC.Grammar

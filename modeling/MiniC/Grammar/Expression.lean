import MiniC.Grammar.Parser

/-!
# Expressions

Assignments group to the right and bind loosest, then come the conditional operator, ten levels of
binary operators, casts, prefix operators and postfix forms. The rules that can be entered again
from inside an expression are always entered behind at least one token, so the number of tokens
left bounds the depth.
-/

namespace MiniC.Grammar

open MiniC.Parser

def levels : List (List Kind) :=
  [[.logAndOp], [.logOrOp], [.orOp], [.xorOp], [.ampersand], [.eqOp, .neOp],
    [.leOp, .ltOp, .geOp, .gtOp], [.leftOp, .rightOp], [.plus, .minus],
    [.asterisk, .divOp, .modOp]]

/-- Binary operators of the given levels between operands. -/
def binaryOf : List (List Kind) → Parser Tree → Parser Tree
  | [], operand => operand
  | ops :: tighter, operand => chain (fun k => ops.contains k) (binaryOf tighter operand)

def variableName : Parser Tree := do
  let node := Tree.var (← token) (← line)
  eat .id
  return node

def stringLiteral : Parser Tree := do
  let node := Tree.string (← token) (← line)
  eat .string
  return node

def empty : Parser Tree := do
  return .noOp (← line)

def constant : Parser Tree := do
  let t ← token
  match t.kind with
  | .charConst | .integerConst | .realConst =>
    advance
    return .num t (← line)
  | k => throw (.invalidConstant k)

def specifiers : Parser (List String) :=
  manyWhile Kind.isTypeSpecifier (do
    let t ← token
    advance
    return t.value.render)

/-- A structure type or the words of an arithmetic type, and a star for a pointer. -/
def typeSpecifier : Parser Tree := do
  if (← kind) == .kwStruct then
    let mark ← left
    advance
    let name := (← token).value.render
    eat .id
    let pointer := (← kind) == .asterisk
    if pointer then advance
    return .structName (.struct ⟨name, pointer, mark⟩) (← line)
  else
    let words ← specifiers
    let pointer := (← kind) == .asterisk
    if pointer then advance
    match CType.ofText (" ".intercalate (if pointer then words ++ ["*"] else words)) with
    | .ok t => return .typeName (.number t) (← line)
    | .error cause => throw (.badType cause (← line))

/-- The rules that can be entered again from inside an expression. -/
inductive Nested where
  | assignment
  | conditional
  | cast
  deriving DecidableEq

/-- Assignments with commas between them; a single one stands for itself. -/
def expressionOf (nested : Nested → Parser Tree) : Parser Tree := do
  match ← commaList (nested .assignment) with
  | [e] => return e
  | es => return .sequence es (← line)

def argumentsOf (nested : Nested → Parser Tree) : Parser (List Tree) :=
  commaList (nested .assignment)

def variableOrField : Parser Tree := do
  let v ← variableName
  let k ← kind
  if k == .dot || k == .arrow then
    advance
    let member ← variableName
    return .field k v member (← line)
  else return v

/-- An expression in parentheses; a field behind them is read and left out. -/
def parenthesized (nested : Nested → Parser Tree) : Parser Tree := do
  eat .lparen
  let e ← expressionOf nested
  eat .rparen
  if (← kind) == .dot then
    advance
    let _ ← variableName
  return e

def primaryOf (nested : Nested → Parser Tree) : Parser Tree := do
  let t ← token
  match t.kind with
  | .lparen => parenthesized nested
  | .integerConst | .realConst | .charConst => constant
  | .string => stringLiteral
  | .asterisk =>
    advance
    let v ← variableName
    return .unary t v true (← line)
  | _ => variableOrField

def postfixOf (nested : Nested → Parser Tree) : Parser Tree := do
  let node ← primaryOf nested
  let t ← token
  match t.kind with
  | .incOp | .decOp =>
    advance
    return .unary t node false (← line)
  | .lparen =>
    advance
    let args ← if (← kind) == .rparen then pure [] else argumentsOf nested
    eat .rparen
    match node with
    | .var v _ => return .call v.value.render args (← line)
    | _ => throw .calleeNotName
  | .dot | .arrow =>
    advance
    match node with
    | .var .. =>
      let member ← variableName
      return .field t.kind node member (← line)
    | _ => throw .structNotName
  | _ => return node

def unaryOf (nested : Nested → Parser Tree) : Parser Tree := do
  let t ← token
  match t.kind with
  | .incOp | .decOp =>
    advance
    let e ← primaryOf nested
    return .unary t e true (← line)
  | .ampersand =>
    advance
    let e ← variableName
    return .unary t e true (← line)
  | .asterisk | .plus | .minus | .logNeg =>
    advance
    let e ← nested .cast
    return .unary t e true (← line)
  | _ => postfixOf nested

/-- Whether the words of a type follow in parentheses. -/
def castAhead : Parser Bool :=
  lookahead do
    if (← kind) == .lparen then
      advance
      if !(← kind).isTypeSpecifier then return false
      let _ ← specifiers
      return (← kind) == .rparen
    else return false

def castOf (nested : Nested → Parser Tree) : Parser Tree := do
  if ← castAhead then
    eat .lparen
    let target ← typeSpecifier
    eat .rparen
    let e ← nested .cast
    return .cast target e true (← line)
  else unaryOf nested

def conditionalOf (nested : Nested → Parser Tree) : Parser Tree := do
  let node ← binaryOf levels (castOf nested)
  if (← kind) == .questionMark then
    advance
    let whenTrue ← expressionOf nested
    eat .colon
    let whenFalse ← nested .conditional
    return .ternary node whenTrue whenFalse (← line)
  else return node

/-- Whether a variable, what a variable points to, or a field follows, and behind it an assignment
operator. -/
def assignmentAhead : Parser Bool :=
  lookahead do
    if (← kind) == .asterisk then advance
    if (← kind) != .id then return false
    advance
    if (← kind) == .dot then
      advance
      if (← kind) != .id then return false
      advance
    if (← kind) == .arrow then
      advance
      if (← kind) != .id then return false
      advance
    let k ← kind
    if k == .ampersand then throw .ampersandBehindTarget
    return k.isAssignment

def assignmentOf (nested : Nested → Parser Tree) : Parser Tree := do
  if ← assignmentAhead then
    let target ← primaryOf nested
    let t ← token
    if t.kind.isAssignment then
      advance
      let value ← nested .assignment
      return .assign target t value (← line)
    else conditionalOf nested
  else conditionalOf nested

/-- The rules that can be entered again, to a depth. -/
def nestedAt : Nat → Nested → Parser Tree
  | 0, _ => throw .exhausted
  | depth + 1, .assignment => assignmentOf (nestedAt depth)
  | depth + 1, .conditional => conditionalOf (nestedAt depth)
  | depth + 1, .cast => castOf (nestedAt depth)

/-- Applies a rule with the depth that the tokens left allow for. A rule may enter another one
before it takes a token. -/
def entering {α : Type} (rule : (Nested → Parser Tree) → Parser α) : Parser α := do
  rule (nestedAt ((← left) + 1))

def assignmentExpression : Parser Tree := entering assignmentOf

def expression : Parser Tree := entering expressionOf

end MiniC.Grammar

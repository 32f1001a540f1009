import MiniC.Grammar.Expression

/-!
# Declarations of variables and structures

A declaration of variables gives a list of nodes: one for each variable, followed by the assignment
of its initial value if there is one. The variables of a declaration share their type.
-/

namespace MiniC.Grammar

open MiniC.Parser

/-- A variable, with an assignment behind it if it has an initial value. -/
def initDeclarator : Parser (List Tree) := do
  let v ← variableName
  let t ← token
  if t.kind == .assign then
    advance
    let value ← assignmentExpression
    return [v, .assign v t value (← line)]
  else return [v]

def initDeclarators : Parser (List Tree) :=
  List.flatten <$> commaList initDeclarator

/-- Declares the variables of a list and leaves its assignments as they are. -/
def declareVariables (type : Tree) (line : Nat) (nodes : List Tree) : List Tree :=
  nodes.map fun node =>
    match node with
    | .var .. => .varDecl node type line
    | _ => node

def varDeclaration : Parser (List Tree) := do
  let type ← typeSpecifier
  let nodes ← initDeclarators
  let decls := declareVariables type (← line) nodes
  eat .semicolon
  return decls

def structDeclarators : Parser (List Tree) :=
  commaList variableName

def fieldDeclaration : Parser (List Tree) := do
  let type ← typeSpecifier
  let vars ← structDeclarators
  let decls := declareVariables type (← line) vars
  eat .semicolon
  return decls

def fieldsOf (decls : List Tree) : Table VarType :=
  Table.ofList <| decls.filterMap fun d =>
    match d with
    | .varDecl var type _ => do return (← var.name?, ← type.type?)
    | _ => none

def structDeclaration : Parser Tree := do
  let mark ← left
  eat .kwStruct
  let name := (← token).value.render
  eat .id
  eat .lbracket
  let decls ← manyWhile (· != .rbracket) fieldDeclaration
  eat .rbracket
  eat .semicolon
  return .structDecl name (fieldsOf decls.flatten) mark (← line)

def structAhead : Parser Bool :=
  lookahead do
    if (← kind) != .kwStruct then return false
    advance
    if (← kind) != .id then return false
    advance
    return (← kind) == .lbracket

def declaration : Parser (List Tree) := do
  if ← structAhead then return [← structDeclaration] else varDeclaration

end MiniC.Grammar

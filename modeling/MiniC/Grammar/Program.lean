import MiniC.Grammar.Statement

/-!
# Programs

A program is a list of library includes, functions and declarations up to the end of the text.
-/

namespace MiniC.Grammar

open MiniC.Parser

def libraryInclude : Parser Tree := do
  eat .hash
  let word := (← token).value
  if word ≠ .text "include" then throw (.expectedInclude word (← line))
  eat .id
  eat .ltOp
  let name := (← token).value.render
  eat .id
  eat .dot
  if (← token).value ≠ .text "h" then throw (.headersOnly (← line))
  eat .id
  eat .gtOp
  return .library name (← line)

def functionAhead : Parser Bool :=
  lookahead do
    let _ ← typeSpecifier
    if (← kind) != .id then return false
    advance
    return (← kind) == .lparen

def parameter : Parser Tree := do
  let type ← typeSpecifier
  let var ← variableName
  return .param type var (← line)

def parameters : Parser (List Tree) := do
  if (← kind) == .rparen then return [] else commaList parameter

def functionDeclaration : Parser Tree := do
  let type ← typeSpecifier
  let name := (← token).value.render
  eat .id
  eat .lparen
  let params ← parameters
  eat .rparen
  let body ← functionBody
  return .function type name params body (← line)

def topLevelItem : Parser (List Tree) := do
  if (← kind) == .hash then return [← libraryInclude]
  else if ← functionAhead then return [← functionDeclaration]
  else declaration

def declarations : Parser (List Tree) :=
  List.flatten <$> manyWhile (fun k => k.startsDeclaration || k == .hash) topLevelItem

def program : Parser Tree := do
  let children ← declarations
  return .program children (← line)

def wholeProgram : Parser Tree := do
  let node ← program
  let k ← kind
  if k == .eof then return node else throw (.trailing k)

def parseStream (s : Stream) : Except SyntaxError Tree :=
  Prod.fst <$> start wholeProgram s

end MiniC.Grammar

import MiniC.Symbol.Basic

/-!
# The text of symbols and tables
-/

namespace MiniC

def renderSymbol (kind name : String) (t : VarType) : String :=
  "<" ++ kind ++ "(name='" ++ name ++ "', type='" ++ t.render ++ "')>"

def Typing.render : Typing → String
  | nothing => "None"
  | type t => t.render
  | parameter name t => renderSymbol "VarSymbol" name t

def Typing.renderList (ts : List Typing) : String :=
  "[" ++ ", ".intercalate (ts.map Typing.render) ++ "]"

namespace Symbol

def renderFields (fields : Table VarType) : String :=
  "\x7b" ++ ", ".intercalate (fields.map fun f => Text.quoted f.1 ++ ": " ++ f.2.render) ++ "\x7d"

def render : Symbol → String
  | var name t => renderSymbol "VarSymbol" name t
  | constant name t => renderSymbol "ConstSymbol" name t
  | struct t fields =>
    "<StructSymbol(name='" ++ t.name ++ "' fields='" ++ renderFields fields ++ "'))>"
  | function name t params =>
    "<FunctionSymbol(type=" ++ t.elim "None" VarType.render ++ ", name=" ++ name ++
      ", parameters=" ++ params.elim "None" Typing.renderList ++ ")>"

end Symbol

namespace SymbolTable

/-- The text of the innermost table: a heading, its place among the scopes and its symbols. -/
def render : List SymbolTable → String
  | [] => "None"
  | t :: outer =>
    let title := "SCOPE (SCOPED SYMBOL TABLE)"
    let contents := "Scope (Scoped symbol table) contents"
    let enclosing := outer.head?.elim "None" SymbolTable.name
    let header (label value : String) : String := Text.padRight 15 label ++ ": " ++ value
    "\n".intercalate (["\n", title, Text.ruler '=' title.length, header "Scope name" t.name,
      header "Scope level" (toString t.level), header "Enclosing scope" enclosing, contents,
      Text.ruler '-' contents.length] ++
      t.symbols.map (fun e => Text.padLeft 7 e.1 ++ ": " ++ e.2.render) ++ ["\n"])

end SymbolTable

end MiniC

import MiniC.Fault
import MiniC.Table
import MiniC.Text.Digit
import MiniC.Text.Padded

/-!
# Symbols and their tables

A symbol is what is known of a name before a program runs. Symbols are kept in tables, one for each
scope, and a name is looked up from the innermost table outwards.
-/

namespace MiniC

/-- What the analysis finds out about a tree: nothing, a type, or the parameter that it declares. -/
inductive Typing where
  | nothing
  | type (t : VarType)
  | parameter (name : String) (t : VarType)
  deriving DecidableEq

inductive Symbol where
  | var (name : String) (type : VarType)
  | constant (name : String) (type : VarType)
  | struct (type : StructType) (fields : Table VarType)
  /-- A function. It may return nothing, and it may take any arguments. -/
  | function (name : String) (type : Option VarType) (params : Option (List Typing))
  deriving DecidableEq

namespace Symbol

def name : Symbol → String
  | var n _ => n
  | constant n _ => n
  | struct t _ => t.name
  | function n _ _ => n

/-- The type of a symbol; for a function, the type that it returns. -/
def typing : Symbol → Typing
  | var _ t => .type t
  | constant _ t => .type t
  | struct t _ => .type (.struct t)
  | function _ none _ => .nothing
  | function _ (some t) _ => .type t

end Symbol

structure SymbolTable where
  name : String
  level : Nat
  symbols : Table Symbol
  deriving DecidableEq

namespace SymbolTable

/-- An empty table for a scope inside the given ones, innermost first. -/
def inside (outer : List SymbolTable) (name : String) : SymbolTable :=
  ⟨name, outer.head?.elim 1 fun t => t.level + 1, []⟩

/-- A symbol replaces an earlier one of its name. -/
def insert (t : SymbolTable) (s : Symbol) : SymbolTable :=
  { t with symbols := t.symbols.put s.name s }

def find? (t : SymbolTable) (name : String) : Option Symbol :=
  t.symbols.get? name

theorem find?_insert_self (t : SymbolTable) (s : Symbol) : (t.insert s).find? s.name = some s :=
  Table.get?_put_self t.symbols s.name s

theorem find?_insert_of_ne (t : SymbolTable) (s : Symbol) {name : String} (h : s.name ≠ name) :
    (t.insert s).find? name = t.find? name :=
  Table.get?_put_of_ne t.symbols s h

/-- The symbol of a name in the nearest of the tables, innermost first, that has one. -/
def lookup? (ts : List SymbolTable) (name : String) : Option Symbol :=
  ts.findSome? (·.find? name)

/-- The name of a scope inside another one: a number at the end, of at most two digits, is counted
up, and a name without one gets the first number. Some digits, such as raised ones, are no part of a
number. -/
def innerName (name : String) : Except Fault String :=
  let cs := name.toList
  let front := cs.take (cs.length - 2)
  let back := cs.drop (cs.length - 2)
  if !back.isEmpty && back.all Text.isDigit then
    match back.mapM Text.decimalValue? with
    | some ds =>
      let n := ds.foldl (fun n d => 10 * n + d) 0
      .ok (String.ofList front ++ Text.twoDigits (n + 1))
    | none => .error .outsideDomain
  else .ok (name ++ Text.twoDigits 1)

end SymbolTable

end MiniC

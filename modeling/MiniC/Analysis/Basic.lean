import MiniC.Analysis.Typing
import MiniC.Library.Basic

/-!
# Checking names

The state of the analysis, and the rules for names: what is declared, looked up and called. The
tables of the scopes that are open are kept innermost first.
-/

namespace MiniC

structure Analysis where
  tables : List SymbolTable
  /-- How many loops are open. -/
  loops : Nat
  /-- How many switches are open. -/
  switches : Nat
  /-- The warnings so far, in order. -/
  warnings : List Warning

abbrev Check := ExceptT Rejection (StateM Analysis)

namespace Check

variable {α : Type}

def ofExcept (r : Except Rejection α) : Check α :=
  match r with
  | .ok a => pure a
  | .error e => throw e

def reject (e : SemanticError) : Check α :=
  throw (.error e)

def fail (f : Fault) : Check α :=
  throw (.fault f)

def warn (w : Warning) : Check Unit :=
  modify fun s => { s with warnings := s.warnings ++ [w] }

/-- The innermost table, which has to be there. -/
def current : Check SymbolTable := do
  match (← get).tables with
  | t :: _ => return t
  | [] => fail .noSuchPart

def lookup (name : String) : Check (Option Symbol) := do
  let _ ← current
  return SymbolTable.lookup? (← get).tables name

def insert (s : Symbol) : Check Unit := do
  match (← get).tables with
  | t :: ts => modify fun a => { a with tables := t.insert s :: ts }
  | [] => fail .noSuchPart

/-- Puts a symbol into the table around the innermost one. -/
def insertOutside (s : Symbol) : Check Unit :=
  modify fun a =>
    match a.tables with
    | t :: u :: ts => { a with tables := t :: u.insert s :: ts }
    | _ => a

/-- Puts a symbol into the innermost table, which must not have one of its name. -/
def declare (s : Symbol) (line : Nat) : Check Unit := do
  if ((← current).find? s.name).isSome then reject (.duplicate s.name line)
  insert s

def within (t : SymbolTable) (p : Check α) : Check α := do
  modify fun a => { a with tables := t :: a.tables }
  let r ← p
  modify fun a => { a with tables := a.tables.tail }
  return r

def inLoop (p : Check α) : Check α := do
  modify fun a => { a with loops := a.loops + 1 }
  let r ← p
  modify fun a => { a with loops := a.loops - 1 }
  return r

def inSwitch (p : Check α) : Check α := do
  modify fun a => { a with switches := a.switches + 1 }
  let r ← p
  modify fun a => { a with switches := a.switches - 1 }
  return r

end Check

namespace Analysis

def start : Analysis := ⟨[], 0, 0, []⟩

def nameOf (t : Tree) : Check String :=
  match t.name? with
  | some name => return name
  | none => Check.fail .noSuchPart

def typeOf (t : Tree) : Check VarType :=
  match t.type? with
  | some type => return type
  | none => Check.fail .noSuchPart

def variableType (name : String) (line : Nat) : Check Typing := do
  match ← Check.lookup name with
  | some s => return s.typing
  | none => Check.reject (.unknownName name line)

def structType (t : VarType) (line : Nat) : Check Typing := do
  match t with
  | .struct t =>
    match ← Check.lookup t.name with
    | some (.struct s _) => return .type (.struct s)
    | _ => Check.reject (.unknownStruct t.name line)
  | .number _ => Check.fail .noSuchPart

/-- The type of a field. A field that is a structure is held by its address. -/
def fieldType (op : Kind) (base member : Tree) (line : Nat) : Check Typing := do
  let some symbol ← Check.lookup (← nameOf base) | Check.fail .noSuchPart
  let .type (.struct t) := symbol.typing | Check.reject (.fieldOfNoStruct symbol.name line)
  if (t.pointer && op = .dot) || (!t.pointer && op = .arrow) then
    Check.reject (.wrongFieldOperator line)
  let definition ← Check.lookup t.name
  let field ← nameOf member
  let some (.struct _ fields) := definition | Check.fail .noSuchPart
  match fields.get? field with
  | some (.number c) => return .type (.number c)
  | some (.struct _) => return .int
  | none => Check.reject (.noSuchField field t.name line)

def declareStruct (name : String) (fields : Table VarType) (mark line : Nat) : Check Unit := do
  let nested := fields.any fun f =>
    match f.2 with
    | .struct t => !t.pointer
    | .number _ => false
  if nested then Check.reject (.structInStruct name line)
  Check.declare (.struct ⟨name, false, mark⟩ fields) line

def declareParam (type var : Tree) (line : Nat) : Check Typing := do
  let name ← nameOf var
  let type ← typeOf type
  Check.declare (.var name type) line
  return .parameter name type

/-- The symbol of a library function. The parameters are numbered. -/
def librarySymbol (f : Builtin) : Symbol :=
  let param (t : CType) (i : Nat) : Typing :=
    .parameter ("param" ++ Text.twoDigits (i + 1)) (.number t)
  .function f.name (f.returnType.map VarType.number)
    (f.parameterTypes.map fun ts => ts.mapIdx fun i t => param t i)

/-- Declares the functions of a library whose names are not taken, and all of its constants. -/
def includeLibrary (name : String) : Check Unit := do
  match Library.find? name with
  | some l =>
    l.functions.forM fun f => do
      if (← Check.lookup f.name).isNone then Check.insert (librarySymbol f)
    l.constants.forM fun c => Check.insert (.constant c.1 (.number .int))
  | none => Check.fail (.noSuchLibrary name)

def blockTable : Check SymbolTable := do
  let t ← Check.current
  match SymbolTable.innerName t.name with
  | .ok name => return .inside (← get).tables name
  | .error f => Check.fail f

end Analysis

end MiniC

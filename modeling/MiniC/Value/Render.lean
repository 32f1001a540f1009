import MiniC.Store.Render

/-!
# The text of values

Plain values and numbers have their own text, and a structure variable lists its fields. Of
functions and structures only the kind is shown.
-/

namespace MiniC.Value

def renderFields (fields : Table Scalar) : String :=
  "\x7b" ++ ", ".intercalate (fields.map fun f => Text.quoted f.1 ++ ": " ++ f.2.quoted) ++ "\x7d"

def renderOther (s : Store) : Value → String
  | scalar _ => ""
  | number n => n.render
  | constant n => n.render
  | record fields => renderFields fields
  | function .. => "<interpreter.syntax_analysis.tree.FunctionDecl object at 0x?>"
  | structDef .. => "<interpreter.syntax_analysis.tree.StructDecl object at 0x?>"
  | builtin f => "<function " ++ f.name ++ " at 0x?>"
  | jump _ => "<interpreter.interpreter.interpreter.ControlFlowFlag object at 0x?>"
  | memory => s.render

/-- The text of a value; `quoted` puts plain texts in quotes. -/
def render (s : Store) (quoted : Bool) : Value → String
  | scalar v => if quoted then v.quoted else v.render
  | v => v.renderOther s

/-- The address that a value stands for. Values that could change have none. -/
def address (s : Store) : Value → Except Fault Scalar
  | scalar v => .ok v
  | number _ => .error .wrongKind
  | constant _ => .error .wrongKind
  | record _ => .error .wrongKind
  | v => .ok (.text (v.renderOther s))

end MiniC.Value

import MiniC.Scalar.Arithmetic
import MiniC.Store.Basic

/-!
# The text of the store

A listing of the scopes with what their names stand for, the global scope first and then the frames,
outermost first, each from its innermost scope outwards. The cells are listed apart, in the order of
their addresses.
-/

namespace MiniC

def Binding.render : Binding → String
  | .at a => a.render
  | .constant n => n.render

def rulerWidth : Nat := 40

def Scope.render (c : Scope) : String :=
  c.name ++ "\n" ++ "\n".intercalate (c.entries.map fun e => e.1 ++ ":" ++ e.2.render)

def Frame.render (f : Frame) : String :=
  "Frame: " ++ f.name ++ "\n" ++ Text.ruler '*' rulerWidth ++ "\n" ++
    "\n".intercalate (f.scopes.map fun c => c.render ++ "\n" ++ Text.ruler '-' rulerWidth)

namespace Store

def render (s : Store) : String :=
  s.globals.render ++ "\nStack\n" ++ Text.ruler '=' rulerWidth ++ "\n" ++
    "\n".intercalate (s.frames.reverse.map Frame.render)

def addressLe (a b : Scalar) : Bool :=
  match a.num?, b.num? with
  | some x, some y => x.order? y != some .gt
  | some _, none => true
  | none, some _ => false
  | none, none => a.render ≤ b.render

def listing (s : Store) : List (Scalar × Value) :=
  (s.cells.toList.map fun c => (c.2.label, c.2.value)).mergeSort fun a b => addressLe a.1 b.1

def dynamicAddresses (s : Store) : List Scalar :=
  s.dynamic.toList.map (·.2)

end Store

end MiniC

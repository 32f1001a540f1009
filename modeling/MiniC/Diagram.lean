import MiniC.Fault
import MiniC.Text.Padded
import MiniC.Tree.Basic

/-!
# Diagrams of trees

The tree of a program as a graph in the DOT language: one line for each node, with its number and
its label, and one for each edge. Nodes are numbered in the order in which they are met, and the
edge to a child is written behind the child. Many nodes cannot be drawn.
-/

namespace MiniC

structure Diagram where
  next : Nat
  lines : List String

abbrev Draw := ExceptT Fault (StateM Diagram)

namespace Diagram

def start : Diagram := ⟨1, []⟩

def header : String :=
  "digraph astgraph \x7b\n" ++
  "  node [shape=circle, fontsize=12, fontname=\"Courier\", height=.1];\n" ++
  "  ranksep=.3;\n" ++
  "  edge [arrowsize=.5]\n\n"

def footer : String := "\x7d"

def write (line : String) : Draw Unit :=
  modify fun d => { d with lines := d.lines ++ [line] }

def node (label : String) : Draw Nat := do
  let n := (← get).next
  write ("  node" ++ toString n ++ " [label=\"" ++ label ++ "\"]\n")
  modify fun d => { d with next := n + 1 }
  return n

def edge (parent child : Nat) (label : Option String) : Draw Unit :=
  let mark := label.elim "" fun l => " [label=\"" ++ l ++ "\"]"
  write ("  node" ++ toString parent ++ " -> node" ++ toString child ++ mark ++ "\n")

def argumentLabel (i : Nat) : String :=
  "Arg" ++ Text.twoDigits i

mutual

def draw : Tree → Draw Nat
  | .noOp _ => node "NoOp"
  | .num token _ => node token.value.render
  | .string token _ => node ("String:" ++ token.value.render)
  | .var token _ => node token.value.render
  | .library name _ => node ("Include:" ++ name)
  | .typeName _ _ => throw .noSuchPart
  | .binary _ _ _ _ => throw .noSuchPart
  | .unary _ _ _ _ => throw .noSuchPart
  | .cast _ _ _ _ => throw .noSuchPart
  | .program children _ => do
    let n ← node "Program"
    drawAll n children
    return n
  | .block children _ => do
    let n ← node "CompoundStmt"
    drawAll n children
    return n
  | .body children _ => do
    let n ← node "FunctionBody"
    drawAll n children
    return n
  | .sequence children _ => do
    let n ← node "Expression"
    drawAll n children
    return n
  | .varDecl var type _ => do
    let n ← node "VarDecl"
    edge n (← draw var) none
    edge n (← draw type) none
    return n
  | .param type var _ => do
    let n ← node "Param"
    edge n (← draw var) none
    edge n (← draw type) none
    return n
  | .function _ name params body _ => do
    let n ← node ("FunctionDecl:" ++ name)
    drawAll n params
    edge n (← draw body) none
    return n
  | .call name args _ => do
    let n ← node ("FunctionCall:" ++ name)
    drawArgs n 0 args
    return n
  | .returning value _ => do
    let n ← node "ReturnStmt"
    edge n (← draw value) none
    return n
  | .whileLoop condition body _ => do
    let n ← node "WhileStmt"
    edge n (← draw condition) none
    edge n (← draw body) none
    return n
  | .doWhile condition body _ => do
    let n ← node "DoWhileStmt"
    edge n (← draw condition) none
    edge n (← draw body) none
    return n
  | .forLoop setup condition increment body _ => do
    let n ← node "ForStmt"
    edge n (← draw setup) (some "setup")
    edge n (← draw condition) (some "condition")
    edge n (← draw increment) (some "increment")
    edge n (← draw body) (some "body")
    return n
  | .ifElse condition _ _ _ => do
    let n ← node "IfStmt"
    edge n (← draw condition) (some "condition")
    throw .noSuchPart
  | t => throw (.noRule t.className)

def drawAll (parent : Nat) : List Tree → Draw Unit
  | [] => return ()
  | t :: ts => do
    edge parent (← draw t) none
    drawAll parent ts

def drawArgs (parent i : Nat) : List Tree → Draw Unit
  | [] => return ()
  | t :: ts => do
    edge parent (← draw t) (some (argumentLabel i))
    drawArgs parent (i + 1) ts

end

/-- Draws a tree: the lines, and whether it could be drawn. -/
def ofTree (t : Tree) : Except Fault Unit × List String :=
  let (r, d) := (do let _ ← draw t : Draw Unit).run start
  (r, d.lines)

def render (lines : List String) : String :=
  header ++ String.join lines ++ footer

end Diagram

end MiniC

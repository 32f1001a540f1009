import MiniC.CType.Basic
import MiniC.Table
import MiniC.Token.Basic

/-!
# Syntax trees

One type of trees for whole programs, declarations, statements and expressions. A tree can be put
together freely, also where the grammar would not: any tree may stand in any place, and a place may
be left empty. Each node but the empty one has the line that had been reached when it was read.
-/

namespace MiniC

inductive Tree where
  /-- An empty place. -/
  | absent
  | noOp (line : Nat)
  | num (token : Token) (line : Nat)
  | string (token : Token) (line : Nat)
  | var (token : Token) (line : Nat)
  | typeName (type : VarType) (line : Nat)
  | structName (type : VarType) (line : Nat)
  | binary (left : Tree) (op : Token) (right : Tree) (line : Nat)
  /-- An operator before or behind its operand. -/
  | unary (op : Token) (operand : Tree) (before : Bool) (line : Nat)
  | cast (target operand : Tree) (before : Bool) (line : Nat)
  | ternary (condition whenTrue whenFalse : Tree) (line : Nat)
  | assign (target : Tree) (op : Token) (value : Tree) (line : Nat)
  | sequence (children : List Tree) (line : Nat)
  | call (name : String) (args : List Tree) (line : Nat)
  /-- A field, by a dot of a structure or by an arrow of a pointer to one. -/
  | field (op : Kind) (base member : Tree) (line : Nat)
  | switch (subject : Tree) (children : List Tree) (line : Nat)
  | caseLabel (value : Tree) (line : Nat)
  | defaultLabel (line : Nat)
  | ifElse (condition whenTrue whenFalse : Tree) (line : Nat)
  | forLoop (setup condition increment body : Tree) (line : Nat)
  | whileLoop (condition body : Tree) (line : Nat)
  | doWhile (condition body : Tree) (line : Nat)
  | returning (value : Tree) (line : Nat)
  | breaking (line : Nat)
  | continuing (line : Nat)
  | block (children : List Tree) (line : Nat)
  /-- The block of a function, which opens no scope of its own. -/
  | body (children : List Tree) (line : Nat)
  | program (children : List Tree) (line : Nat)
  | varDecl (var type : Tree) (line : Nat)
  | param (type var : Tree) (line : Nat)
  /-- A structure. The mark tells it apart from the types written elsewhere. -/
  | structDecl (name : String) (fields : Table VarType) (mark : Nat) (line : Nat)
  | library (name : String) (line : Nat)
  | function (type : Tree) (name : String) (params : List Tree) (body : Tree) (line : Nat)

instance : Inhabited Tree := ⟨.absent⟩

namespace Tree

/-- The name of the class of a node, as messages show it. -/
def className : Tree → String
  | absent => "NoneType"
  | noOp .. => "NoOp"
  | num .. => "Num"
  | string .. => "String"
  | var .. => "Var"
  | typeName .. => "Type"
  | structName .. => "StructType"
  | binary .. => "BinOp"
  | unary .. => "UnOp"
  | cast .. => "UnOp"
  | ternary .. => "TerOp"
  | assign .. => "Assignment"
  | sequence .. => "Expression"
  | call .. => "FunctionCall"
  | field .. => "FieldAccess"
  | switch .. => "SwitchStmt"
  | caseLabel .. => "SwitchCaseLabel"
  | defaultLabel .. => "SwitchDefaultLabel"
  | ifElse .. => "IfStmt"
  | forLoop .. => "ForStmt"
  | whileLoop .. => "WhileStmt"
  | doWhile .. => "DoWhileStmt"
  | returning .. => "ReturnStmt"
  | breaking .. => "BreakStmt"
  | continuing .. => "ContinueStmt"
  | block .. => "CompoundStmt"
  | body .. => "FunctionBody"
  | program .. => "Program"
  | varDecl .. => "VarDecl"
  | param .. => "Param"
  | structDecl .. => "StructDecl"
  | library .. => "IncludeLibrary"
  | function .. => "FunctionDecl"

def line : Tree → Nat
  | absent => 0
  | noOp n => n
  | num _ n => n
  | string _ n => n
  | var _ n => n
  | typeName _ n => n
  | structName _ n => n
  | binary _ _ _ n => n
  | unary _ _ _ n => n
  | cast _ _ _ n => n
  | ternary _ _ _ n => n
  | assign _ _ _ n => n
  | sequence _ n => n
  | call _ _ n => n
  | field _ _ _ n => n
  | switch _ _ n => n
  | caseLabel _ n => n
  | defaultLabel n => n
  | ifElse _ _ _ n => n
  | forLoop _ _ _ _ n => n
  | whileLoop _ _ n => n
  | doWhile _ _ n => n
  | returning _ n => n
  | breaking n => n
  | continuing n => n
  | block _ n => n
  | body _ n => n
  | program _ n => n
  | varDecl _ _ n => n
  | param _ _ n => n
  | structDecl _ _ _ n => n
  | library _ n => n
  | function _ _ _ _ n => n

def value? : Tree → Option Scalar
  | num t _ => some t.value
  | string t _ => some t.value
  | var t _ => some t.value
  | _ => none

/-- The name that a literal or a variable gives: the text of its value. -/
def name? (t : Tree) : Option String :=
  t.value?.map Scalar.render

/-- The type that a type name gives. -/
def type? : Tree → Option VarType
  | typeName t _ => some t
  | structName t _ => some t
  | _ => none

/-- The type and the variable of a declaration or a parameter. -/
def declared? : Tree → Option (Tree × Tree)
  | varDecl v t _ => some (t, v)
  | param t v _ => some (t, v)
  | _ => none

def isTopLevel : Tree → Bool
  | function .. => true
  | library .. => true
  | varDecl .. => true
  | structDecl .. => true
  | _ => false

def isReturn : Tree → Bool
  | returning .. => true
  | _ => false

def isLabel : Tree → Bool
  | caseLabel .. => true
  | defaultLabel .. => true
  | _ => false

end Tree

end MiniC

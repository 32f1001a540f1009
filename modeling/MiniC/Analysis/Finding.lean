import MiniC.Symbol.Render
import MiniC.Tree.Basic

/-!
# What the analysis has to say

Errors, which reject a program, and warnings, which do not.
-/

namespace MiniC

inductive SemanticError where
  | noMain
  | structInStruct (name : String) (line : Nat)
  | duplicate (name : String) (line : Nat)
  | secondDefault (line : Nat)
  | labelBehindDefault (line : Nat)
  | continueOutsideLoop (line : Nat)
  | breakOutsideLoop (line : Nat)
  | bitwiseOperands (left right : Typing) (op : Kind) (line : Nat)
  | twoPointers (left right : Typing) (op : Kind) (line : Nat)
  | pointerOperands (left right : Typing) (op : Kind) (line : Nat)
  | steppedNoPlace (nodeClass : String) (op : Kind) (line : Nat)
  | dereferenced (operand : Typing) (line : Nat)
  | pointerOperand (operand : Typing) (op : Kind) (line : Nat)
  | assignedNoPlace (nodeClass : String) (op : Kind) (line : Nat)
  | pointerAssignment (left right : Typing) (op : Kind) (line : Nat)
  | unknownName (name : String) (line : Nat)
  | fieldOfNoStruct (name : String) (line : Nat)
  | wrongFieldOperator (line : Nat)
  | noSuchField (field struct : String) (line : Nat)
  | unknownStruct (name : String) (line : Nat)
  | invalidType (type : VarType) (line : Nat)
  | unknownLiteral (kind : Kind)
  | unknownFunction (name : String) (line : Nat)
  | calledNoFunction (name : String)
  | argumentCount (name : String) (given wanted : Nat) (line : Nat)
  deriving DecidableEq

inductive Warning where
  | branches (whenTrue whenFalse : Typing) (line : Nat)
  | assignment (left right : Typing) (line : Nat)
  | arguments (name : String) (wanted given : List Typing) (line : Nat)
  deriving DecidableEq

def renderClass (nodeClass : String) : String :=
  "<class 'interpreter.syntax_analysis.tree." ++ nodeClass ++ "'>"

def atLine (line : Nat) : String :=
  " at line " ++ toString line

namespace SemanticError

def wording : SemanticError → String
  | noMain => "Undeclared mandatory function main"
  | structInStruct name line =>
    "Error: Struct in struct '" ++ name ++ "' found" ++ atLine line
  | duplicate name line => "Error: Duplicate identifier '" ++ name ++ "' found" ++ atLine line
  | secondDefault line => "Multiple 'default' switch labels" ++ atLine line
  | labelBehindDefault line => "A 'default' switch labels should be the last label" ++ atLine line
  | continueOutsideLoop line => "Continue statement not in loop" ++ atLine line
  | breakOutsideLoop line => "Break statement not in loop/switch" ++ atLine line
  | bitwiseOperands left right op line =>
    "Unsupported types ltype:<" ++ left.render ++ "> rtype:<" ++ right.render ++
      "> at bitwise operator " ++ op.name ++ atLine line
  | twoPointers left right op line =>
    "Two pointer types (<" ++ left.render ++ "> and <" ++ right.render ++
      ">) at binary operator " ++ op.name ++ atLine line
  | pointerOperands left right op line =>
    "Unsupported pointer arithmetic with types (<" ++ left.render ++ "> and <" ++ right.render ++
      ">) at bin op " ++ op.name ++ atLine line
  | steppedNoPlace nodeClass op line =>
    renderClass nodeClass ++ " not an lvalue, can't inc/dec at un op " ++ op.name ++ atLine line
  | dereferenced operand line =>
    "Can't dereference type (" ++ operand.render ++ ")" ++ atLine line
  | pointerOperand operand op line =>
    "Unsupported pointer arithmetic on type (<" ++ operand.render ++ ">) at un op " ++ op.name ++
      atLine line
  | assignedNoPlace nodeClass op line =>
    "Can't assign to a non-lvalue (<" ++ renderClass nodeClass ++ ">) at ass op " ++ op.name ++
      atLine line
  | pointerAssignment left right op line =>
    "Unsupported pointer assignment on types (<" ++ left.render ++ "> <" ++ right.render ++
      ">) at ass op " ++ op.name ++ atLine line
  | unknownName name line => "Symbol(identifier) not found '" ++ name ++ "'" ++ atLine line
  | fieldOfNoStruct name line => "Var not a struct '" ++ name ++ "'" ++ atLine line
  | wrongFieldOperator line => "Can't ptr.field or struct->field on line " ++ toString line
  | noSuchField field struct line =>
    "No field '" ++ field ++ "' in struct '" ++ struct ++ "'" ++ atLine line
  | unknownStruct name line => "Struct name not found '" ++ name ++ "'" ++ atLine line
  | invalidType type line => "Invalid type (<" ++ type.render ++ ">)" ++ atLine line
  | unknownLiteral kind => "Unknown num token type: " ++ kind.name
  | unknownFunction name line => "Function '" ++ name ++ "' not found" ++ atLine line
  | calledNoFunction name => "Identifier '" ++ name ++ "' cannot be used as a function at line"
  | argumentCount name given wanted line =>
    "Function " ++ name ++ " takes " ++ toString given ++ " positional arguments but " ++
      toString wanted ++ " were given" ++ atLine line

def message (e : SemanticError) : String :=
  "SemanticError:" ++ e.wording

end SemanticError

namespace Warning

def renderTypes (ts : List Typing) : String :=
  String.ofList ((Typing.renderList ts).toList.map fun c =>
    if c == '[' then '(' else if c == ']' then ')' else c)

def wording : Warning → String
  | branches whenTrue whenFalse line =>
    "Incompatibile types at ternary operator texpr:<" ++ whenTrue.render ++ "> fexpr:<" ++
      whenFalse.render ++ ">" ++ atLine line
  | assignment left right line =>
    "Incompatible types when assigning to type <" ++ left.render ++ "> from type <" ++
      right.render ++ ">" ++ atLine line
  | arguments name wanted given line =>
    "Incompatibile argument types for function <" ++ name ++ renderTypes wanted ++
      "> but found <" ++ name ++ renderTypes given ++ ">" ++ atLine line

/-- A warning as it is printed, in yellow and with its newline. -/
def message (w : Warning) : String :=
  "SemanticWarning:\x1b[93m" ++ w.wording ++ "\x1b[0m\n"

end Warning

end MiniC

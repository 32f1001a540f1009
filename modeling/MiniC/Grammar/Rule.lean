import MiniC.Grammar.Program

/-!
# Rules by name

Every rule of the grammar can be applied on its own to a text. The result is a node, a list of
nodes, or, for the rules that only look ahead, whether they would apply.
-/

namespace MiniC.Grammar

open MiniC.Parser

inductive Fragment where
  | node (t : Tree)
  | nodes (ts : List Tree)
  | flag (b : Bool)

def ahead (p : Kind → Bool) : Parser Bool :=
  p <$> kind

def binaryFrom (level : Nat) : Parser Tree :=
  entering fun nested => binaryOf (levels.drop level) (castOf nested)

def nodeRules : List (String × Parser Tree) :=
  [("program", program), ("include_library", libraryInclude),
    ("function_declaration", functionDeclaration), ("function_body", functionBody),
    ("struct_declaration", structDeclaration), ("statement", statement),
    ("compound_statement", withStatements compoundOf), ("jump_statement", jumpStatement),
    ("selection_statement", withStatements selectionOf), ("switch_case_label", switchLabel),
    ("iteration_statement", withStatements iterationOf),
    ("expression_statement", expressionStatement), ("expression", expression),
    ("assignment_expression", assignmentExpression),
    ("conditional_expression", entering conditionalOf),
    ("logical_and_expression", binaryFrom 0), ("logical_or_expression", binaryFrom 1),
    ("inclusive_or_expression", binaryFrom 2), ("exclusive_or_expression", binaryFrom 3),
    ("and_expression", binaryFrom 4), ("equality_expression", binaryFrom 5),
    ("relational_expression", binaryFrom 6), ("shift_expression", binaryFrom 7),
    ("additive_expression", binaryFrom 8), ("multiplicative_expression", binaryFrom 9),
    ("cast_expression", entering castOf), ("unary_expression", entering unaryOf),
    ("postfix_expression", entering postfixOf), ("primary_expression", entering primaryOf),
    ("constant", constant), ("decl_type_spec", typeSpecifier), ("variable", variableName),
    ("empty", empty), ("string", stringLiteral), ("parse", wholeProgram)]

def listRules : List (String × Parser (List Tree)) :=
  [("declarations", declarations), ("parameters", parameters), ("declaration", declaration),
    ("struct_field_declaration", fieldDeclaration), ("struct_declarator_list", structDeclarators),
    ("var_declaration", varDeclaration), ("init_declarator_list", initDeclarators),
    ("init_declarator", initDeclarator), ("argument_expression_list", entering argumentsOf)]

def aheadRules : List (String × Parser Bool) :=
  [("check_function", functionAhead), ("check_struct_declaration", structAhead),
    ("check_compound_statement", ahead (· == .lbracket)), ("check_jump_statement", ahead isJump),
    ("check_selection_statement", ahead isSelection),
    ("check_iteration_statement", ahead isIteration),
    ("check_assignment_expression", assignmentAhead), ("check_cast_expression", castAhead)]

def rule? (name : String) : Option (Parser Fragment) :=
  match nodeRules.lookup name, listRules.lookup name, aheadRules.lookup name with
  | some p, _, _ => some (.node <$> p)
  | _, some p, _ => some (.nodes <$> p)
  | _, _, some p => some (.flag <$> p)
  | _, _, _ => none

end MiniC.Grammar

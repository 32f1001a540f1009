import MiniC.CType.Basic
import MiniC.Token.Basic

/-!
# Faults

What can go wrong while values are computed, stored and looked up. The first group has a wording of
its own. The second group names the cause only: the value at hand has not the form that an operation
asks for, or there is no value at all.
-/

namespace MiniC

inductive Fault where
  /-- A name is bound in no scope that can be seen. -/
  | unbound (name : String)
  /-- A cell was given no value. -/
  | noValue
  /-- A constant was assigned to. -/
  | constantAssigned (name : String)
  /-- The words of a type do not give it a size. -/
  | sizeless (t : CType)
  /-- A block is released that was not allocated, or was released before. -/
  | notAllocated
  | notAssignable
  | unknownPrefixOperator
  | unknownPostfixOperator
  | unknownConstant
  | unknownAssignment (kind : Kind)
  /-- There is no rule for a node of this class. -/
  | noRule (nodeClass : String)
  /-- The remainder of numbers that are not both integers. -/
  | remainderOfReals (left right : CType)
  | scanArguments (wanted given : Nat)
  | scanSpecifier (specifier : String)
  /-- A type is spelled by words that do not go together. -/
  | badTypeName (message : String)
  /-- A value or node lacks the part that is asked for. -/
  | noSuchPart
  /-- An operation is applied to values of the wrong kind, or to a wrong number of them. -/
  | wrongKind
  /-- A value of the right kind is outside the domain of an operation. -/
  | outsideDomain
  /-- A table has no entry for a key. -/
  | noSuchKey
  /-- A list has no entry at a position. -/
  | noSuchIndex
  | divisionByZero
  /-- A number is too large for its form. -/
  | overflow
  /-- A condition that is taken for granted does not hold. -/
  | assumption
  | endOfInput
  | noSuchLibrary (name : String)
  /-- A code point that is not a character would be written. -/
  | unencodable
  /-- The given number of steps did not suffice. -/
  | outOfFuel
  deriving DecidableEq

/-- The wording of a fault; empty where only the cause is known. -/
def Fault.message : Fault → String
  | unbound name => "Failed to find " ++ name ++ " in the current scope"
  | constantAssigned name => "Can't reassign const value for const " ++ name ++ " "
  | sizeless t => "Failed to return size of a CType " ++ t.render
  | notAllocated => "Can't free memory that was not dynamically allocated"
  | notAssignable => "Can't get lvalue address"
  | unknownPrefixOperator => "Unknown prefix operator, earlier stages should catch this"
  | unknownPostfixOperator => "Unknown postfix operator, earlier stages should catch this"
  | unknownConstant => "Unknown num const, earlier stages should catch this"
  | unknownAssignment kind => "Unknown assignment op: " ++ kind.name
  | noRule nodeClass => "No visit_" ++ nodeClass ++ " method"
  | remainderOfReals left right =>
    "invalid operands of types '" ++ left.render ++ "' and '" ++ right.render ++
      "' to binary ‘operator %’"
  | scanArguments wanted given =>
    "Format of scanf function takes " ++ toString wanted ++ " positional arguments but " ++
      toString given ++ " were given"
  | scanSpecifier specifier => "'" ++ specifier ++ "' not supported as a printf type specifier"
  | badTypeName message => message
  | _ => ""

end MiniC

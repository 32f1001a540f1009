import MiniC.CType.Basic
import MiniC.Text.Words

/-!
# Spelling of types

A type is read from a list of words in any order: at most one base type, at once followed by a star
if it is a pointer, at most one word for the length, which may be a double `long`, and at most one
word for the sign. There has to be a base type or a length.
-/

namespace MiniC.CType

/-- Why a list of words is not a type. -/
inductive Malformed where
  | repeatedBase
  | repeatedLength
  | repeatedSign
  | unrecognized (word : String)
  | incomplete
  deriving DecidableEq

def Malformed.message : Malformed → String
  | repeatedBase => "Multiple type specifiers"
  | repeatedLength => "Multiple len specifiers"
  | repeatedSign => "Multiple sign specifiers"
  | unrecognized word => "Unrecognized spec '" ++ word ++ "' "
  | incomplete => "No len and no type spec"

def base? : String → Option Base
  | "char" => some .char
  | "int" => some .int
  | "float" => some .float
  | "double" => some .double
  | _ => none

def length? : String → Option Length
  | "short" => some .short
  | "long" => some .long
  | _ => none

def sign? : String → Option Sign
  | "unsigned" => some .unsigned
  | "signed" => some .signed
  | _ => none

/-- Adds the words to what has been read of a type. -/
def extend (t : CType) : List String → Except Malformed CType
  | [] => .ok t
  | w :: ws =>
    match base? w, length? w, sign? w with
    | some b, _, _ =>
      if t.base.isSome then .error .repeatedBase
      else
        match ws with
        | "*" :: ws => extend ⟨t.length, t.sign, some b, true⟩ ws
        | ws => extend ⟨t.length, t.sign, some b, t.pointer⟩ ws
    | none, some l, _ =>
      if t.length.isSome then .error .repeatedLength
      else
        match l, ws with
        | .long, "long" :: ws => extend ⟨some .longLong, t.sign, t.base, t.pointer⟩ ws
        | l, ws => extend ⟨some l, t.sign, t.base, t.pointer⟩ ws
    | none, none, some s =>
      if t.sign.isSome then .error .repeatedSign
      else extend ⟨t.length, some s, t.base, t.pointer⟩ ws
    | none, none, none => .error (.unrecognized w)

def ofWords (ws : List String) : Except Malformed CType := do
  let t ← extend ⟨none, none, none, false⟩ ws
  if t.length.isNone && t.base.isNone then .error .incomplete else .ok t

/-- The type spelled by a text, whose words are separated by single spaces. -/
def ofText (s : String) : Except Malformed CType :=
  ofWords ((Text.piecesAt ' ' s.toList).map String.ofList)

end MiniC.CType

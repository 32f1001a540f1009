/-!
# Types

An arithmetic type is given by at most one word for its length, its sign and its base, and may be a
pointer. Types are told apart by their canonical spelling, which leaves out the word `signed`. The
size of a type, and with it the range of its values, follows from the words; a few combinations have
none. A structure type is known by the name of the structure, and two of them are the same only if
they were written at the same place.
-/

namespace MiniC

inductive Length where
  | short
  | long
  | longLong
  deriving DecidableEq, Repr

inductive Sign where
  | signed
  | unsigned
  deriving DecidableEq, Repr

inductive Base where
  | char
  | int
  | float
  | double
  deriving DecidableEq, Repr

/-- An arithmetic type or a pointer to one. -/
structure CType where
  length : Option Length
  sign : Option Sign
  base : Option Base
  pointer : Bool
  deriving DecidableEq, Repr

def Length.word : Length → String
  | short => "short"
  | long => "long"
  | longLong => "long long"

def Base.word : Base → String
  | char => "char"
  | int => "int"
  | float => "float"
  | double => "double"

namespace CType

def ofBase (b : Base) : CType := ⟨none, none, some b, false⟩

def int : CType := ofBase .int

def unsignedInt : CType := ⟨none, some .unsigned, some .int, false⟩

def char : CType := ofBase .char

def float : CType := ofBase .float

def double : CType := ofBase .double

def words (t : CType) : List String :=
  (if t.sign = some .unsigned then ["unsigned"] else []) ++
    (t.length.map Length.word).toList ++ (t.base.map Base.word).toList ++
    (if t.pointer then ["*"] else [])

def render (t : CType) : String :=
  " ".intercalate t.words

/-- The type without the word `signed`. -/
def canonical (t : CType) : CType :=
  match t.sign with
  | some .signed => ⟨t.length, none, t.base, t.pointer⟩
  | _ => t

def same (a b : CType) : Bool :=
  a.canonical == b.canonical

def size? (t : CType) : Option Nat :=
  if t.pointer then some 4
  else if t.base = some .char then some 1
  else if t.length = some .short then some 2
  else if t.length = some .longLong then some 8
  else
    match t.base with
    | some .double => if t.length = some .long then some 8 else some 4
    | some _ => some 4
    | none => none

theorem size?_cases {t : CType} {k : Nat} (h : t.size? = some k) :
    k = 1 ∨ k = 2 ∨ k = 4 ∨ k = 8 := by
  unfold size? at h
  repeat' split at h
  all_goals cases h <;> simp

def isReal (t : CType) : Bool :=
  !t.pointer && (t.base = some .float || t.base = some .double)

def isUnsigned (t : CType) : Bool :=
  t.sign = some .unsigned

def limitsOf (size : Nat) (unsigned : Bool) : Int × Int :=
  if unsigned then (0, Int.pow 2 (8 * size) - 1)
  else (-Int.pow 2 (8 * size - 1), Int.pow 2 (8 * size - 1) - 1)

def limits? (t : CType) : Option (Int × Int) :=
  t.size?.map (limitsOf · t.isUnsigned)

def dereference (t : CType) : CType :=
  ⟨t.length, t.sign, t.base, false⟩

def arithmetic : List CType :=
  [⟨none, none, some .char, false⟩, ⟨none, some .unsigned, some .char, false⟩,
    ⟨some .short, none, some .int, false⟩, ⟨some .short, some .unsigned, some .int, false⟩,
    ⟨none, none, some .int, false⟩, ⟨none, some .unsigned, some .int, false⟩,
    ⟨some .long, none, some .int, false⟩, ⟨some .long, some .unsigned, some .int, false⟩,
    ⟨some .longLong, none, some .int, false⟩, ⟨some .longLong, some .unsigned, some .int, false⟩,
    ⟨none, none, some .float, false⟩, ⟨none, none, some .double, false⟩,
    ⟨some .long, none, some .double, false⟩]

def rank? (t : CType) : Option Nat :=
  arithmetic.findIdx? (·.same t)

def isArithmetic (t : CType) : Bool :=
  t.rank?.isSome

end CType

/-- A structure, or a pointer to one. The mark tells apart the places where types were written. -/
structure StructType where
  name : String
  pointer : Bool
  mark : Nat
  deriving DecidableEq, Repr

/-- The number of bytes that a structure or a pointer to one takes, the fields apart. -/
def StructType.size (t : StructType) : Nat :=
  if t.pointer then 4 else 16

def StructType.render : String :=
  "<interpreter.common.ctype.StructCType object at 0x?>"

inductive VarType where
  | number (t : CType)
  | struct (t : StructType)
  deriving DecidableEq, Repr

def VarType.render : VarType → String
  | number t => t.render
  | struct _ => StructType.render

end MiniC

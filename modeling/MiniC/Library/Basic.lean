import MiniC.CType.Basic
import MiniC.Scalar

/-!
# Libraries

The functions and constants that a library gives, in alphabetical order. A function has a return
type, unless it returns nothing, and the types of its parameters, unless it takes any arguments.
-/

namespace MiniC

inductive MathFunction where
  | acos | acosh | asin | asinh | atan | atan2 | atanh | ceil | cos | cosh | exp | floor | log
  | log10 | pow | round | sin | sinh | sqrt | tan | tanh | trunc
  deriving DecidableEq, Repr

inductive Builtin where
  | getchar | printf | putchar | scanf
  | abs | free | malloc | rand | srand
  | math (f : MathFunction)
  deriving DecidableEq, Repr

def MathFunction.name : MathFunction → String
  | acos => "acos"
  | acosh => "acosh"
  | asin => "asin"
  | asinh => "asinh"
  | atan => "atan"
  | atan2 => "atan2"
  | atanh => "atanh"
  | ceil => "ceil"
  | cos => "cos"
  | cosh => "cosh"
  | exp => "exp"
  | floor => "floor"
  | log => "log"
  | log10 => "log10"
  | pow => "pow"
  | round => "round"
  | sin => "sin"
  | sinh => "sinh"
  | sqrt => "sqrt"
  | tan => "tan"
  | tanh => "tanh"
  | trunc => "trunc"

namespace Builtin

def name : Builtin → String
  | getchar => "getchar"
  | printf => "printf"
  | putchar => "putchar"
  | scanf => "scanf"
  | abs => "abs"
  | free => "free"
  | malloc => "malloc"
  | rand => "rand"
  | srand => "srand"
  | math f => f.name

/-- The return type; nothing if nothing is returned. -/
def returnType : Builtin → Option CType
  | getchar | putchar => some .char
  | free => none
  | math _ => some .double
  | _ => some .int

/-- The types of the parameters; nothing if any arguments are taken. -/
def parameterTypes : Builtin → Option (List CType)
  | getchar => some []
  | putchar => some [.char]
  | abs => some [.int]
  | malloc => some [.int]
  | srand => some [.unsignedInt]
  | math .pow => some [.double, .double]
  | math _ => some [.double]
  | printf | scanf | free | rand => none

end Builtin

structure Library where
  functions : List Builtin
  constants : List (String × Int)

namespace Library

def stdio : Library where
  functions := [.getchar, .printf, .putchar, .scanf]
  constants := []

def randMax : Int := 32767

def stdlib : Library where
  functions := [.abs, .free, .malloc, .rand, .srand]
  constants := [("NULL", 0), ("RAND_MAX", randMax)]

def math : Library where
  functions := [.acos, .acosh, .asin, .asinh, .atan, .atan2, .atanh, .ceil, .cos, .cosh, .exp,
    .floor, .log, .log10, .pow, .round, .sin, .sinh, .sqrt, .tan, .tanh, .trunc].map Builtin.math
  constants := []

def least (size : Nat) : Int := (CType.limitsOf size false).1

def greatest (size : Nat) : Int := (CType.limitsOf size false).2

def greatestUnsigned (size : Nat) : Int := (CType.limitsOf size true).2

def limits : Library where
  functions := []
  constants := [("CHAR_BIT", 1), ("CHAR_MAX", greatest 1), ("CHAR_MIN", least 1),
    ("INT_MAX", greatest 4), ("INT_MIN", least 4), ("LLONG_MAX", greatest 8),
    ("LLONG_MIN", least 8), ("LONG_MAX", greatest 4), ("LONG_MIN", least 4),
    ("SCHAR_MAX", greatest 1), ("SCHAR_MIN", least 1), ("SHRT_MAX", greatest 2),
    ("SHRT_MIN", least 2), ("UCHAR_MAX", greatestUnsigned 1), ("UINT_MAX", greatestUnsigned 4),
    ("ULLONG_MAX", greatestUnsigned 8), ("ULONG_MAX", greatestUnsigned 4),
    ("USHRT_MAX", greatestUnsigned 2)]

def find? : String → Option Library
  | "stdio" => some stdio
  | "stdlib" => some stdlib
  | "math" => some math
  | "limits" => some limits
  | _ => none

def function? (l : Library) (name : String) : Option Builtin :=
  l.functions.find? (·.name == name)

end Library

end MiniC

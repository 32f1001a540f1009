import MiniC.Machine.Memory
import MiniC.Value.Render

/-!
# Reading input by a format

The blanks of a format do not count. A specifier starts with a percent sign and goes up to the last
of the letters `d`, `f`, `i` and `c` before the next percent sign. Whole lines are read until there
are enough words, and each specifier takes one word; the words that are left over are lost.
-/

namespace MiniC.Scan

def endsSpecifier (c : Char) : Bool :=
  c == 'd' || c == 'f' || c == 'i' || c == 'c'

def specifiersOf : List Char → List (List Char)
  | [] => []
  | '%' :: cs =>
    match ((cs.takeWhile (· != '%')).reverse.dropWhile (!endsSpecifier ·)).reverse with
    | [] => specifiersOf cs
    | s => ('%' :: s) :: specifiersOf cs
  | _ :: cs => specifiersOf cs

def specifiers (fmt : String) : List (List Char) :=
  specifiersOf (fmt.toList.filter (!Text.isBlank ·))

/-- The type of the number that a specifier asks for, by its last letter. -/
def typeOf (specifier : List Char) : Except Fault CType :=
  match specifier.getLast? with
  | some 'd' => .ok .int
  | some 'f' => .ok .float
  | some 'c' => .ok .char
  | _ => .error (.scanSpecifier (String.ofList specifier))

/-- Reads whole lines until there are enough words, or nothing if the input ends before. -/
def wordsUntil (wanted : Nat) : Nat → List String → List Char → Option (List String) × List Char
  | 0, _, input => (none, input)
  | fuel + 1, found, input =>
    if wanted ≤ found.length then (some found, input)
    else if input.isEmpty then (none, input)
    else
      let (line, rest) := Text.splitLine input
      wordsUntil wanted fuel (found ++ Text.words line) rest

/-- Reads at least as many words as are wanted. Each line takes at least one character. -/
def readWords (wanted : Nat) : Run (List String) := do
  let m ← get
  let (found?, rest) := wordsUntil wanted (m.input.length + 1) [] m.input
  set { m with input := rest }
  match found? with
  | some found => return found
  | none => throw .endOfInput

def store (specifier : List Char) (address : Value) (word : String) : Run Unit := do
  let n ← Run.ofExcept (do Number.ofScalar (← typeOf specifier) (.text word))
  let a ← Run.ofExcept (address.address (← Run.getStore))
  Run.writeAt a (.number n)

def storeAll : List (List Char) → List Value → List String → Run Unit
  | s :: ss, a :: as, w :: ws => do
    store s a w
    storeAll ss as ws
  | _, _, _ => return ()

/-- Reads input by a format into addresses of the target, which has to be the memory if anything is
stored. The result is the number of words that were read. -/
def scan (fmt : Value) (addresses : List Value) (target : Value) : Run Scalar := do
  match fmt with
  | .scalar (.text fmt) =>
    let specs := specifiers fmt
    if specs.length != addresses.length then throw (.scanArguments specs.length addresses.length)
    let words ← readWords specs.length
    match target with
    | .memory => storeAll specs addresses words
    | _ => if !specs.isEmpty then throw .noSuchPart
    return .int words.length
  | _ => throw .wrongKind

end MiniC.Scan

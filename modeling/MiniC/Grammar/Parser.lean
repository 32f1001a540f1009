import MiniC.CType.Spelling
import MiniC.Token.Stream
import MiniC.Tree.Basic

/-!
# Reading by rules

A rule reads a stream of tokens from its start, decides on the kind of the current token, and gives
a result and the rest of the stream. It fails with the cause, be it a token that does not fit or a
text that does not go on with a token. Loops are bounded by the number of tokens left, since each
turn takes at least one.
-/

namespace MiniC

inductive SyntaxError where
  | lexical (e : LexicalError)
  | expected (wanted found : Kind) (line : Nat)
  | expectedInclude (found : Scalar) (line : Nat)
  | headersOnly (line : Nat)
  | calleeNotName
  | structNotName
  | invalidConstant (found : Kind)
  | badType (cause : CType.Malformed) (line : Nat)
  | trailing (found : Kind)
  /-- An ampersand behind what might be the target of an assignment. -/
  | ampersandBehindTarget
  /-- The bound on the number of steps was too low. -/
  | exhausted
  deriving DecidableEq

def SyntaxError.message : SyntaxError → String
  | lexical e => e.message
  | expected wanted found line =>
    "SyntaxError: Expected token <" ++ wanted.name ++ "> but found <" ++ found.name ++
      "> at line " ++ toString line ++ "."
  | expectedInclude found line =>
    "SyntaxError: Expected token \"include\" but found " ++ found.render ++ " at line " ++
      toString line ++ "."
  | headersOnly line =>
    "SyntaxError: You can include only *.h files [line " ++ toString line ++ "]"
  | calleeNotName => "SyntaxError: Function identifier must be string"
  | structNotName => "SyntaxError: Struct var must be string"
  | invalidConstant found => "SyntaxError: Invalid constant type: " ++ found.name
  | badType cause line => "SyntaxError: " ++ cause.message ++ " at line " ++ toString line
  | trailing found => "SyntaxError: Expected token <EOF> but found <" ++ found.name ++ ">"
  | ampersandBehindTarget => ""
  | exhausted => ""

abbrev Parser := StateT Stream (Except SyntaxError)

namespace Parser

variable {α : Type}

def token : Parser Token := do
  match ← get with
  | .stuck e => throw (.lexical e)
  | .done _ => return Token.eof
  | .more t _ _ => return t

def kind : Parser Kind :=
  Token.kind <$> token

/-- The line reached behind the current token. -/
def line : Parser Nat := do
  match ← get with
  | .stuck _ => return 1
  | .done line => return line
  | .more _ line _ => return line

def left : Parser Nat :=
  Stream.size <$> get

/-- Goes on to the next token, which has to be readable. -/
def advance : Parser Unit := do
  match ← get with
  | .more _ _ (.stuck e) => throw (.lexical e)
  | .more _ _ rest => set rest
  | _ => return ()

def eat (wanted : Kind) : Parser Unit := do
  let found ← kind
  if found = wanted then advance else throw (.expected wanted found (← line))

/-- The result of a rule, without taking any token. -/
def lookahead (p : Parser α) : Parser α := do
  let s ← get
  let a ← p
  set s
  return a

/-- At most `fuel` items, as long as the current token is of the kinds that go on. -/
def itemsWhile (goesOn : Kind → Bool) (item : Parser α) : Nat → Parser (List α)
  | 0 => throw .exhausted
  | fuel + 1 => do
    if goesOn (← kind) then
      let a ← item
      return a :: (← itemsWhile goesOn item fuel)
    else return []

def manyWhile (goesOn : Kind → Bool) (item : Parser α) : Parser (List α) := do
  itemsWhile goesOn item ((← left) + 1)

def commaList (item : Parser α) : Parser (List α) := do
  let a ← item
  return a :: (← manyWhile (· == .comma) (do eat .comma; item))

/-- Goes on with a chain of binary operators that group to the left. -/
def chainFrom (ops : Kind → Bool) (operand : Parser Tree) : Nat → Tree → Parser Tree
  | 0, _ => throw .exhausted
  | fuel + 1, left => do
    let t ← token
    if ops t.kind then
      advance
      let right ← operand
      chainFrom ops operand fuel (.binary left t right (← line))
    else return left

def chain (ops : Kind → Bool) (operand : Parser Tree) : Parser Tree := do
  let first ← operand
  chainFrom ops operand ((← left) + 1) first

def start (p : Parser α) (s : Stream) : Except SyntaxError (α × Stream) :=
  match s with
  | .stuck e => .error (.lexical e)
  | s => p s

end Parser

end MiniC

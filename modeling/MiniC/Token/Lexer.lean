import MiniC.Text.Numeral
import MiniC.Token.Basic

/-!
# Reading tokens

A position in a text is what is left of it together with the number of the current line. Blanks and
comments are skipped before a token; the newlines among them are counted, those inside string and
character literals are not. Words and digit runs extend as far as they can, and of the operators the
longest that fits is taken.
-/

namespace MiniC

inductive LexicalError where
  | unterminatedComment (line : Nat)
  | unterminatedString (line : Nat)
  | unterminatedChar (line : Nat)
  | invalidChar (c : Char) (line : Nat)
  /-- A run of digits that is not the numeral of a number. -/
  | badNumeral (digits : String)
  deriving DecidableEq

def LexicalError.message : LexicalError → String
  | unterminatedComment line => "LexicalError: Unterminated comment at line " ++ toString line
  | unterminatedString line => "LexicalError: Unterminated string literal at line " ++ toString line
  | unterminatedChar line => "LexicalError: Unterminated char literal at line " ++ toString line
  | invalidChar c line =>
    "LexicalError: Invalid char " ++ String.singleton c ++ " at line " ++ toString line
  | badNumeral digits => "LexicalError: Invalid number " ++ digits

structure Source where
  rest : List Char
  line : Nat
  deriving DecidableEq

namespace Source

def ofText (text : String) : Source := ⟨text.toList, 1⟩

/-- What a position lies in while blanks and comments are skipped. -/
inductive Gap where
  | blanks
  | lineComment
  | blockComment
  deriving DecidableEq

def nextLine (c : Char) (line : Nat) : Nat :=
  if c = '\n' then line + 1 else line

/-- Skips blanks and comments. A line comment ends with its newline or with the text. -/
def skip : Gap → List Char → Nat → Except LexicalError Source
  | .blanks, [], line => .ok ⟨[], line⟩
  | .blanks, '/' :: '/' :: cs, line => skip .lineComment cs line
  | .blanks, '/' :: '*' :: cs, line => skip .blockComment cs line
  | .blanks, c :: cs, line =>
    if Text.isBlank c then skip .blanks cs (nextLine c line) else .ok ⟨c :: cs, line⟩
  | .lineComment, [], line => .ok ⟨[], line⟩
  | .lineComment, c :: cs, line =>
    if c = '\n' then skip .blanks cs (line + 1) else skip .lineComment cs line
  | .blockComment, [], line => .error (.unterminatedComment line)
  | .blockComment, '*' :: '/' :: cs, line => skip .blanks cs line
  | .blockComment, c :: cs, line => skip .blockComment cs (nextLine c line)

def isWordChar (c : Char) : Bool :=
  Text.isAlphanumeric c || c == '_'

/-- In string literals a backslash before an `n` stands for a newline. -/
def unescape : List Char → List Char
  | [] => []
  | '\\' :: 'n' :: cs => '\n' :: unescape cs
  | c :: cs => c :: unescape cs

/-- Digits, and a fraction if a point follows them. -/
def readNumber (cs : List Char) : Except LexicalError (Token × List Char) :=
  let whole := cs.takeWhile Text.isDigit
  match cs.dropWhile Text.isDigit with
  | '.' :: rest =>
    let digits := whole ++ '.' :: rest.takeWhile Text.isDigit
    match Text.readReal digits with
    | some x => .ok (⟨.realConst, .real x⟩, rest.dropWhile Text.isDigit)
    | none => .error (.badNumeral (String.ofList digits))
  | rest =>
    match Text.readInt whole with
    | some n => .ok (⟨.integerConst, .int n⟩, rest)
    | none => .error (.badNumeral (String.ofList whole))

def readString (cs : List Char) (line : Nat) : Except LexicalError (Token × List Char) :=
  match cs.dropWhile (· != '"') with
  | [] => .error (.unterminatedString line)
  | _ :: rest =>
    .ok (⟨.string, .text (String.ofList (unescape (cs.takeWhile (· != '"'))))⟩, rest)

def readChar (cs : List Char) (line : Nat) : Except LexicalError (Token × List Char) :=
  match cs with
  | '\\' :: 'n' :: '\'' :: rest => .ok (⟨.charConst, .int 10⟩, rest)
  | '\\' :: 'n' :: _ => .error (.unterminatedChar line)
  | c :: '\'' :: rest => .ok (⟨.charConst, .int c.toNat⟩, rest)
  | _ => .error (.unterminatedChar line)

def readOperator (c : Char) (cs : List Char) (line : Nat) :
    Except LexicalError (Token × List Char) :=
  match Token.operators.find? fun o => o.spelling.isPrefixOf (c :: cs) with
  | some o => .ok (⟨o.kind, .text o.value⟩, (c :: cs).drop o.spelling.length)
  | none => .error (.invalidChar c line)

def readToken (c : Char) (cs : List Char) (line : Nat) : Except LexicalError (Token × List Char) :=
  if Text.isLetter c then
    .ok (Token.ofWord (String.ofList ((c :: cs).takeWhile isWordChar)),
      (c :: cs).dropWhile isWordChar)
  else if Text.isDigit c then readNumber (c :: cs)
  else if c = '"' then readString cs line
  else if c = '\'' then readChar cs line
  else readOperator c cs line

def next (s : Source) : Except LexicalError (Token × Source) :=
  match skip .blanks s.rest s.line with
  | .error e => .error e
  | .ok ⟨[], line⟩ => .ok (Token.eof, ⟨[], line⟩)
  | .ok ⟨c :: cs, line⟩ =>
    match readToken c cs line with
    | .error e => .error e
    | .ok (t, rest) => .ok (t, ⟨rest, line⟩)

end Source

end MiniC

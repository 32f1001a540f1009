import MiniC.Token.Lexer

/-!
# Token streams

The tokens of a text in their order, each with the line reached behind it. A stream ends with the
end of the text, or where no further token can be read.
-/

namespace MiniC

inductive Stream where
  | stuck (e : LexicalError)
  | done (line : Nat)
  | more (token : Token) (line : Nat) (rest : Stream)
  deriving DecidableEq

namespace Stream

def read : Nat → Source → Stream
  | 0, s => done s.line
  | fuel + 1, s =>
    match s.next with
    | .error e => stuck e
    | .ok (t, s) => if t.kind = .eof then done s.line else more t s.line (read fuel s)

/-- The stream of a text. Each token takes at least one character, which bounds their number. -/
def ofText (text : String) : Stream :=
  read (text.length + 1) (Source.ofText text)

def size : Stream → Nat
  | stuck _ => 0
  | done _ => 0
  | more _ _ rest => rest.size + 1

def toList : Stream → List (Token × Nat) × Option LexicalError
  | stuck e => ([], some e)
  | done line => ([(Token.eof, line)], none)
  | more t line rest => ((t, line) :: rest.toList.1, rest.toList.2)

end Stream

end MiniC

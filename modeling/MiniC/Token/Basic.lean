import MiniC.Scalar

/-!
# Tokens

A token has a kind and a value. The value of a literal is what it stands for, the value of a word or
an operator is its spelling. Kinds beyond those of the language can be named, so that any tree of
tokens can be written down; no text yields them.
-/

namespace MiniC

inductive Kind where
  | kwChar | kwInt | kwFloat | kwDouble | kwShort | kwLong | kwSigned | kwUnsigned
  | charConst | integerConst | realConst | string
  | plus | minus | asterisk | divOp | modOp | incOp | decOp
  | ampersand | orOp | xorOp | leftOp | rightOp
  | ltOp | gtOp | leOp | geOp | eqOp | neOp | logAndOp | logOrOp | logNeg
  | assign | mulAssign | divAssign | modAssign | addAssign | subAssign
  | leftAssign | rightAssign | andAssign | xorAssign | orAssign
  | lparen | rparen | lbracket | rbracket
  | comma | dot | semicolon | hash | colon | questionMark
  | kwIf | kwElse | kwFor | kwWhile | kwReturn | kwDo | kwBreak | kwContinue
  | kwSwitch | kwDefault | kwCase | kwStruct
  | arrow | id | eof
  | other (name : String)
  deriving DecidableEq

namespace Kind

def all : List Kind :=
  [kwChar, kwInt, kwFloat, kwDouble, kwShort, kwLong, kwSigned, kwUnsigned,
    charConst, integerConst, realConst, string,
    plus, minus, asterisk, divOp, modOp, incOp, decOp,
    ampersand, orOp, xorOp, leftOp, rightOp,
    ltOp, gtOp, leOp, geOp, eqOp, neOp, logAndOp, logOrOp, logNeg,
    assign, mulAssign, divAssign, modAssign, addAssign, subAssign,
    leftAssign, rightAssign, andAssign, xorAssign, orAssign,
    lparen, rparen, lbracket, rbracket,
    comma, dot, semicolon, hash, colon, questionMark,
    kwIf, kwElse, kwFor, kwWhile, kwReturn, kwDo, kwBreak, kwContinue,
    kwSwitch, kwDefault, kwCase, kwStruct, arrow, id, eof]

def name : Kind → String
  | kwChar => "CHAR"
  | kwInt => "INT"
  | kwFloat => "FLOAT"
  | kwDouble => "DOUBLE"
  | kwShort => "SHORT"
  | kwLong => "LONG"
  | kwSigned => "SIGNED"
  | kwUnsigned => "UNSIGNED"
  | charConst => "CHAR_CONST"
  | integerConst => "INTEGER_CONST"
  | realConst => "REAL_CONST"
  | string => "STRING"
  | plus => "PLUS"
  | minus => "MINUS"
  | asterisk => "ASTERISK"
  | divOp => "DIV_OP"
  | modOp => "MOD_OP"
  | incOp => "INC_OP"
  | decOp => "DEC_OP"
  | ampersand => "('AMPERSAND',)"
  | orOp => "OR_OP"
  | xorOp => "XOR_OP"
  | leftOp => "LEFT_OP"
  | rightOp => "RIGHT_OP"
  | ltOp => "LT_OP"
  | gtOp => "GT_OP"
  | leOp => "LE_OP"
  | geOp => "GE_OP"
  | eqOp => "EQ_OP"
  | neOp => "NE_OP"
  | logAndOp => "LOG_AND_OP"
  | logOrOp => "LOG_OR_OP"
  | logNeg => "LOG_NEG"
  | assign => "ASSIGN"
  | mulAssign => "MUL_ASSIGN"
  | divAssign => "DIV_ASSIGN"
  | modAssign => "MOD_ASSIGN"
  | addAssign => "ADD_ASSIGN"
  | subAssign => "SUB_ASSIGN"
  | leftAssign => "LEFT_ASSIGN"
  | rightAssign => "RIGHT_ASSIGN"
  | andAssign => "AND_ASSIGN"
  | xorAssign => "XOR_ASSIGN"
  | orAssign => "OR_ASSIGN"
  | lparen => "LPAREN"
  | rparen => "RPAREN"
  | lbracket => "LBRACKET"
  | rbracket => "RBRACKET"
  | comma => "COMMA"
  | dot => "DOT"
  | semicolon => "SEMICOLON"
  | hash => "HASH"
  | colon => "COLON"
  | questionMark => "QUESTION_MARK"
  | kwIf => "IF"
  | kwElse => "ELSE"
  | kwFor => "FOR"
  | kwWhile => "WHILE"
  | kwReturn => "RETURN"
  | kwDo => "DO"
  | kwBreak => "BREAK"
  | kwContinue => "CONTINUE"
  | kwSwitch => "SWITCH"
  | kwDefault => "DEFAULT"
  | kwCase => "CASE"
  | kwStruct => "STRUCT"
  | arrow => "ARROW"
  | id => "ID"
  | eof => "EOF"
  | other n => n

def ofName (n : String) : Kind :=
  (all.find? (·.name == n)).getD (other n)

/-- Words that take part in the name of an arithmetic type. -/
def isTypeSpecifier : Kind → Bool
  | kwChar | kwInt | kwFloat | kwDouble | kwShort | kwLong | kwSigned | kwUnsigned => true
  | _ => false

def isAssignment : Kind → Bool
  | assign | mulAssign | divAssign | modAssign | addAssign | subAssign
  | leftAssign | rightAssign | andAssign | xorAssign | orAssign => true
  | _ => false

/-- Words that start a declaration inside a function. -/
def startsDeclaration (k : Kind) : Bool :=
  k.isTypeSpecifier || k == kwStruct

end Kind

structure Token where
  kind : Kind
  value : Scalar
  deriving DecidableEq

namespace Token

def keywords : List (String × Kind) :=
  [("char", .kwChar), ("int", .kwInt), ("float", .kwFloat), ("double", .kwDouble),
    ("long", .kwLong), ("short", .kwShort), ("signed", .kwSigned), ("unsigned", .kwUnsigned),
    ("if", .kwIf), ("else", .kwElse), ("for", .kwFor), ("while", .kwWhile), ("do", .kwDo),
    ("return", .kwReturn), ("break", .kwBreak), ("continue", .kwContinue), ("switch", .kwSwitch),
    ("case", .kwCase), ("default", .kwDefault), ("struct", .kwStruct)]

def ofWord (w : String) : Token :=
  ⟨(keywords.lookup w).getD .id, .text w⟩

structure Operator where
  spelling : List Char
  kind : Kind
  value : String

/-- The operators and punctuation marks, longer spellings first. -/
def operators : List Operator :=
  [⟨['<', '<', '='], .leftAssign, "<<="⟩, ⟨['>', '>', '='], .rightAssign, ">>="⟩,
    ⟨['+', '='], .addAssign, "+="⟩, ⟨['-', '='], .subAssign, "-="⟩, ⟨['*', '='], .mulAssign, "*="⟩,
    ⟨['/', '='], .divAssign, "/="⟩, ⟨['%', '='], .modAssign, "%="⟩, ⟨['&', '='], .andAssign, "&="⟩,
    ⟨['^', '='], .xorAssign, "^="⟩, ⟨['|', '='], .orAssign, "|="⟩, ⟨['>', '>'], .rightOp, ">>"⟩,
    ⟨['<', '<'], .leftOp, "<<"⟩, ⟨['+', '+'], .incOp, "++"⟩, ⟨['-', '-'], .decOp, "--"⟩,
    ⟨['&', '&'], .logAndOp, "&&"⟩, ⟨['|', '|'], .logOrOp, "||"⟩, ⟨['<', '='], .leOp, "<="⟩,
    ⟨['>', '='], .geOp, ">="⟩, ⟨['=', '='], .eqOp, "=="⟩, ⟨['!', '='], .neOp, "!="⟩,
    ⟨['-', '>'], .arrow, "->"⟩,
    ⟨['<'], .ltOp, "<"⟩, ⟨['>'], .gtOp, ">"⟩, ⟨['='], .assign, "="⟩, ⟨['!'], .logNeg, "!"⟩,
    ⟨['&'], .ampersand, "&"⟩, ⟨['|'], .orOp, "|"⟩, ⟨['^'], .xorOp, "|"⟩, ⟨['+'], .plus, "+"⟩,
    ⟨['-'], .minus, "-"⟩, ⟨['*'], .asterisk, "*"⟩, ⟨['/'], .divOp, "/"⟩, ⟨['%'], .modOp, "%"⟩,
    ⟨['('], .lparen, "("⟩, ⟨[')'], .rparen, ")"⟩, ⟨['{'], .lbracket, "\x7b"⟩,
    ⟨['}'], .rbracket, "\x7d"⟩, ⟨[';'], .semicolon, ";"⟩, ⟨[':'], .colon, ":"⟩,
    ⟨[','], .comma, ","⟩, ⟨['.'], .dot, "."⟩, ⟨['#'], .hash, "#"⟩, ⟨['?'], .questionMark, "?"⟩]

def eof : Token := ⟨.eof, .nothing⟩

/-- The text of a token: its kind and its value, a text in quotes. -/
def render (t : Token) : String :=
  "Token(" ++ t.kind.name ++ ", " ++ t.value.quoted ++ ")"

end Token

end MiniC

import Mathlib.Data.Nat.Init
import MiniC.CType.Spelling
import MiniC.Token.Basic

/-!
# Derivations of expressions

The grammar of expressions as it is written down, and the part of it that is kept to when a text is
read. `Derives g n ts` says that a list of tokens can be derived from a nonterminal, by the rules as
they are written or as they are kept to. The rules that are kept to let a primary expression stand
for itself wherever an operand can stand. They ask for more in five places: what is assigned to is a
name, what a name points to, or a field; the address is taken of a name; what is called is a name,
and so is what a field is taken of, unless it stands in parentheses; the type of a conversion is
spelled by words that go together; and no ampersand stands behind a name or field with which an
assignment could begin.
-/

namespace MiniC.Grammar

/-! ## The grammar -/

/-- The grammar as it is written down, and as it is kept to. -/
inductive Reading where
  | written
  | kept
  deriving DecidableEq

/-- What is derived. `commas` and `operands` are repeated behind the first assignment and behind the
first operand of a level. -/
inductive Nonterminal where
  | expression
  | arguments
  | commas
  | assignment
  | assigned
  | conditional
  | binary (level : Nat)
  | operands (level : Nat)
  | cast
  | unary
  | suffixed
  | primary
  deriving DecidableEq

def operators : Nat → List Kind
  | 0 => [.logAndOp]
  | 1 => [.logOrOp]
  | 2 => [.orOp]
  | 3 => [.xorOp]
  | 4 => [.ampersand]
  | 5 => [.eqOp, .neOp]
  | 6 => [.leOp, .ltOp, .geOp, .gtOp]
  | 7 => [.leftOp, .rightOp]
  | 8 => [.plus, .minus]
  | 9 => [.asterisk, .divOp, .modOp]
  | _ => []

def assignOperators : List Kind :=
  [.assign, .mulAssign, .divAssign, .modAssign, .addAssign, .subAssign, .leftAssign, .rightAssign,
    .andAssign, .xorAssign, .orAssign]

def typeWords : List Kind :=
  [.kwShort, .kwLong, .kwSigned, .kwUnsigned, .kwChar, .kwInt, .kwFloat, .kwDouble]

inductive TypeTokens : List Token → Prop
  | words {ts : List Token} (hne : ts ≠ []) (hts : ∀ t ∈ ts, t.kind ∈ typeWords) : TypeTokens ts
  | pointer {ts : List Token} {o : Token} (hne : ts ≠ []) (hts : ∀ t ∈ ts, t.kind ∈ typeWords)
      (ho : o.kind = .asterisk) : TypeTokens (ts ++ [o])
  | tag {s k : Token} (hs : s.kind = .kwStruct) (hk : k.kind = .id) : TypeTokens [s, k]
  | tagPointer {s k o : Token} (hs : s.kind = .kwStruct) (hk : k.kind = .id)
      (ho : o.kind = .asterisk) : TypeTokens [s, k, o]

def Spells (ts : List Token) : Prop :=
  (∀ t ∈ ts, t.kind ∈ typeWords) ∧
    (CType.ofText (" ".intercalate (ts.map fun t => t.value.render))).isOk = true

inductive Target : List Token → Prop
  | name {k : Token} (hk : k.kind = .id) : Target [k]
  | pointed {o k : Token} (ho : o.kind = .asterisk) (hk : k.kind = .id) : Target [o, k]
  | field {b o m : Token} (hb : b.kind = .id) (ho : o.kind = .dot ∨ o.kind = .arrow)
      (hm : m.kind = .id) : Target [b, o, m]

/-- A name, which may stand in parentheses. A field behind the parentheses does not count. -/
inductive Named : List Token → Prop
  | name {k : Token} (hk : k.kind = .id) : Named [k]
  | enclosed {l r : Token} {w : List Token} (hl : l.kind = .lparen) (hw : Named w)
      (hr : r.kind = .rparen) : Named (l :: (w ++ [r]))
  | enclosedField {l r o m : Token} {w : List Token} (hl : l.kind = .lparen) (hw : Named w)
      (hr : r.kind = .rparen) (ho : o.kind = .dot) (hm : m.kind = .id) :
      Named (l :: (w ++ [r, o, m]))

def Enclosed (w : List Token) : Prop :=
  w.head?.map Token.kind = some .lparen ∧ w.getLast?.map Token.kind = some .rparen

def names : List (List Kind) :=
  [[.id], [.id, .dot, .id], [.id, .arrow, .id]]

def ampersandBehindName (ks : List Kind) : Bool :=
  names.any fun name => (name ++ [Kind.ampersand]).isPrefixOf ks

def ampersandBehindTarget : List Kind → Bool
  | .asterisk :: ks => ampersandBehindName ks
  | ks => ampersandBehindName ks

inductive Derives (g : Reading) : Nonterminal → List Token → Prop
  | expression {w v : List Token} (hw : Derives g .assignment w) (hv : Derives g .commas v) :
      Derives g .expression (w ++ v)
  | arguments {w v : List Token} (hw : Derives g .assignment w) (hv : Derives g .commas v) :
      Derives g .arguments (w ++ v)
  | noComma : Derives g .commas []
  | comma {c : Token} {w v : List Token} (hc : c.kind = .comma) (hw : Derives g .assignment w)
      (hv : Derives g .commas v) : Derives g .commas (c :: (w ++ v))
  | assignment {w : List Token} (hw : Derives g .assigned w) : Derives g .assignment w
  | unassigned {w : List Token} (hw : Derives g .conditional w)
      (hamp : g = .kept → ampersandBehindTarget (w.map Token.kind) = false) :
      Derives g .assignment w
  | unchanged {w : List Token} (hw : Derives g .primary w) : Derives g .assigned w
  | assign {o : Token} {w v : List Token} (hw : Derives g .assigned w)
      (ho : o.kind ∈ assignOperators) (hv : Derives g .assignment v)
      (htarget : g = .kept → Target w) : Derives g .assigned (w ++ o :: v)
  | condition {w : List Token} (hw : Derives g (.binary 0) w) : Derives g .conditional w
  | conditional {q c : Token} {w u v : List Token} (hw : Derives g (.binary 0) w)
      (hq : q.kind = .questionMark) (hu : Derives g .expression u) (hc : c.kind = .colon)
      (hv : Derives g .conditional v) : Derives g .conditional (w ++ q :: (u ++ c :: v))
  | binary {level : Nat} {w v : List Token} (hl : level < 10)
      (hw : Derives g (.binary (level + 1)) w) (hv : Derives g (.operands level) v) :
      Derives g (.binary level) (w ++ v)
  | noOperand {level : Nat} : Derives g (.operands level) []
  | operand {level : Nat} {o : Token} {w v : List Token} (ho : o.kind ∈ operators level)
      (hw : Derives g (.binary (level + 1)) w) (hv : Derives g (.operands level) v) :
      Derives g (.operands level) (o :: (w ++ v))
  | tightest {w : List Token} (hw : Derives g .cast w) : Derives g (.binary 10) w
  | cast {l r : Token} {ts w : List Token} (hl : l.kind = .lparen) (hts : TypeTokens ts)
      (hr : r.kind = .rparen) (hw : Derives g .cast w) (hspells : g = .kept → Spells ts) :
      Derives g .cast (l :: (ts ++ r :: w))
  | unconverted {w : List Token} (hw : Derives g .unary w) : Derives g .cast w
  | step {o : Token} {w : List Token} (ho : o.kind = .incOp ∨ o.kind = .decOp)
      (hw : Derives g .primary w) : Derives g .unary (o :: w)
  | address {o : Token} {w : List Token} (ho : o.kind = .ampersand) (hw : Derives g .cast w)
      (hname : g = .kept → ∃ k, w = [k] ∧ k.kind = .id) : Derives g .unary (o :: w)
  | prefixed {o : Token} {w : List Token} (ho : o.kind ∈ [.asterisk, .plus, .minus, .logNeg])
      (hw : Derives g .cast w) : Derives g .unary (o :: w)
  | unprefixed {w : List Token} (hw : Derives g .suffixed w) : Derives g .unary w
  | bare {w : List Token} (hg : g = .kept) (hw : Derives g .primary w) : Derives g .suffixed w
  | stepped {o : Token} {w : List Token} (hw : Derives g .primary w)
      (ho : o.kind = .incOp ∨ o.kind = .decOp) : Derives g .suffixed (w ++ [o])
  | field {o m : Token} {w : List Token} (hw : Derives g .primary w) (ho : o.kind = .dot)
      (hm : m.kind = .id) (hbase : g = .kept → Named w ∨ Enclosed w) :
      Derives g .suffixed (w ++ [o, m])
  | call {l r : Token} {w : List Token} (hw : Derives g .primary w) (hl : l.kind = .lparen)
      (hr : r.kind = .rparen) (hname : g = .kept → Named w) : Derives g .suffixed (w ++ [l, r])
  | callWith {l r : Token} {w v : List Token} (hw : Derives g .primary w) (hl : l.kind = .lparen)
      (hv : Derives g .arguments v) (hr : r.kind = .rparen) (hname : g = .kept → Named w) :
      Derives g .suffixed (w ++ l :: (v ++ [r]))
  | enclosed {l r : Token} {w : List Token} (hl : l.kind = .lparen) (hw : Derives g .expression w)
      (hr : r.kind = .rparen) : Derives g .primary (l :: (w ++ [r]))
  | enclosedField {l r o m : Token} {w : List Token} (hl : l.kind = .lparen)
      (hw : Derives g .expression w) (hr : r.kind = .rparen) (ho : o.kind = .dot)
      (hm : m.kind = .id) : Derives g .primary (l :: (w ++ [r, o, m]))
  | constant {k : Token} (hk : k.kind = .integerConst ∨ k.kind = .realConst) :
      Derives g .primary [k]
  | string {k : Token} (hk : k.kind = .string) : Derives g .primary [k]
  | name {k : Token} (hk : k.kind = .id) : Derives g .primary [k]
  | pointed {o k : Token} (ho : o.kind = .asterisk) (hk : k.kind = .id) : Derives g .primary [o, k]
  | member {b o m : Token} (hb : b.kind = .id) (ho : o.kind = .dot ∨ o.kind = .arrow)
      (hm : m.kind = .id) : Derives g .primary [b, o, m]

namespace Derives

variable {g : Reading} {w : List Token}

/-- What is derived at a level is an operand of the looser ones. -/
theorem binary_of_le {level tighter : Nat} (hw : Derives g (.binary tighter) w)
    (hl : level ≤ tighter) (ht : tighter ≤ 10) : Derives g (.binary level) w := by
  induction hl using Nat.decreasingInduction with
  | self => exact hw
  | of_succ level hl hup => exact List.append_nil w ▸ .binary (by omega) hup .noOperand

theorem conditional_of_cast (hw : Derives g .cast w) : Derives g .conditional w :=
  .condition ((tightest hw).binary_of_le (by decide) (by decide))

theorem expression_of_assignment (hw : Derives g .assignment w) : Derives g .expression w :=
  List.append_nil w ▸ .expression hw .noComma

end Derives

end MiniC.Grammar

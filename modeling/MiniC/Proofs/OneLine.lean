import MiniC.Program
import MiniC.Proofs.Lexing

/-!
# Reading a text as if it stood on one line

Lines are kept for messages only. What is read, said of it and executed is compared here with what
would come of it if the text stood on one line: `oneLine` sets every line to one. Reading a stream
of tokens on one line gives what reading the stream gives, put on one line, and it fails where that
fails. So two texts with the same tokens have the same tree up to lines.
-/

namespace MiniC

def LexicalError.oneLine : LexicalError → LexicalError
  | unterminatedComment _ => unterminatedComment 1
  | unterminatedString _ => unterminatedString 1
  | unterminatedChar _ => unterminatedChar 1
  | invalidChar c _ => invalidChar c 1
  | badNumeral digits => badNumeral digits

def Stream.oneLine : Stream → Stream
  | stuck e => stuck e.oneLine
  | done _ => done 1
  | more t _ rest => more t 1 rest.oneLine

def SyntaxError.oneLine : SyntaxError → SyntaxError
  | lexical e => lexical e.oneLine
  | expected wanted found _ => expected wanted found 1
  | expectedInclude found _ => expectedInclude found 1
  | headersOnly _ => headersOnly 1
  | badType cause _ => badType cause 1
  | e => e

namespace Tree

mutual

@[simp]
def oneLine : Tree → Tree
  | absent => absent
  | noOp _ => noOp 1
  | num t _ => num t 1
  | string t _ => string t 1
  | var t _ => var t 1
  | typeName t _ => typeName t 1
  | structName t _ => structName t 1
  | binary l op r _ => binary l.oneLine op r.oneLine 1
  | unary op e b _ => unary op e.oneLine b 1
  | cast t e b _ => cast t.oneLine e.oneLine b 1
  | ternary c a b _ => ternary c.oneLine a.oneLine b.oneLine 1
  | assign t op v _ => assign t.oneLine op v.oneLine 1
  | sequence cs _ => sequence (oneLineAll cs) 1
  | call f args _ => call f (oneLineAll args) 1
  | field op b m _ => field op b.oneLine m.oneLine 1
  | switch s cs _ => switch s.oneLine (oneLineAll cs) 1
  | caseLabel v _ => caseLabel v.oneLine 1
  | defaultLabel _ => defaultLabel 1
  | ifElse c a b _ => ifElse c.oneLine a.oneLine b.oneLine 1
  | forLoop s c i b _ => forLoop s.oneLine c.oneLine i.oneLine b.oneLine 1
  | whileLoop c b _ => whileLoop c.oneLine b.oneLine 1
  | doWhile c b _ => doWhile c.oneLine b.oneLine 1
  | returning v _ => returning v.oneLine 1
  | breaking _ => breaking 1
  | continuing _ => continuing 1
  | block cs _ => block (oneLineAll cs) 1
  | body cs _ => body (oneLineAll cs) 1
  | program cs _ => program (oneLineAll cs) 1
  | varDecl v t _ => varDecl v.oneLine t.oneLine 1
  | param t v _ => param t.oneLine v.oneLine 1
  | structDecl s fields mark _ => structDecl s fields mark 1
  | library l _ => library l 1
  | function t f ps b _ => function t.oneLine f (oneLineAll ps) b.oneLine 1

def oneLineAll : List Tree → List Tree
  | [] => []
  | t :: ts => t.oneLine :: oneLineAll ts

end

@[simp] theorem oneLineAll_eq (ts : List Tree) : oneLineAll ts = ts.map oneLine := by
  induction ts with
  | nil => rfl
  | cons t ts ih => rw [oneLineAll, ih, List.map_cons]

@[simp] theorem name?_oneLine (t : Tree) : t.oneLine.name? = t.name? := by cases t <;> rfl

@[simp] theorem type?_oneLine (t : Tree) : t.oneLine.type? = t.type? := by cases t <;> rfl

end Tree

@[simp] theorem Stream.size_oneLine (s : Stream) : s.oneLine.size = s.size := by
  induction s with
  | stuck | done => rfl
  | more t n rest ih => rw [oneLine, size, size, ih]

namespace Parser

variable {α β γ δ : Type}

def Mirrors (f : α → β) (p : Parser α) (q : Parser β) : Prop :=
  ∀ s : Stream, q s.oneLine =
    ((p s).mapError SyntaxError.oneLine).map fun r => (f r.1, r.2.oneLine)

namespace Mirrors

variable {f : α → β} {p : Parser α} {q : Parser β}

theorem pure (a : α) : Mirrors f (pure a) (pure (f a)) :=
  fun _ => rfl

theorem pure_of_eq {a : α} {b : β} (h : f a = b) : Mirrors f (Pure.pure a) (Pure.pure b) :=
  h ▸ .pure a

theorem throw (e : SyntaxError) : Mirrors f (throw e) (throw e.oneLine) :=
  fun _ => rfl

theorem bind {g : γ → δ} {k : α → Parser γ} {l : β → Parser δ} (hp : Mirrors f p q)
    (hk : ∀ a, Mirrors g (k a) (l (f a))) : Mirrors g (p >>= k) (q >>= l) := by
  intro s
  change (q s.oneLine).bind (fun r => l r.1 r.2) = (((p s).bind fun r => k r.1 r.2).mapError _).map _
  rw [hp s]
  cases p s with
  | error e => rfl
  | ok r => exact hk r.1 r.2

theorem ite {c : Prop} [Decidable c] {p' : Parser α} {q' : Parser β} (h : Mirrors f p q)
    (h' : Mirrors f p' q') : Mirrors f (if c then p else p') (if c then q else q') := by
  split
  · exact h
  · exact h'

theorem map {g : γ → δ} {u : α → γ} {v : β → δ} (hp : Mirrors f p q) (h : ∀ a, v (f a) = g (u a)) :
    Mirrors g (u <$> p) (v <$> q) := by
  rw [map_eq_pure_bind, map_eq_pure_bind]
  refine hp.bind fun a => ?_
  rw [h a]
  exact .pure _

theorem ofToken : Mirrors (fun t => t) token token := by
  intro s
  cases s <;> rfl

theorem ofLine : Mirrors (fun _ => 1) line line := by
  intro s
  cases s <;> rfl

theorem ofLeft : Mirrors (fun n => n) left left := by
  intro s
  change Except.ok (s.oneLine.size, s.oneLine) = .ok (s.size, s.oneLine)
  rw [s.size_oneLine]

theorem ofAdvance : Mirrors (fun u => u) advance advance := by
  intro s
  cases s with
  | stuck | done => rfl
  | more t n rest => cases rest <;> rfl

theorem token {k : Token → Parser α} {l : Token → Parser β} (h : ∀ t, Mirrors f (k t) (l t)) :
    Mirrors f (token >>= k) (Parser.token >>= l) :=
  ofToken.bind h

theorem kind {k : Kind → Parser α} {l : Kind → Parser β} (h : ∀ c, Mirrors f (k c) (l c)) :
    Mirrors f (kind >>= k) (Parser.kind >>= l) :=
  have hkind : Mirrors (fun c => c) Parser.kind Parser.kind := ofToken.map fun _ => rfl
  hkind.bind h

theorem line {k : Nat → Parser α} {l : Nat → Parser β} (h : ∀ n, Mirrors f (k n) (l 1)) :
    Mirrors f (line >>= k) (Parser.line >>= l) :=
  ofLine.bind h

theorem left {k : Nat → Parser α} {l : Nat → Parser β} (h : ∀ n, Mirrors f (k n) (l n)) :
    Mirrors f (left >>= k) (Parser.left >>= l) :=
  ofLeft.bind h

theorem advance {k : Unit → Parser α} {l : Unit → Parser β} (h : Mirrors f (k ()) (l ())) :
    Mirrors f (advance >>= k) (Parser.advance >>= l) :=
  ofAdvance.bind fun _ => h

theorem ofEat (wanted : Kind) : Mirrors (fun u => u) (eat wanted) (eat wanted) :=
  .kind fun _ => .ite ofAdvance (.line fun _ => .throw _)

theorem eat {wanted : Kind} {k : Unit → Parser α} {l : Unit → Parser β}
    (h : Mirrors f (k ()) (l ())) : Mirrors f (eat wanted >>= k) (Parser.eat wanted >>= l) :=
  (ofEat wanted).bind fun _ => h

theorem lookahead (h : Mirrors f p q) : Mirrors f (lookahead p) (Parser.lookahead q) := by
  intro s
  change (q s.oneLine).bind (fun r => .ok (r.1, s.oneLine)) =
    (((p s).bind fun r => .ok (r.1, s)).mapError _).map _
  rw [h s]
  cases p s <;> rfl

theorem manyWhile (h : Mirrors f p q) (goesOn : Kind → Bool) :
    Mirrors (List.map f) (manyWhile goesOn p) (Parser.manyWhile goesOn q) := by
  have hitems (fuel : Nat) :
      Mirrors (List.map f) (itemsWhile goesOn p fuel) (itemsWhile goesOn q fuel) := by
    induction fuel with
    | zero => exact .throw _
    | succ fuel ih =>
      exact .kind fun _ => .ite (h.bind fun _ => ih.bind fun _ => .pure _) (.pure _)
  exact .left fun _ => hitems _

theorem commaList (h : Mirrors f p q) : Mirrors (List.map f) (commaList p) (Parser.commaList q) :=
  h.bind fun _ => (manyWhile (.eat h) _).bind fun _ => .pure _

theorem chain {p q : Parser Tree} (h : Mirrors Tree.oneLine p q) (ops : Kind → Bool) :
    Mirrors Tree.oneLine (chain ops p) (Parser.chain ops q) := by
  have hchain (fuel : Nat) (t : Tree) :
      Mirrors Tree.oneLine (chainFrom ops p fuel t) (chainFrom ops q fuel t.oneLine) := by
    induction fuel generalizing t with
    | zero => exact .throw _
    | succ fuel ih =>
      exact .token fun _ => .ite (.advance (h.bind fun _ => .line fun _ => ih _)) (.pure _)
  exact h.bind fun _ => .left fun _ => hchain _ _

theorem start (h : Mirrors f p q) (s : Stream) :
    start q s.oneLine =
      ((Parser.start p s).mapError SyntaxError.oneLine).map fun r => (f r.1, r.2.oneLine) := by
  cases s with
  | stuck e => rfl
  | done n => exact h (.done n)
  | more t n rest => exact h (.more t n rest)

end Mirrors

end Parser

namespace Grammar

open MiniC.Parser MiniC.Tree

/-! ## Expressions -/

theorem binaryOf_mirrors {p : Parser Tree} (h : Mirrors oneLine p p) (ls : List (List Kind)) :
    Mirrors oneLine (binaryOf ls p) (binaryOf ls p) := by
  induction ls with
  | nil => exact h
  | cons ops ls ih => exact ih.chain _

theorem variableName_mirrors : Mirrors oneLine variableName variableName :=
  .token fun _ => .line fun _ => .eat (.pure _)

theorem stringLiteral_mirrors : Mirrors oneLine stringLiteral stringLiteral :=
  .token fun _ => .line fun _ => .eat (.pure _)

theorem empty_mirrors : Mirrors oneLine empty empty :=
  .line fun _ => .pure _

theorem constant_mirrors : Mirrors oneLine constant constant := by
  refine .token fun t => ?_
  split
  case h_1 | h_2 | h_3 => exact .advance (.line fun _ => .pure _)
  case h_4 => exact .throw _

theorem specifiers_mirrors : Mirrors (fun words => words) specifiers specifiers := by
  have hmany : Mirrors (List.map fun word => word) specifiers specifiers :=
    .manyWhile (.token fun _ => .advance (.pure _)) _
  rwa [show (List.map fun word : String => word) = fun words => words from funext List.map_id']
    at hmany

theorem typeSpecifier_mirrors : Mirrors oneLine typeSpecifier typeSpecifier := by
  refine .kind fun _ => .ite ?_ ?_
  · refine .left fun mark => .advance (.token fun t => .eat (.kind fun k => .ite ?_ ?_))
    · exact .advance (.line fun _ => .pure _)
    · exact .line fun _ => .pure _
  · refine specifiers_mirrors.bind fun words => .kind fun k => .ite (.advance ?_) ?_
    all_goals
      split
      · exact .line fun _ => .pure _
      · exact .line fun _ => .throw _

theorem variableOrField_mirrors : Mirrors oneLine variableOrField variableOrField := by
  refine variableName_mirrors.bind fun v => .kind fun k => .ite (.advance ?_) (.pure _)
  exact variableName_mirrors.bind fun _ => .line fun _ => .pure _

theorem castAhead_mirrors : Mirrors (fun b => b) castAhead castAhead := by
  refine .lookahead (.kind fun _ => .ite (.advance (.kind fun _ => .ite (.pure _) ?_)) (.pure _))
  exact specifiers_mirrors.bind fun _ => .kind fun _ => .pure _

theorem assignmentAhead_mirrors : Mirrors (fun b => b) assignmentAhead assignmentAhead := by
  -- a star, a dot and an arrow may each stand there or not
  refine .lookahead (.kind fun _ => .ite (.advance ?_) ?_)
  all_goals
    refine .kind fun _ => .ite (.pure _) (.advance (.kind fun _ => .ite (.advance
      (.kind fun _ => .ite (.pure _) (.advance ?_))) ?_))
    all_goals
      refine .kind fun _ => .ite (.advance (.kind fun _ => .ite (.pure _) (.advance ?_))) ?_
      all_goals exact .kind fun _ => .ite (.throw _) (.pure _)

section

variable {nested : Nested → Parser Tree}
  (hn : ∀ r, Mirrors oneLine (nested r) (nested r))

include hn

theorem expressionOf_mirrors : Mirrors oneLine (expressionOf nested) (expressionOf nested) := by
  refine (hn .assignment).commaList.bind fun es => ?_
  cases es with
  | nil => exact .line fun _ => .pure _
  | cons e es =>
    cases es with
    | nil => exact .pure _
    | cons e' es => exact .line fun _ => .pure_of_eq (by simp)

theorem argumentsOf_mirrors :
    Mirrors (List.map oneLine) (argumentsOf nested) (argumentsOf nested) :=
  (hn .assignment).commaList

theorem parenthesized_mirrors : Mirrors oneLine (parenthesized nested) (parenthesized nested) := by
  refine .eat ((expressionOf_mirrors hn).bind fun e => .eat (.kind fun k => .ite (.advance ?_) ?_))
  · exact variableName_mirrors.bind fun _ => .pure _
  · exact .pure _

theorem primaryOf_mirrors : Mirrors oneLine (primaryOf nested) (primaryOf nested) := by
  refine .token fun t => ?_
  split
  case h_1 => exact parenthesized_mirrors hn
  case h_2 | h_3 | h_4 => exact constant_mirrors
  case h_5 => exact stringLiteral_mirrors
  case h_6 => exact .advance (variableName_mirrors.bind fun _ => .line fun _ => .pure _)
  case h_7 => exact variableOrField_mirrors

theorem postfixOf_mirrors : Mirrors oneLine (postfixOf nested) (postfixOf nested) := by
  refine (primaryOf_mirrors hn).bind fun node => .token fun t => ?_
  split
  case h_1 | h_2 => exact .advance (.line fun _ => .pure _)
  case h_3 =>
    refine .advance (.kind fun _ => .ite ?_ ?_)
    · refine .bind (f := List.map oneLine) (.pure []) fun args => .eat ?_
      cases node with
      | var v n => exact .line fun _ => .pure_of_eq (by simp)
      | _ => exact .throw _
    · refine (argumentsOf_mirrors hn).bind fun args => .eat ?_
      cases node with
      | var v n => exact .line fun _ => .pure_of_eq (by simp)
      | _ => exact .throw _
  case h_4 | h_5 =>
    refine .advance ?_
    cases node with
    | var v n => exact variableName_mirrors.bind fun _ => .line fun _ => .pure _
    | _ => exact .throw _
  case h_6 => exact .pure _

theorem unaryOf_mirrors : Mirrors oneLine (unaryOf nested) (unaryOf nested) := by
  refine .token fun t => ?_
  split
  case h_1 | h_2 =>
    exact .advance ((primaryOf_mirrors hn).bind fun _ => .line fun _ => .pure _)
  case h_3 => exact .advance (variableName_mirrors.bind fun _ => .line fun _ => .pure _)
  case h_4 | h_5 | h_6 | h_7 => exact .advance ((hn .cast).bind fun _ => .line fun _ => .pure _)
  case h_8 => exact postfixOf_mirrors hn

theorem castOf_mirrors : Mirrors oneLine (castOf nested) (castOf nested) := by
  refine castAhead_mirrors.bind fun _ => .ite (.eat ?_) (unaryOf_mirrors hn)
  refine typeSpecifier_mirrors.bind fun _ => .eat ((hn .cast).bind fun _ => ?_)
  exact .line fun _ => .pure _

theorem conditionalOf_mirrors : Mirrors oneLine (conditionalOf nested) (conditionalOf nested) := by
  refine (binaryOf_mirrors (castOf_mirrors hn) _).bind fun _ => .kind fun _ => .ite ?_ (.pure _)
  refine .advance ((expressionOf_mirrors hn).bind fun _ => .eat ((hn .conditional).bind fun _ => ?_))
  exact .line fun _ => .pure _

theorem assignmentOf_mirrors : Mirrors oneLine (assignmentOf nested) (assignmentOf nested) := by
  refine assignmentAhead_mirrors.bind fun _ => .ite ?_ (conditionalOf_mirrors hn)
  refine (primaryOf_mirrors hn).bind fun _ => .token fun _ => .ite ?_ (conditionalOf_mirrors hn)
  exact .advance ((hn .assignment).bind fun _ => .line fun _ => .pure _)

end

theorem nestedAt_mirrors (depth : Nat) (r : Nested) :
    Mirrors oneLine (nestedAt depth r) (nestedAt depth r) := by
  induction depth generalizing r with
  | zero => exact .throw _
  | succ depth ih =>
    cases r with
    | assignment => exact assignmentOf_mirrors ih
    | conditional => exact conditionalOf_mirrors ih
    | cast => exact castOf_mirrors ih

theorem expression_mirrors : Mirrors oneLine expression expression :=
  .left fun _ => expressionOf_mirrors (nestedAt_mirrors _)

theorem assignmentExpression_mirrors :
    Mirrors oneLine assignmentExpression assignmentExpression :=
  .left fun _ => assignmentOf_mirrors (nestedAt_mirrors _)

/-! ## Declarations -/

theorem initDeclarator_mirrors :
    Mirrors (List.map oneLine) initDeclarator initDeclarator := by
  refine variableName_mirrors.bind fun _ => .token fun _ => .ite ?_ (.pure _)
  exact .advance (assignmentExpression_mirrors.bind fun _ => .line fun _ => .pure _)

theorem initDeclarators_mirrors :
    Mirrors (List.map oneLine) initDeclarators initDeclarators :=
  initDeclarator_mirrors.commaList.map fun _ => List.map_flatten.symm

theorem declareVariables_oneLine (type : Tree) (n : Nat) (nodes : List Tree) :
    declareVariables type.oneLine 1 (nodes.map oneLine) =
      (declareVariables type n nodes).map oneLine := by
  simp only [declareVariables, List.map_map]
  refine List.map_congr_left fun t _ => ?_
  cases t <;> rfl

theorem varDeclaration_mirrors :
    Mirrors (List.map oneLine) varDeclaration varDeclaration := by
  refine typeSpecifier_mirrors.bind fun type => initDeclarators_mirrors.bind fun nodes => ?_
  exact .line fun n => .eat (.pure_of_eq (declareVariables_oneLine type n nodes).symm)

theorem fieldDeclaration_mirrors :
    Mirrors (List.map oneLine) fieldDeclaration fieldDeclaration := by
  refine typeSpecifier_mirrors.bind fun type => variableName_mirrors.commaList.bind fun vars => ?_
  exact .line fun n => .eat (.pure_of_eq (declareVariables_oneLine type n vars).symm)

theorem fieldsOf_oneLine (decls : List Tree) : fieldsOf (decls.map oneLine) = fieldsOf decls := by
  simp only [fieldsOf, List.filterMap_map]
  congr 2
  funext t
  cases t with
  | varDecl v t n => simp
  | _ => rfl

theorem structDeclaration_mirrors : Mirrors oneLine structDeclaration structDeclaration := by
  refine .left fun mark => .eat (.token fun t => .eat (.eat ?_))
  refine (fieldDeclaration_mirrors.manyWhile _).bind fun decls => .eat (.eat (.line fun n => ?_))
  refine .pure_of_eq ?_
  rw [← List.map_flatten, fieldsOf_oneLine, oneLine]

theorem structAhead_mirrors : Mirrors (fun b => b) structAhead structAhead := by
  refine .lookahead (.kind fun _ => .ite (.pure _) (.advance (.kind fun _ => .ite (.pure _) ?_)))
  exact .advance (.kind fun _ => .pure _)

theorem declaration_mirrors : Mirrors (List.map oneLine) declaration declaration := by
  refine structAhead_mirrors.bind fun _ => .ite ?_ varDeclaration_mirrors
  exact structDeclaration_mirrors.bind fun _ => .pure _

/-! ## Statements -/

theorem expressionStatement_mirrors : Mirrors oneLine expressionStatement expressionStatement := by
  refine .kind fun _ => .ite (.advance (.line fun _ => .pure _)) ?_
  exact expression_mirrors.bind fun _ => .eat (.pure _)

theorem jumpStatement_mirrors : Mirrors oneLine jumpStatement jumpStatement := by
  refine .kind fun k => ?_
  split
  · refine .advance (empty_mirrors.bind fun _ => .kind fun _ => .ite ?_ ?_)
    · exact .bind (.pure _) fun _ => .eat (.line fun _ => .pure _)
    · exact expression_mirrors.bind fun _ => .eat (.line fun _ => .pure _)
  · exact .advance (.eat (.line fun _ => .pure _))
  · exact .advance (.eat (.line fun _ => .pure _))
  · exact .pure _

theorem switchLabel_mirrors : Mirrors oneLine switchLabel switchLabel := by
  refine .kind fun _ => .ite (.advance ?_) (.eat (.eat (.line fun _ => .pure _)))
  exact expression_mirrors.bind fun _ => .eat (.line fun _ => .pure _)

section

variable {statement : Parser Tree} (hs : Mirrors oneLine statement statement)

include hs

theorem itemOf_mirrors : Mirrors (List.map oneLine) (itemOf statement) (itemOf statement) :=
  .kind fun _ => .ite declaration_mirrors (hs.bind fun _ => .pure _)

theorem itemsOf_mirrors : Mirrors (List.map oneLine) (itemsOf statement) (itemsOf statement) := by
  refine .eat (((itemOf_mirrors hs).manyWhile _).bind fun items => .eat (.pure_of_eq ?_))
  exact List.map_flatten

theorem compoundOf_mirrors : Mirrors oneLine (compoundOf statement) (compoundOf statement) :=
  (itemsOf_mirrors hs).bind fun _ => .line fun _ => .pure_of_eq (by simp)

theorem ifOf_mirrors : Mirrors oneLine (ifOf statement) (ifOf statement) := by
  refine .eat (.eat (expression_mirrors.bind fun _ => .eat (hs.bind fun _ => ?_)))
  refine empty_mirrors.bind fun _ => .kind fun _ => .ite (.advance ?_) (.line fun _ => .pure _)
  exact hs.bind fun _ => .line fun _ => .pure _

theorem switchOf_mirrors : Mirrors oneLine (switchOf statement) (switchOf statement) := by
  refine .eat (.eat (expression_mirrors.bind fun _ => .eat (.eat ?_)))
  refine .bind (f := List.map (List.map oneLine)) (.manyWhile (.kind fun _ => .ite ?_ ?_) _) ?_
  · exact switchLabel_mirrors.bind fun _ => .pure _
  · exact itemOf_mirrors hs
  · exact fun items => .eat (.line fun _ => .pure_of_eq (by simp [List.map_flatten]))

theorem selectionOf_mirrors : Mirrors oneLine (selectionOf statement) (selectionOf statement) := by
  refine .kind fun k => ?_
  split
  · exact ifOf_mirrors hs
  · exact switchOf_mirrors hs
  · exact .pure _

theorem whileOf_mirrors : Mirrors oneLine (whileOf statement) (whileOf statement) := by
  refine .eat (.eat (expression_mirrors.bind fun _ => .eat (hs.bind fun _ => ?_)))
  exact .line fun _ => .pure _

theorem doWhileOf_mirrors : Mirrors oneLine (doWhileOf statement) (doWhileOf statement) := by
  refine .eat (hs.bind fun _ => .eat (.eat (expression_mirrors.bind fun _ => .eat (.eat ?_))))
  exact .line fun _ => .pure _

theorem forOf_mirrors : Mirrors oneLine (forOf statement) (forOf statement) := by
  refine .eat (.eat (expressionStatement_mirrors.bind fun _ => ?_))
  refine expressionStatement_mirrors.bind fun _ => empty_mirrors.bind fun _ => .kind fun _ => ?_
  refine .ite (.bind (f := oneLine) (.pure _) fun _ => ?_) (expression_mirrors.bind fun _ => ?_)
  all_goals exact .eat (hs.bind fun _ => .line fun _ => .pure _)

theorem iterationOf_mirrors : Mirrors oneLine (iterationOf statement) (iterationOf statement) := by
  refine .kind fun k => ?_
  split
  · exact whileOf_mirrors hs
  · exact doWhileOf_mirrors hs
  · exact forOf_mirrors hs

theorem statementOf_mirrors : Mirrors oneLine (statementOf statement) (statementOf statement) := by
  refine .kind fun _ => .ite (iterationOf_mirrors hs) (.ite (selectionOf_mirrors hs) ?_)
  exact .ite jumpStatement_mirrors (.ite (compoundOf_mirrors hs) expressionStatement_mirrors)

end

theorem statementAt_mirrors (depth : Nat) :
    Mirrors oneLine (statementAt depth) (statementAt depth) := by
  induction depth with
  | zero => exact .throw _
  | succ depth ih => exact statementOf_mirrors ih

/-! ## Programs -/

theorem functionBody_mirrors : Mirrors oneLine functionBody functionBody := by
  have hitems : Mirrors (List.map oneLine) (withStatements itemsOf) (withStatements itemsOf) :=
    .left fun n => itemsOf_mirrors (statementAt_mirrors n)
  exact hitems.bind fun _ => .line fun _ => .pure_of_eq (by simp)

theorem libraryInclude_mirrors : Mirrors oneLine libraryInclude libraryInclude := by
  refine .eat (.token fun _ => .ite (.line fun _ => .throw _) ?_)
  refine .eat (.eat (.token fun _ => .eat (.eat (.token fun _ => .ite (.line fun _ => .throw _) ?_))))
  exact .eat (.eat (.line fun _ => .pure _))

theorem functionAhead_mirrors : Mirrors (fun b => b) functionAhead functionAhead := by
  refine .lookahead (typeSpecifier_mirrors.bind fun _ => .kind fun _ => .ite (.pure _) ?_)
  exact .advance (.kind fun _ => .pure _)

theorem parameters_mirrors : Mirrors (List.map oneLine) parameters parameters := by
  refine .kind fun _ => .ite (.pure _) (.commaList ?_)
  refine typeSpecifier_mirrors.bind fun _ => variableName_mirrors.bind fun _ => ?_
  exact .line fun _ => .pure _

theorem functionDeclaration_mirrors : Mirrors oneLine functionDeclaration functionDeclaration := by
  refine typeSpecifier_mirrors.bind fun _ => .token fun _ => .eat (.eat ?_)
  refine parameters_mirrors.bind fun _ => .eat (functionBody_mirrors.bind fun _ => ?_)
  exact .line fun _ => .pure_of_eq (by simp)

theorem topLevelItem_mirrors : Mirrors (List.map oneLine) topLevelItem topLevelItem := by
  refine .kind fun _ => .ite (libraryInclude_mirrors.bind fun _ => .pure _) ?_
  refine functionAhead_mirrors.bind fun _ => .ite ?_ declaration_mirrors
  exact functionDeclaration_mirrors.bind fun _ => .pure _

theorem program_mirrors : Mirrors oneLine program program := by
  have hdecls : Mirrors (List.map oneLine) declarations declarations :=
    (topLevelItem_mirrors.manyWhile _).map fun _ => List.map_flatten.symm
  exact hdecls.bind fun _ => .line fun _ => .pure_of_eq (by simp)

theorem wholeProgram_mirrors : Mirrors oneLine wholeProgram wholeProgram :=
  program_mirrors.bind fun _ => .kind fun _ => .ite (.pure _) (.throw _)

theorem parseStream_oneLine (s : Stream) : parseStream s.oneLine =
    ((parseStream s).mapError SyntaxError.oneLine).map oneLine := by
  change Prod.fst <$> start wholeProgram s.oneLine =
    ((Prod.fst <$> start wholeProgram s).mapError _).map _
  rw [wholeProgram_mirrors.start]
  cases start wholeProgram s <;> rfl

end Grammar

/-! ## Streams with the same tokens -/

namespace Stream

theorem tokens_more_ok {t : Token} {n : Nat} {rest : Stream} {ts : List Token}
    (h : (more t n rest).tokens = .ok ts) : ∃ us, rest.tokens = .ok us ∧ ts = t :: us := by
  rw [tokens_more] at h
  cases hrest : rest.tokens with
  | error e =>
    rw [hrest] at h
    cases h
  | ok us =>
    rw [hrest] at h
    cases h
    exact ⟨us, rfl, rfl⟩

theorem tokens_ne_nil {s : Stream} {ts : List Token} (h : s.tokens = .ok ts) : ts ≠ [] := by
  cases s with
  | stuck e => cases h
  | done n =>
    cases h
    exact List.cons_ne_nil _ _
  | more t n rest =>
    obtain ⟨us, -, rfl⟩ := tokens_more_ok h
    exact List.cons_ne_nil _ _

theorem oneLine_eq_of_tokens {s u : Stream} {ts : List Token} (hs : s.tokens = .ok ts)
    (hu : u.tokens = .ok ts) : s.oneLine = u.oneLine := by
  induction s generalizing u ts with
  | stuck e => cases hs
  | done n =>
    cases hs
    cases u with
    | stuck e => cases hu
    | done m => rfl
    | more t m rest =>
      obtain ⟨us, hus, heq⟩ := tokens_more_ok hu
      exact absurd (List.cons.inj heq).2.symm (tokens_ne_nil hus)
  | more t n rest ih =>
    obtain ⟨us, hus, rfl⟩ := tokens_more_ok hs
    cases u with
    | stuck e => cases hu
    | done m =>
      cases hu
      exact absurd rfl (tokens_ne_nil hus)
    | more t' m rest' =>
      obtain ⟨us', hus', heq⟩ := tokens_more_ok hu
      obtain ⟨rfl, rfl⟩ := List.cons.inj heq
      rw [oneLine, oneLine, ih hus hus']

end Stream

end MiniC

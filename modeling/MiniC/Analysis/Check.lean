import MiniC.Analysis.Basic

/-!
# Checking programs

The check of a tree, which finds out its type. Trees are checked in the order in which they are
written, except that the increment of a loop comes behind its body, and the types of all arguments
of a call are known before they are compared with those of the parameters.
-/

namespace MiniC.Analysis

mutual

def check : Tree → Check Typing
  | .noOp _ => return .nothing
  | .num token _ => Check.ofExcept (literalType token)
  | .string _ _ => return .nothing
  | .var token line => variableType token.value.render line
  | .typeName type line => Check.ofExcept (namedType type line)
  | .structName type line => structType type line
  | .binary left op right line => do
    let a ← check left
    let b ← check right
    Check.ofExcept (binaryType op.kind line a b)
  | .unary op operand _ line => do
    let t ← check operand
    Check.ofExcept (unaryType op.kind line operand t)
  | .cast target operand _ _ => do
    let _ ← check operand
    Check.ofExcept (castType target)
  | .ternary condition whenTrue whenFalse line => do
    let _ ← check condition
    let a ← check whenTrue
    let b ← check whenFalse
    unless a.same b do Check.warn (.branches a b line)
    return b
  | .assign target op value line => do
    let a ← check target
    let b ← check value
    let (t, w) ← Check.ofExcept (assignType op.kind line target a b)
    w.forM Check.warn
    return t
  | .sequence children _ => checkLast .nothing children
  | .call name args line => do
    match ← Check.lookup name with
    | some (.function _ type params) =>
      match params with
      | some params =>
        if args.length != params.length then
          Check.reject (.argumentCount name args.length params.length line)
        let (wanted, given) ← checkArgs params args
        unless (List.zipWith Typing.same wanted given).all id do
          Check.warn (.arguments name wanted given line)
      | none => checkAll args
      return type.elim .nothing Typing.type
    | some _ => Check.reject (.calledNoFunction name)
    | none => Check.reject (.unknownFunction name line)
  | .field op base member line => fieldType op base member line
  | .switch subject children line => do
    let t ← check subject
    Check.inSwitch (checkCases t line false children)
    return .nothing
  | .ifElse condition whenTrue whenFalse _ => do
    let _ ← check condition
    let _ ← check whenTrue
    let _ ← check whenFalse
    return .nothing
  | .forLoop setup condition increment body _ => do
    let _ ← check setup
    let _ ← check condition
    let _ ← Check.inLoop (check body)
    let _ ← check increment
    return .nothing
  | .whileLoop condition body _ => do
    let _ ← check condition
    let _ ← Check.inLoop (check body)
    return .nothing
  | .doWhile condition body _ => do
    let _ ← Check.inLoop (check body)
    let _ ← check condition
    return .nothing
  | .returning value _ => check value
  | .breaking line => do
    let s ← get
    if s.loops = 0 ∧ s.switches = 0 then Check.reject (.breakOutsideLoop line)
    return .nothing
  | .continuing line => do
    if (← get).loops = 0 then Check.reject (.continueOutsideLoop line)
    return .nothing
  | .block children _ => do
    Check.within (← blockTable) (checkAll children)
    return .nothing
  | .body children _ => do
    checkAll children
    return .nothing
  | .program children _ => do
    Check.within (.inside [] "global") do
      checkAll children
      if (← Check.lookup "main").isNone then Check.reject .noMain
    return .nothing
  | .varDecl var type line => do
    let _ ← check type
    let name ← nameOf var
    let type ← typeOf type
    Check.declare (.var name type) line
    return .nothing
  | .param type var line => declareParam type var line
  | .structDecl name fields mark line => do
    declareStruct name fields mark line
    return .nothing
  | .library name _ => do
    includeLibrary name
    return .nothing
  | .function type name params body line => do
    if (← Check.lookup name).isSome then Check.reject (.duplicate name line)
    let type ← typeOf type
    Check.insert (.function name (some type) (some []))
    Check.within (.inside (← get).tables name) do
      let params ← checkEach params
      Check.insertOutside (.function name (some type) (some params))
      let _ ← check body
    return .nothing
  | t => Check.fail (.noRule t.className)

def checkAll : List Tree → Check Unit
  | [] => return ()
  | t :: ts => do
    let _ ← check t
    checkAll ts

/-- Checks trees one after the other, and gives what was found out about each. -/
def checkEach : List Tree → Check (List Typing)
  | [] => return []
  | t :: ts => do
    let r ← check t
    return r :: (← checkEach ts)

/-- Checks trees one after the other, and gives what was found out about the last. -/
def checkLast (r : Typing) : List Tree → Check Typing
  | [] => return r
  | t :: ts => do checkLast (← check t) ts

/-- Checks arguments, and gives the types of the parameters and those of the arguments. -/
def checkArgs (params : List Typing) : List Tree → Check (List Typing × List Typing)
  | [] => return ([], [])
  | t :: ts => do
    let given ← check t
    match params with
    | p :: params =>
      let wanted ← Check.ofExcept p.parameterType
      let rest ← checkArgs params ts
      return (wanted :: rest.1, given :: rest.2)
    | [] => Check.fail .noSuchIndex

/-- Checks the children of a switch. The default label has to be the last one, and the labels have
to be of the type of the subject. -/
def checkCases (subject : Typing) (line : Nat) (defaultSeen : Bool) : List Tree → Check Unit
  | [] => return ()
  | .defaultLabel _ :: ts => do
    if defaultSeen then Check.reject (.secondDefault line)
    checkCases subject line true ts
  | .caseLabel value _ :: ts => do
    if defaultSeen then Check.reject (.labelBehindDefault line)
    let t ← check value
    unless subject.same t do Check.fail .noSuchPart
    checkCases subject line defaultSeen ts
  | t :: ts => do
    let _ ← check t
    checkCases subject line defaultSeen ts

end

def analyze (t : Tree) : Except Rejection Unit × List Warning :=
  let (r, s) := (do let _ ← check t : Check Unit).run start
  (r, s.warnings)

end MiniC.Analysis

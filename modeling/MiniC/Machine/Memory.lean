import MiniC.Machine.Basic

/-!
# Declaring, reading and writing

A declaration takes a block of its size, binds the name in the innermost scope and puts a first
value into the cell. Reading a cell that does not exist creates it, with an `int` drawn at random.
-/

namespace MiniC.Run

def allocate (size : Scalar) : Run Scalar := do
  let s ← getStore
  let next ← ofExcept (s.next.add size)
  setStore { s with next := next }
  return s.next

def declare (name : String) (size : Nat) (v : Value) : Run Unit := do
  let a ← allocate (.int size)
  changeStore (·.bind name (.at a))
  setStore ((← getStore).write a v)

def functionSize : Nat := 32

def structSize : Nat := 16

def declareFunction (name : String) : Run Unit :=
  declare name functionSize .nothing

def declareStruct (name : String) : Run Unit :=
  declare name structSize .nothing

/-- Declares a variable, with a value drawn at random. -/
def declareNumber (t : CType) (name : String) : Run Unit := do
  let size ← ofExcept t.size
  let n ← makeNumber t .nothing
  declare name size (.number n)

def declareConstant (name : String) (s : Scalar) : Run Unit := do
  let n ← makeNumber .int s
  changeStore (·.bind name (.constant n))

/-- Writes a cell. The cell keeps the value even if there is none, which is then refused. -/
def writeAt (a : Scalar) (v : Value) : Run Unit := do
  setStore ((← getStore).write a v)
  if v.isNothing then throw .noValue

def readAt (a : Scalar) : Run Value := do
  match (← getStore).read? a with
  | some v => return v
  | none =>
    let n ← makeNumber .int .nothing
    setStore ((← getStore).write a (.number n))
    return .number n

def lookup (name : String) : Run Binding := do
  ofExcept ((← getStore).lookup name)

/-- The address of a name that stands for a cell. Only whole addresses can be used by name. -/
def addressOf (b : Binding) : Except Fault Scalar :=
  match b with
  | .at (.int n) => .ok (.int n)
  | .at (.bool b) => .ok (.bool b)
  | .at _ => .error .noSuchPart
  | .constant _ => .error .wrongKind

def readName (name : String) : Run Value := do
  match ← lookup name with
  | .constant n => return .constant n
  | b => readAt (← ofExcept (addressOf b))

def writeName (name : String) (v : Value) : Run Unit := do
  match ← lookup name with
  | .constant _ => throw (.constantAssigned name)
  | b => writeAt (← ofExcept (addressOf b)) v

def fieldSize : VarType → Except Fault Nat
  | .number t => t.size
  | .struct t => .ok t.size

/-- The type of the number that a field holds; a structure is held by its address. -/
def fieldType : VarType → CType
  | .number t => t
  | .struct _ => .int

/-- Adds a field with a block of its own to a structure variable. -/
def declareField (name field : String) (t : VarType) : Run Unit := do
  let a ← allocate (.int (← ofExcept (fieldSize t)))
  match ← readName name with
  | .record fields =>
    let b ← lookup name
    setStore ((← getStore).write (← ofExcept (addressOf b)) (.record (fields.put field a)))
  | _ => throw .wrongKind
  let n ← makeNumber (fieldType t) .nothing
  setStore ((← getStore).write a (.number n))

/-- Declares a structure variable with its fields. A pointer to a structure is an `int`. -/
def declareStructVar (t : StructType) (name : String) : Run Unit := do
  if t.pointer then declareNumber .int name
  else
    declare name structSize (.record [])
    match ← readName t.name with
    | .structDef _ fields => fields.forM fun f => declareField name f.1 f.2
    | _ => throw .noSuchPart

def declareVariable (t : VarType) (name : String) : Run Unit :=
  match t with
  | .number t => declareNumber t name
  | .struct t => declareStructVar t name

def allocateDynamic (size : Scalar) : Run Scalar := do
  let a ← allocate size
  let s ← getStore
  let key := Address.ofScalar a
  setStore { s with dynamic := if key ∈ s.dynamic then s.dynamic else s.dynamic.insert key a }
  return a

/-- Releases a block. It is taken off the list of blocks before its cell, which has to be there, is
removed. -/
def release (a : Scalar) : Run Unit := do
  let s ← getStore
  let key := Address.ofScalar a
  if key ∈ s.dynamic then
    setStore { s with dynamic := s.dynamic.erase key }
    if key ∈ s.cells then
      setStore { (← getStore) with cells := s.cells.erase key }
    else throw .noSuchKey
  else throw .notAllocated

end MiniC.Run

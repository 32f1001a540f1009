import MiniC.Random.Generator
import MiniC.Scalar.Arithmetic
import MiniC.Store.Basic
import MiniC.Text.Words

/-!
# The machine

What a running program changes: the store, the random numbers still to come, the input that is left
and the output so far. A computation that fails keeps what it has changed up to that point.
-/

namespace MiniC

structure Machine where
  store : Store
  random : Random
  input : List Char
  output : String

namespace Machine

def start (input : String) (random : Random := .start) : Machine :=
  ⟨Store.empty, random, input.toList, ""⟩

end Machine

abbrev Run := ExceptT Fault (StateM Machine)

namespace Run

variable {α : Type}

def execute (p : Run α) (m : Machine) : Except Fault α × Machine :=
  p.run m

def ofExcept (r : Except Fault α) : Run α :=
  match r with
  | .ok a => pure a
  | .error f => throw f

def fail (f : Fault) : Run α :=
  throw f

def getStore : Run Store :=
  Machine.store <$> get

def setStore (s : Store) : Run Unit :=
  modify fun m => { m with store := s }

def changeStore (f : Store → Except Fault Store) : Run Unit := do
  setStore (← ofExcept (f (← getStore)))

def emit (s : String) : Run Unit :=
  modify fun m => { m with output := m.output ++ s }

def readChar : Run (Option Char) := do
  let m ← get
  match m.input with
  | [] => return none
  | c :: cs =>
    set { m with input := cs }
    return some c

/-- The number of a type that is made from a plain value, or drawn if there is none. -/
def makeNumber (t : CType) (s : Scalar) : Run Number := do
  let m ← get
  let (n, r) ← ofExcept (Number.make t s m.random)
  set { m with random := r }
  return n

def numberOf (t : CType) (v : Value) : Run Number := do
  makeNumber t (← ofExcept v.plain)

end Run

end MiniC

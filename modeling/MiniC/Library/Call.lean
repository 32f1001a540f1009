import MiniC.Format.Basic
import MiniC.Library.Math
import MiniC.Library.Scan

/-!
# Calling library functions

The arguments are plain values, and the result is one. The functions that change the store are given
it as their last argument.
-/

namespace MiniC.Builtin

def print (fmt : Value) (args : List Value) : Run Scalar := do
  match fmt with
  | .scalar (.text fmt) =>
    let out ← Run.ofExcept (Format.format (← Run.getStore) false fmt args)
    Run.emit (← Run.ofExcept (Format.toText out))
    return .int out.length
  | _ => throw .wrongKind

/-- The character with a code; nothing if the code is reserved. -/
def charOfCode (n : Int) : Except Fault (Option Char) :=
  if n < -Int.pow 2 31 ∨ Int.pow 2 31 ≤ n then .error .overflow
  else if n < 0 ∨ 0x110000 ≤ n then .error .outsideDomain
  else .ok (if n.toNat.isValidChar then some (Char.ofNat n.toNat) else none)

/-- Writes one character, and gives back its code, or zero if it cannot be written. -/
def putCharacter (v : Value) : Run Scalar := do
  match v with
  | .scalar s =>
    match s.asInt? with
    | some n =>
      match ← Run.ofExcept (charOfCode n) with
      | some c =>
        Run.emit (String.singleton c)
        return s
      | none => return .int 0
    | none => throw .wrongKind
  | _ => throw .wrongKind

def getCharacter : Run Scalar := do
  match ← Run.readChar with
  | some c => return .int c.toNat
  | none => throw .wrongKind

/-- The absolute value. What is not below zero is left as it is. -/
def absolute : Value → Except Fault Scalar
  | .scalar (.int n) => .ok (.int n.natAbs)
  | .scalar (.real x) => .ok (.real (if x < 0 then -x else x))
  | .scalar (.bool b) => .ok (.bool b)
  | _ => .error .wrongKind

def plainArgument : Value → Except Fault Scalar
  | .scalar s => .ok s
  | _ => .error .wrongKind

def apply (f : Builtin) (args : List Value) : Run Scalar :=
  match f, args with
  | printf, fmt :: args => print fmt args
  | printf, [] => throw .outsideDomain
  | scanf, fmt :: args =>
    match args.getLast? with
    | some target => Scan.scan fmt args.dropLast target
    | none => throw .outsideDomain
  | scanf, [] => throw .outsideDomain
  | putchar, [v] => putCharacter v
  | getchar, [] => getCharacter
  | abs, [v] => Run.ofExcept (absolute v)
  | rand, [] => do
    let m ← get
    let (n, r) := m.random.between 0 Library.randMax
    set { m with random := r }
    return .int n
  | srand, [v] => do
    let s ← Run.ofExcept (plainArgument v)
    modify fun m => { m with random := m.random.seed s }
    return .nothing
  | malloc, [size, .memory] => do Run.allocateDynamic (← Run.ofExcept (plainArgument size))
  | malloc, [_, _] => throw .noSuchPart
  | malloc, _ => throw .outsideDomain
  | free, [address, .memory] => do
    Run.release (← Run.ofExcept (address.address (← Run.getStore)))
    return .nothing
  | free, [_, _] => throw .noSuchPart
  | free, _ => throw .outsideDomain
  | math f, args => Run.ofExcept (f.apply args)
  | _, _ => throw .wrongKind

end MiniC.Builtin

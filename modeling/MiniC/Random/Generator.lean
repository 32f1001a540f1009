import MiniC.Number.Basic

/-!
# The random numbers of a run

A linear congruential generator, so that a run is determined by its seed. An integer counts as a
seed modulo the number of states.
-/

namespace MiniC.Random

def modulus : Nat := Nat.pow 2 31

def congruential (s : Nat) : Nat :=
  (s * 1103515245 + 12345) % modulus

/-- The state for a seed. What does not convert to an integer counts as zero. -/
def stateOf (s : Scalar) : Nat :=
  match s.toInt with
  | .ok n => (n % (modulus : Int)).toNat
  | .error _ => 0

/-- The generator. Its reals are whole and below a thousand. -/
def start : Random where
  state := 0
  draw s := (congruential s, Float.ofNat (congruential s % 1000))
  advance := congruential
  reseed s _ := stateOf s

end MiniC.Random

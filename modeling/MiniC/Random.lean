import MiniC.Scalar

/-!
# Random numbers

Values that were never set are drawn from a source, one draw each. A source is arbitrary: it has a
state, and nothing is known of what is drawn in a state or of how the state changes. What is drawn
lies between the limits that are asked for.
-/

namespace MiniC

structure Random where
  state : Nat
  /-- What is drawn in a state, where an integer is wanted and where a real is. -/
  draw : Nat → Nat × Float
  /-- The state behind a draw. -/
  advance : Nat → Nat
  /-- The state behind a seed. -/
  reseed : Scalar → Nat → Nat

namespace Random

def next (r : Random) : Random :=
  { r with state := r.advance r.state }

def between (lo hi : Int) (r : Random) : Int × Random :=
  (lo + ((r.draw r.state).1 : Int) % (hi - lo + 1), r.next)

/-- A real between limits. The lower one stands for a draw beyond them. -/
def realBetween (lo hi : Int) (r : Random) : Float × Random :=
  let x := (r.draw r.state).2
  (if Float.ofInt lo ≤ x ∧ x ≤ Float.ofInt hi then x else Float.ofInt lo, r.next)

def seed (s : Scalar) (r : Random) : Random :=
  { r with state := r.reseed s r.state }

end Random

end MiniC

import MiniC.Decimal.Shortest
import MiniC.Text.Quoted

/-!
# Plain values

A plain value is what a token carries and what a library function receives and returns: nothing, a
truth value, an integer of any size, a double or a text. Integers and doubles are compared as
numbers, and a truth value counts as zero or one.
-/

namespace MiniC

inductive Scalar where
  | nothing
  | bool (b : Bool)
  | int (n : Int)
  | real (x : Float)
  | text (s : String)
  deriving DecidableEq

namespace Scalar

def render : Scalar → String
  | nothing => "None"
  | bool true => "True"
  | bool false => "False"
  | int n => toString n
  | real x => Decimal.render x
  | text s => s

def quoted : Scalar → String
  | text s => Text.quoted s
  | v => v.render

/-- Only nothing, false, the zeros and the empty text do not count as true. -/
def truth : Scalar → Bool
  | nothing => false
  | bool b => b
  | int n => n != 0
  | real x => !(x == 0)
  | text s => !s.isEmpty

def asInt? : Scalar → Option Int
  | bool b => some (if b then 1 else 0)
  | int n => some n
  | _ => none

end Scalar

end MiniC

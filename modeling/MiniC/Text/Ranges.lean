/-!
# Tables of code-point ranges

A property of characters is stored by the lengths of the ranges of code points that lack it and have
it in turn. Behind the last range no code point has it.
-/

namespace MiniC.Text

/-- Whether a code point has a property, counted from a range on that has it or lacks it. -/
def inRanges (has : Bool) : List Nat → Nat → Bool
  | [], _ => false
  | length :: lengths, point =>
    if point < length then has else inRanges (!has) lengths (point - length)

end MiniC.Text

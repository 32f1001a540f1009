import MiniC.Text.Ranges

/-!
# Blank characters

The characters that separate words: the ASCII controls from tab to carriage return, the four
information separators, the space, and the space, line and paragraph separators of Unicode.
-/

namespace MiniC.Text

def blankTable : List Nat :=
  [133, 1, 26, 1, 5599, 1, 2431, 11, 29, 2, 5, 1, 47, 1, 4000, 1]

def isBlank (c : Char) : Bool :=
  let n := c.toNat
  if n < 128 then n == 32 || (9 ≤ n && n ≤ 13) || (28 ≤ n && n ≤ 31)
  else inRanges false blankTable n

end MiniC.Text

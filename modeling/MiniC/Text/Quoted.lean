import MiniC.Text.Printable

/-!
# Quoted text

The quoted form of a text stands between single quotes, or between double quotes if it holds single
ones and no double ones. Backslashes and the enclosing quote are escaped, as are the characters that
cannot be printed; the ASCII form escapes everything beyond ASCII too.
-/

namespace MiniC.Text

def hexPadded (width n : Nat) : List Char :=
  let ds := Nat.toDigits 16 n
  List.replicate (width - ds.length) '0' ++ ds

/-- The numeric escape of a character, of the shortest of three widths. -/
def numericEscape (c : Char) : List Char :=
  let n := c.toNat
  if n < 0x100 then '\\' :: 'x' :: hexPadded 2 n
  else if n < 0x10000 then '\\' :: 'u' :: hexPadded 4 n
  else '\\' :: 'U' :: hexPadded 8 n

def escapeChar (quote : Char) (plain : Char → Bool) (c : Char) : List Char :=
  if c == '\\' || c == quote then ['\\', c]
  else if c == '\n' then ['\\', 'n']
  else if c == '\t' then ['\\', 't']
  else if c == '\r' then ['\\', 'r']
  else if plain c then [c]
  else numericEscape c

def quoteFor (cs : List Char) : Char :=
  if cs.contains '\'' && !cs.contains '"' then '"' else '\''

def quotedWith (plain : Char → Bool) (s : String) : String :=
  let cs := s.toList
  let quote := quoteFor cs
  String.ofList (quote :: cs.flatMap (escapeChar quote plain) ++ [quote])

def quoted (s : String) : String :=
  quotedWith isPrintable s

def quotedAscii (s : String) : String :=
  quotedWith (fun c => c.toNat < 128 && isPrintable c) s

end MiniC.Text

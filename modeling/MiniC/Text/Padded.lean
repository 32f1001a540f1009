/-!
# Padding

Texts are padded with spaces to a width, and counts with zeros to two digits.
-/

namespace MiniC.Text

def padLeft (width : Nat) (s : String) : String :=
  String.ofList (List.replicate (width - s.length) ' ') ++ s

def padRight (width : Nat) (s : String) : String :=
  s ++ String.ofList (List.replicate (width - s.length) ' ')

def ruler (c : Char) (length : Nat) : String :=
  String.ofList (List.replicate length c)

def twoDigits (n : Nat) : String :=
  if n < 10 then "0" ++ toString n else toString n

end MiniC.Text

import MiniC.Text.Digit

/-!
# The command line

A program is given by the name of its file or by its text. The short options `-f` and `-c` and the
long ones `--file` and `--code` take a value, either as the next argument or joined to the option; a
long option may be cut short as long as it is clear which one is meant. Of several values for one
option the last counts.
-/

namespace MiniC.CommandLine

inductive Switch where
  | help
  | file
  | code
  deriving DecidableEq

inductive Command where
  | usage
  | help
  | file (path : String)
  | code (text : String)
  deriving DecidableEq

inductive Item where
  | value (text : String)
  /-- An option with the value that is joined to it, and whether an equals sign joins them. -/
  | switch (s : Switch) (joined : Option String) (withSign : Bool)
  | unknown
  | divider

def shortName : Switch → List Char
  | .help => ['-', 'h']
  | .file => ['-', 'f']
  | .code => ['-', 'c']

def longName : Switch → List Char
  | .help => ['-', '-', 'h', 'e', 'l', 'p']
  | .file => ['-', '-', 'f', 'i', 'l', 'e']
  | .code => ['-', '-', 'c', 'o', 'd', 'e']

def all : List Switch := [.help, .file, .code]

def named? (cs : List Char) : Option Switch :=
  all.find? fun s => shortName s == cs || longName s == cs

def isDecimal (c : Char) : Bool :=
  (Text.decimalValue? c).isSome

/-- Whether the characters behind a minus sign make a number. A newline at the end does not count.
-/
def isNumber (cs : List Char) : Bool :=
  let cs := if cs.getLast? == some '\n' then cs.dropLast else cs
  let back := (cs.dropWhile isDecimal).drop 1
  let digits (cs : List Char) : Bool := !cs.isEmpty && cs.all isDecimal
  digits cs || ((cs.dropWhile isDecimal).head? == some '.' && digits back)

def splitSign (cs : List Char) : List Char × Option (List Char) :=
  match cs.dropWhile (· != '=') with
  | _ :: back => (cs.takeWhile (· != '='), some back)
  | [] => (cs, none)

/-- How an argument that starts with a minus sign and is no option by itself is understood. Nothing
if it could be several options. -/
def classifyOther (text : String) (cs : List Char) : Option Item :=
  let (front, back) := splitSign cs
  let joined := back.map String.ofList
  match cs with
  | '-' :: '-' :: _ =>
    match all.filter fun s => front.isPrefixOf (longName s) with
    | [s] => some (.switch s joined joined.isSome)
    | [] => some (if text.contains ' ' then .value text else .unknown)
    | _ => none
  | _ =>
    match named? (cs.take 2) with
    | some s => some (.switch s (some (String.ofList (cs.drop 2))) false)
    | none =>
      some (if isNumber (cs.drop 1) || text.contains ' ' then .value text else .unknown)

def classify (text : String) : Option Item :=
  let cs := text.toList
  if cs.head? != some '-' then some (.value text)
  else
    match named? cs with
    | some s => some (.switch s none false)
    | none =>
      if cs.length = 1 then some (.value text)
      else
        match splitSign cs with
        | (front, some back) =>
          match named? front with
          | some s => some (.switch s (some (String.ofList back)) true)
          | none => classifyOther text cs
        | _ => classifyOther text cs

def classifyAll : List String → Option (List Item)
  | [] => some []
  | arg :: args =>
    if arg = "--" then some (.divider :: args.map .value)
    else do return (← classify arg) :: (← classifyAll args)

/-- Whether the letters that follow the short option for help can stand there. They are taken for
further short options. -/
def helpTail (valueFollows : Bool) : List Char → Bool
  | [] => true
  | '-' :: _ => false
  | 'h' :: '=' :: _ => false
  | 'h' :: cs => helpTail valueFollows cs
  | 'f' :: cs => !cs.isEmpty || valueFollows
  | 'c' :: cs => !cs.isEmpty || valueFollows
  | _ :: _ => true

structure Given where
  file : String := ""
  code : String := ""
  surplus : Bool := false

def Given.set (g : Given) (s : Switch) (v : String) : Given :=
  match s with
  | .help => g
  | .file => { g with file := v }
  | .code => { g with code := v }

def Given.command (g : Given) : Command :=
  if g.surplus then .usage
  else if g.file.isEmpty && g.code.isEmpty then .usage
  else if !g.file.isEmpty && !g.code.isEmpty then .usage
  else if g.file.isEmpty then .code g.code
  else .file g.file

/-- Reads the arguments from left to right. Asking for help ends it. -/
def read (g : Given) : List Item → Command
  | [] => g.command
  | .switch .help joined withSign :: items =>
    match joined with
    | none => .help
    | some tail =>
      let valueFollows := match items with
        | .value _ :: _ => true
        | _ => false
      if withSign || tail.isEmpty || !helpTail valueFollows tail.toList then .usage else .help
  | .switch s (some v) _ :: items => read (g.set s v) items
  | .switch s none _ :: .value v :: items => read (g.set s v) items
  | .switch _ none _ :: _ => .usage
  | _ :: items => read { g with surplus := true } items

def parse (args : List String) : Command :=
  match classifyAll args with
  | some items => read {} items
  | none => .usage

end MiniC.CommandLine

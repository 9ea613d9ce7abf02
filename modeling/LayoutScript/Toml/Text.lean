import LayoutScript.Text.Hex

/-! Strings of a TOML text. Each reader takes the characters after the opening quotes and gives
the string and what follows the closing quotes. -/
namespace LayoutScript.Toml

def isSpace (c : Char) : Bool := c == ' ' || c == '\t'

def isLineEnd (c : Char) : Bool := c == '\n' || c == '\r'

/-- Control characters stand nowhere in a TOML text. A carriage return stands only before a line
feed. -/
def hasControl : List Char → Bool
  | [] => false
  | c :: cs =>
    (c.toNat < 0x20 && c != '\t' && c != '\n' && !(c == '\r' && cs.head? == some '\n')) ||
      c.toNat == 0x7f || hasControl cs

def letterEscape? (c : Char) : Option Char :=
  if c = 'b' then some '\x08'
  else if c = 't' then some '\t'
  else if c = 'n' then some '\n'
  else if c = 'f' then some '\x0c'
  else if c = 'r' then some '\r'
  else if c = '"' || c = '\\' then some c
  else none

def spelled? (width : Nat) (cs : List Char) : Option Char :=
  let digits := cs.take width
  let code := Text.hexNumber digits
  if digits.length = width ∧ digits.all Text.isHexDigit ∧ code.isValidChar then some (.ofNat code)
  else none

def escape? : List Char → Option (Char × Nat)
  | [] => none
  | c :: cs =>
    if c = 'u' then (spelled? 4 cs).map fun d => (d, 5)
    else if c = 'U' then (spelled? 8 cs).map fun d => (d, 9)
    else (letterEscape? c).map fun d => (d, 1)

def after (c : Char) (read : Option (List Char × List Char)) : Option (List Char × List Char) :=
  read.map fun (cs, rest) => (c :: cs, rest)

/-- A string on one line; `covered` characters at the front belong to the escape before. -/
def basicFrom : Nat → List Char → Option (List Char × List Char)
  | _, [] => none
  | covered + 1, _ :: cs => basicFrom covered cs
  | 0, c :: cs =>
    if c = '"' then some ([], cs)
    else if isLineEnd c then none
    else if c = '\\' then
      match escape? cs with
      | some (d, width) => after d (basicFrom width cs)
      | none => none
    else after c (basicFrom 0 cs)

def basic (cs : List Char) : Option (List Char × List Char) := basicFrom 0 cs

def plain : List Char → Option (List Char × List Char)
  | [] => none
  | c :: cs =>
    if c = '\'' then some ([], cs)
    else if isLineEnd c then none
    else after c (plain cs)

def dropLineEnd : List Char → List Char
  | '\n' :: cs => cs
  | '\r' :: '\n' :: cs => cs
  | cs => cs

/-- Whether three quotes are at the front. They close a string unless a fourth one follows. -/
def closes (quote : Char) (cs : List Char) : Bool := cs.take 3 == [quote, quote, quote]

def spareQuotes : Nat := 2

/-- A string on several lines. A backslash at the end of a line joins it with the next text;
`spare` more quotes may stand before the closing ones, one more after an escaped backslash. -/
def basicLinesFrom : Nat → Nat → List Char → Option (List Char × List Char)
  | _, _, [] => none
  | covered + 1, spare, _ :: cs => basicLinesFrom covered spare cs
  | 0, spare, c :: cs =>
    if c = '"' then
      if closes '"' (c :: cs) then
        if closes '"' cs then
          if spare = 0 then none else after c (basicLinesFrom 0 (spare - 1) cs)
        else some ([], cs.drop 2)
      else after c (basicLinesFrom 0 spare cs)
    else if c = '\\' then
      let gap := cs.takeWhile fun d => isSpace d || isLineEnd d
      if gap.contains '\n' then basicLinesFrom gap.length spareQuotes cs
      else
        match escape? cs with
        | some (d, width) =>
          let spare := if cs.head? = some '\\' then spareQuotes + 1 else spareQuotes
          after d (basicLinesFrom width spare cs)
        | none => none
    else after c (basicLinesFrom 0 spareQuotes cs)

def basicLines (cs : List Char) : Option (List Char × List Char) :=
  basicLinesFrom 0 spareQuotes (dropLineEnd cs)

def plainLinesFrom : Nat → List Char → Option (List Char × List Char)
  | _, [] => none
  | spare, c :: cs =>
    if c = '\'' then
      if closes '\'' (c :: cs) then
        if closes '\'' cs then
          if spare = 0 then none else after c (plainLinesFrom (spare - 1) cs)
        else some ([], cs.drop 2)
      else after c (plainLinesFrom spare cs)
    else after c (plainLinesFrom spareQuotes cs)

def plainLines (cs : List Char) : Option (List Char × List Char) :=
  plainLinesFrom spareQuotes (dropLineEnd cs)

def lineString? : List Char → Option (List Char × List Char)
  | '"' :: cs => basic cs
  | '\'' :: cs => plain cs
  | _ => none

def string? : List Char → Option (List Char × List Char)
  | '"' :: '"' :: '"' :: cs => basicLines cs
  | '\'' :: '\'' :: '\'' :: cs => plainLines cs
  | cs => lineString? cs

def writeEscape (c : Char) : List Char :=
  if c = '"' || c = '\\' then ['\\', c]
  else if c = '\x08' then ['\\', 'b']
  else if c = '\t' then ['\\', 't']
  else if c = '\n' then ['\\', 'n']
  else if c = '\x0c' then ['\\', 'f']
  else if c = '\r' then ['\\', 'r']
  else if c.toNat < 0x20 || c.toNat = 0x7f then '\\' :: 'u' :: Text.hex 4 c.toNat
  else [c]

def write (cs : List Char) : List Char := '"' :: cs.flatMap writeEscape ++ ['"']

end LayoutScript.Toml

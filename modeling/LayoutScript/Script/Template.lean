import LayoutScript.Script.Scope
import LayoutScript.Text.Blank
import LayoutScript.Token.Scan

/-! Template literals. A string with slots keeps its text, and each slot holds an expression
with its instance variables resolved. -/
namespace LayoutScript.Script.Template

inductive Part where
  | text (cs : List Char)
  | slot (cs : List Char)
  deriving DecidableEq, Repr

def closing? : Nat → List Char → Option (List Char × List Char)
  | _, [] => none
  | depth, c :: cs =>
    let beyond (rest : Option (List Char × List Char)) : Option (List Char × List Char) :=
      rest.map fun (inside, after) => (c :: inside, after)
    if c = '{' then beyond (closing? (depth + 1) cs)
    else if c = '}' then
      match depth with
      | 0 => some ([], cs)
      | depth + 1 => beyond (closing? depth cs)
    else beyond (closing? depth cs)

/-- What stands before, in and after the first slot. If that one never closes there is none. -/
def nextSlot? : List Char → Option (List Char × List Char × List Char)
  | '#' :: '{' :: cs => (closing? 0 cs).map fun (inside, after) => ([], inside, after)
  | c :: cs => (nextSlot? cs).map fun (before, inside, after) => (c :: before, inside, after)
  | [] => none

/-- At most `n` slots, then text. A blank slot is text as it stands. -/
def partsWithin : Nat → List Char → List Part
  | 0, cs => [.text cs]
  | n + 1, cs =>
    match nextSlot? cs with
    | none => [.text cs]
    | some (before, inside, after) =>
      if Text.allBlank inside then
        .text (before ++ '#' :: '{' :: inside ++ ['}']) :: partsWithin n after
      else .text before :: .slot (Text.trim inside) :: partsWithin n after

/-- Each slot takes three characters or more, so the length bounds their number. -/
def parts (cs : List Char) : List Part := partsWithin cs.length cs

def escapeText : List Char → List Char
  | '$' :: '{' :: cs => '\\' :: '$' :: '{' :: escapeText cs
  | c :: cs => if c = '\\' || c = '\x60' then '\\' :: c :: escapeText cs else c :: escapeText cs
  | [] => []

/-- Replaces every name after a sigil, and the sigil. The first `covered` characters belong to a
name that has been replaced. -/
def mapSigilsFrom (f : String → String) : Nat → List Char → List Char
  | _, [] => []
  | covered + 1, _ :: cs => mapSigilsFrom f covered cs
  | 0, c :: cs =>
    if c = '@' then
      match leadingName cs with
      | [] => c :: mapSigilsFrom f 0 cs
      | name => (f (String.ofList name)).toList ++ mapSigilsFrom f name.length cs
    else c :: mapSigilsFrom f 0 cs

def mapSigils (f : String → String) (cs : List Char) : List Char := mapSigilsFrom f 0 cs

def stripSigils (s : String) : String := String.ofList (mapSigils id s.toList)

def Part.emit (scope : Scope) : Part → List Char
  | .text cs => escapeText cs
  | .slot cs => '$' :: '{' :: mapSigils scope.instanceVar cs ++ ['}']

def emit (scope : Scope) (raw : String) : String :=
  String.ofList ('\x60' :: (parts raw.toList).flatMap (Part.emit scope) ++ ['\x60'])

end LayoutScript.Script.Template

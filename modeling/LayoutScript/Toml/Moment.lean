import LayoutScript.Text.Blank
import LayoutScript.Text.Hex
import LayoutScript.Toml.Number

/-! Dates and times of a TOML text. -/
namespace LayoutScript.Toml

def fixed? (width : Nat) (cs : List Char) : Option (Nat × List Char) :=
  let digits := cs.take width
  if digits.length = width ∧ digits.all Text.isDigit then
    some (digitsValue 10 digits, cs.drop width)
  else none

def expect? (c : Char) : List Char → Option (List Char)
  | d :: cs => if d = c then some cs else none
  | [] => none

def isLeapYear (year : Nat) : Bool := year % 4 = 0 && (year % 100 ≠ 0 || year % 400 = 0)

def daysIn (year month : Nat) : Nat :=
  if month = 2 then (if isLeapYear year then 29 else 28)
  else if [4, 6, 9, 11].contains month then 30
  else 31

def date? (cs : List Char) : Option (List Char) := do
  let (year, cs) ← fixed? 4 cs
  let (month, cs) ← fixed? 2 (← expect? '-' cs)
  let (day, cs) ← fixed? 2 (← expect? '-' cs)
  guard (1 ≤ month ∧ month ≤ 12 ∧ 1 ≤ day ∧ day ≤ daysIn year month)
  return cs

def time? (cs : List Char) : Option (List Char) := do
  let (hour, cs) ← fixed? 2 cs
  let (minute, cs) ← fixed? 2 (← expect? ':' cs)
  let (second, cs) ← fixed? 2 (← expect? ':' cs)
  guard (hour < 24 ∧ minute < 60 ∧ second < 60)
  match cs with
  | '.' :: digits =>
    let rest := digits.dropWhile Text.isDigit
    return if rest.length < digits.length then rest else cs
  | _ => return cs

def offset? : List Char → Option (List Char)
  | [] => none
  | c :: cs =>
    if c = 'Z' then some cs
    else if c = '+' || c = '-' then do
      let (hours, cs) ← fixed? 2 cs
      let (minutes, cs) ← fixed? 2 (← expect? ':' cs)
      guard (hours ≤ 24 ∧ minutes ≤ 60)
      return cs
    else none

def normalMark (c : Char) : Char :=
  if c = 't' || c = ' ' then 'T' else if c = 'z' then 'Z' else c

def isMoment (cs : List Char) : Bool :=
  let cs := cs.map normalMark
  let dateTime? := do time? (← expect? 'T' (← date? cs))
  date? cs == some [] || time? cs == some [] || dateTime? == some [] ||
    (dateTime?.bind offset?) == some []

end LayoutScript.Toml

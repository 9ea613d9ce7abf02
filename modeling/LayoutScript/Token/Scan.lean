import LayoutScript.Text.Blank
import LayoutScript.Text.Hex
import LayoutScript.Token
import LayoutScript.Token.Error

/-! The token at the front of a text. Scanning says how many characters the token takes, so that
its columns and what follows it are known. -/
namespace LayoutScript

/-- Words are ASCII only. -/
def isWordStart (c : Char) : Bool :=
  ('A' ≤ c && c ≤ 'Z') || ('a' ≤ c && c ≤ 'z') || c == '_'

def isWordChar (c : Char) : Bool := Text.isDigit c || isWordStart c

def isWord (s : String) : Bool :=
  match s.toList with
  | [] => false
  | c :: cs => isWordStart c && cs.all isWordChar

def leadingName (cs : List Char) : List Char :=
  match cs with
  | [] => []
  | c :: _ => if isWordStart c then cs.takeWhile isWordChar else []

def opensSlot : List Char → Bool
  | '#' :: '{' :: _ => true
  | _ :: cs => opensSlot cs
  | [] => false

def beforeBraces? : List Char → Option (List Char)
  | '}' :: '}' :: _ => some []
  | c :: cs => (beforeBraces? cs).map (c :: ·)
  | [] => none

def beforeQuote? : List Char → Option (List Char)
  | [] => none
  | c :: cs => if c = '"' then some [] else (beforeQuote? cs).map (c :: ·)

/-- The inner text of an interpolation whose first brace has been read. The closing braces must
stand on the same line, else the braces are plain symbols. -/
def interpolation? : List Char → Option (List Char)
  | '{' :: cs => beforeBraces? cs
  | _ => none

def Punct.scan? (c : Char) (cs : List Char) : Option (Punct × Nat) :=
  match cs with
  | d :: _ =>
    match Punct.ofPair? c d with
    | some p => some (p, 2)
    | none => (Punct.ofChar? c).map (·, 1)
  | [] => (Punct.ofChar? c).map (·, 1)

/-- Digits, and a fraction if a digit follows the point. -/
def leadingNumber (cs : List Char) : List Char :=
  let whole := cs.takeWhile Text.isDigit
  match cs.dropWhile Text.isDigit with
  | '.' :: d :: rest =>
    if Text.isDigit d then whole ++ '.' :: (d :: rest).takeWhile Text.isDigit else whole
  | _ => whole

namespace Lexeme

def ofWord (word : List Char) : Lexeme :=
  let s := String.ofList word
  match Keyword.ofText? s with
  | some k => .keyword k
  | none => .identifier s

def ofString (raw : List Char) : Lexeme :=
  if opensSlot raw then .template (String.ofList raw) else .string (String.ofList raw)

def scan (c : Char) (cs : List Char) : Except LexCause (Lexeme × Nat) :=
  match if c = '{' then interpolation? cs else none with
  | some inner => .ok (.interpolation (String.ofList (Text.trim inner)), inner.length + 4)
  | none =>
    if c = '"' then
      match beforeQuote? cs with
      | some raw => .ok (ofString raw, raw.length + 2)
      | none => .error .unterminatedString
    else
      match Punct.scan? c cs with
      | some (p, width) => .ok (.punct p, width)
      | none =>
        if c = '@' then
          match leadingName cs with
          | [] => .error (.missingName cs.head?)
          | name => .ok (.instanceVar (String.ofList name), name.length + 1)
        else if isWordStart c then
          let word := leadingName (c :: cs)
          .ok (ofWord word, word.length)
        else if Text.isDigit c then
          let number := leadingNumber (c :: cs)
          .ok (.number (String.ofList number), number.length)
        else .error (.unexpected c)

end Lexeme

end LayoutScript

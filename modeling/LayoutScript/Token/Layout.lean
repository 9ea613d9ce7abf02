import LayoutScript.Stack
import LayoutScript.Text.Lines
import LayoutScript.Token.Scan

/-! Tokens of a whole text. Every line ends in a newline token, changes of indentation become
indent and dedent tokens, and the open levels close before the final eof. -/
namespace LayoutScript

abbrev Levels := Stack Nat

namespace Levels

def initial : Levels := .ofList [0]

def top (levels : Levels) : Nat := levels.peek?.getD 0

/-- Moves to a line of the given width: the layout tokens in front of it and the levels after
it, or nothing if the width closes levels without meeting one that is open. -/
def move? (levels : Levels) (width : Nat) : Option (List Lexeme × Levels) :=
  if levels.top < width then some ([.indent], levels.push width)
  else
    let kept : Levels := ⟨levels.elements.dropWhile (width < ·)⟩
    if kept.top = width then some (.replicate (levels.size - kept.size) .dedent, kept) else none

end Levels

/-- Blank lines and comments hold no tokens and leave the indentation alone. -/
def isSkipped (line : List Char) : Bool :=
  match Text.trimLeft line with
  | [] => true
  | c :: _ => c == '#'

namespace Token

/-- The tokens from `column` on, and the newline token at the end of the line. The first
`covered` characters belong to the token before. -/
def ofChars (source : String) (line : Nat) : Nat → Nat → List Char → Except LexError (List Token)
  | column, _, [] => .ok [⟨.newline, .onLine source line column column⟩]
  | column, covered + 1, _ :: cs => ofChars source line (column + 1) covered cs
  | column, 0, c :: cs =>
    if Text.isBlank c then ofChars source line (column + 1) 0 cs
    else
      match Lexeme.scan c cs with
      | .error cause => .error ⟨.ofNat line, .ofNat column, cause, source⟩
      | .ok (lexeme, width) =>
        match ofChars source line (column + 1) (width - 1) cs with
        | .error e => .error e
        | .ok rest => .ok (⟨lexeme, .ofWidth source line column width⟩ :: rest)

def ofLine (source : String) (number : Nat) (levels : Levels) (line : List Char) :
    Except LexError (List Token × Levels) :=
  if isSkipped line then .ok ([⟨.newline, .onLine source number 1 1⟩], levels)
  else
    let chars := Text.dropReturn line
    let width := (chars.takeWhile Text.isBlank).length
    match levels.move? width with
    | none => .error ⟨.ofNat number, .ofNat (width + 1), .indentation width, source⟩
    | some (layout, levels) =>
      match ofChars source number 1 0 chars with
      | .error e => .error e
      | .ok tokens =>
        .ok (layout.map (⟨·, .onLine source number 1 (width + 1)⟩) ++ tokens, levels)

def ofLines (source : String) : Nat → Levels → List (List Char) → Except LexError (List Token)
  | number, levels, [] =>
    let last := Span.onLine source (number - 1) 1 1
    .ok (.replicate (levels.size - 1) ⟨.dedent, last⟩ ++ [⟨.eof, last⟩])
  | number, levels, line :: lines =>
    match ofLine source number levels line with
    | .error e => .error e
    | .ok (tokens, levels) =>
      match ofLines source (number + 1) levels lines with
      | .error e => .error e
      | .ok rest => .ok (tokens ++ rest)

def ofText (source : String) (code : List Char) : Except LexError (List Token) :=
  ofLines source 1 .initial (Text.lines code)

end Token

end LayoutScript

import LayoutScript.Syntax.Outline
import LayoutScript.Token

/-! Why tokens are no program. -/
namespace LayoutScript

inductive SyntaxCause where
  | expectedKind (kind : TokenKind)
  | expectedKeyword (k : Keyword)
  | expectedPunct (p : Punct)
  | unexpectedKeyword (k : Keyword)
  | unexpectedToken
  | unexpectedInExpression
  | nestedComponent
  | notAssignable (kind : NodeKind)
  | duplicateRender (component : String)
  | duplicateStyle (component : String)
  | expectedMember
  /-- Nothing is wrong with the token, but the parser has not come to an end within the passes that
  the tokens left allow. -/
  | exhausted
  deriving DecidableEq, Repr

def SyntaxCause.isReported : SyntaxCause → Bool
  | .exhausted => false
  | _ => true

structure SyntaxError where
  cause : SyntaxCause
  actual : Token
  deriving DecidableEq, Repr

namespace SyntaxError

def expected? (e : SyntaxError) : Option TokenKind :=
  match e.cause with
  | .expectedKind kind => some kind
  | .expectedKeyword _ => some .keyword
  | .expectedPunct p => some (.ofPunct p)
  | _ => none

def expectedValue (e : SyntaxError) : String :=
  match e.cause with
  | .expectedKeyword k => k.text
  | .expectedPunct p => p.text
  | _ => ""

def note (e : SyntaxError) : String :=
  match e.cause with
  | .expectedKind _ | .expectedKeyword _ | .expectedPunct _ => ""
  | .unexpectedKeyword k => "unexpected keyword \"" ++ k.text ++ "\""
  | .unexpectedToken => "unexpected " ++ e.actual.describe
  | .unexpectedInExpression => "unexpected " ++ e.actual.describe ++ " in expression"
  | .nestedComponent => "component declarations are only allowed at top level"
  | .notAssignable kind => "cannot assign to " ++ kind.name
  | .duplicateRender component => "duplicate render block in component " ++ component
  | .duplicateStyle component => "duplicate style block in component " ++ component
  | .expectedMember =>
    "expected props, state, def, render or style but got " ++ e.actual.describe
  | .exhausted => "no end of the text within reach"

def message (e : SyntaxError) : String :=
  let place := " at line " ++ toString e.actual.line.toNat
  match e.expected? with
  | none => e.note ++ place
  | some kind =>
    let value := if e.expectedValue = "" then "" else " \"" ++ e.expectedValue ++ "\""
    "expected " ++ kind.name ++ value ++ " but got " ++ e.actual.describe ++ place

def span (e : SyntaxError) : Span := e.actual.span

end SyntaxError

end LayoutScript

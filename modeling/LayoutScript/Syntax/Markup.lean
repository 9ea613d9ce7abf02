import LayoutScript.Syntax.Expression

/-! Render and style blocks. -/
namespace LayoutScript

open LayoutScript.Parser

structure Inline where
  content : List Markup
  words : List String
  span : Span

namespace Inline

def empty : Inline := ⟨[], [], ⟨0, 0, 0, 0, ""⟩⟩

def flush (s : Inline) : Inline :=
  if s.words.isEmpty then s
  else { s with content := s.content ++ [.text (" ".intercalate s.words) s.span], words := [] }

def addInterpolation (s : Inline) (raw : String) (span : Span) : Inline :=
  { s.flush with content := s.flush.content ++ [.interpolation raw span] }

def addWord (s : Inline) (t : Token) : Inline :=
  { s with
    words := s.words ++ [t.text]
    span := if s.words.isEmpty then t.span else s.span.join t.span }

def parseNext (s : Inline) : Parser (Inline × Bool) := do
  let t ← current
  match t.lexeme with
  | .newline | .eof => return (s, false)
  | .interpolation raw =>
    advance
    return (s.addInterpolation raw t.span, true)
  | _ =>
    advance
    return (s.addWord t, true)

end Inline

/-- The rest of the line: interpolations stand alone, and the other tokens of a run make one text,
with a blank between them. -/
def Markup.parseInline : Parser (List Markup) :=
  return (← loop Inline.parseNext .empty).flush.content

namespace Attribute

def parseName : Parser String := do
  let name ← dashedName
  if (← seesPunct .colon) && (← adjacent) then
    advance
    return name ++ ":" ++ (← dashedName)
  else return name

def parse : Parser Attribute := do
  let name ← parseName
  expectPunct .equal
  let value ← Expr.parse
  let _ ← acceptPunct .comma
  return ⟨name, value⟩

def parseNext (attributes : List Attribute) : Parser (List Attribute × Bool) := do
  if ← seesPunct .closeParen then return (attributes, false)
  return (attributes ++ [← parse], true)

def parseAll : Parser (List Attribute) := do
  expectPunct .openParen
  let attributes ← loop parseNext []
  expectPunct .closeParen
  return attributes

end Attribute

namespace ElementOf

def nextClass (classes : List String) : Parser (List String × Bool) := do
  if (← seesPunct .dot) && (← adjacent) then
    advance
    return (classes ++ [← dashedName], true)
  else return (classes, false)

def parseClasses : Parser (List String) := loop nextClass []

/-- A tag with its classes and attributes, the rest of its line, and an indented block of
elements. The span ends with the line of the tag. -/
def parseWith (element : Parser Element) : Parser Element := do
  let start ← here
  let tag ← expectIdentifier
  let classes ← parseClasses
  let attributes ←
    if (← seesPunct .openParen) && (← adjacent) then Attribute.parseAll else pure []
  let content ← Markup.parseInline
  let span := start.join (← prevSpan)
  let children ← indented element
  return ⟨tag, " ".intercalate classes, attributes, content ++ children.map .element, span⟩

def parseWithin : Nat → Parser Element
  | 0 => fail .exhausted
  | n + 1 => parseWith (parseWithin n)

def parse : Parser Element := bounded parseWithin

end ElementOf

def RenderBlock.parse : Parser RenderBlock := do
  let start ← here
  expectKeyword .render
  let elements ← indented ElementOf.parse
  return ⟨elements, ← closeBlock start⟩

def StyleDeclaration.parse : Parser StyleDeclaration := do
  let property ← dashedName
  expectPunct .colon
  let value ← Expr.parse
  expectNewline
  return ⟨property, value⟩

def StyleRule.parse : Parser StyleRule := do
  let _ ← acceptPunct .dot
  let selector ← dashedName
  return ⟨selector, ← indented StyleDeclaration.parse⟩

def StyleBlock.parse : Parser StyleBlock := do
  let start ← here
  expectKeyword .style
  let rules ← indented StyleRule.parse
  return ⟨rules, ← closeBlock start⟩

end LayoutScript

import LayoutScript.Span
import LayoutScript.Token.Keyword
import LayoutScript.Token.Punct

/-! Tokens: what a piece of source text says and where it stands. -/
namespace LayoutScript

/-- The content of a token. Texts are as written, without quotes, braces and sigils. -/
inductive Lexeme where
  | keyword (k : Keyword)
  | identifier (name : String)
  | string (raw : String)
  | template (raw : String)
  | number (raw : String)
  | instanceVar (name : String)
  | punct (p : Punct)
  | interpolation (raw : String)
  | indent
  | dedent
  | newline
  | eof
  deriving DecidableEq, Repr

inductive TokenKind where
  | keyword | identifier | string | template | number | instanceVar | operator | symbol
  | interpolation | indent | dedent | newline | eof
  deriving DecidableEq, Repr

namespace TokenKind

def name : TokenKind → String
  | .keyword => "keyword"
  | .identifier => "identifier"
  | .string => "string"
  | .template => "interpolated_string"
  | .number => "number"
  | .instanceVar => "instance_var"
  | .operator => "operator"
  | .symbol => "symbol"
  | .interpolation => "jsx_interpolation"
  | .indent => "indent"
  | .dedent => "dedent"
  | .newline => "newline"
  | .eof => "eof"

def all : List TokenKind :=
  [.keyword, .identifier, .string, .template, .number, .instanceVar, .operator, .symbol,
    .interpolation, .indent, .dedent, .newline, .eof]

def nameOfCode (code : Nat) : String :=
  match code with
  | 0 => "unknown"
  | n + 1 => (all[n]?.map name).getD "unknown"

def ofPunct (p : Punct) : TokenKind := if p.isOperator then .operator else .symbol

/-- The kind of a literal lexeme; everything that is not reserved counts as an identifier. -/
def ofText (s : String) : TokenKind :=
  if (Keyword.ofText? s).isSome then .keyword
  else
    match Punct.ofText? s with
    | some p => ofPunct p
    | none => .identifier

def isLayout : TokenKind → Bool
  | .indent | .dedent | .newline | .eof => true
  | _ => false

end TokenKind

namespace Lexeme

def kind : Lexeme → TokenKind
  | .keyword _ => .keyword
  | .identifier _ => .identifier
  | .string _ => .string
  | .template _ => .template
  | .number _ => .number
  | .instanceVar _ => .instanceVar
  | .punct p => .ofPunct p
  | .interpolation _ => .interpolation
  | .indent => .indent
  | .dedent => .dedent
  | .newline => .newline
  | .eof => .eof

def value : Lexeme → String
  | .keyword k => k.text
  | .identifier name => name
  | .string raw | .template raw | .number raw | .interpolation raw => raw
  | .instanceVar name => "@" ++ name
  | .punct p => p.text
  | .indent | .dedent | .newline | .eof => ""

/-- The source form. Layout has none and shows a tag. -/
def text : Lexeme → String
  | .string raw | .template raw => "\"" ++ raw ++ "\""
  | .interpolation raw => "\x7b\x7b" ++ raw ++ "\x7d\x7d"
  | .indent => "<INDENT>"
  | .dedent => "<DEDENT>"
  | .newline => "<NEWLINE>"
  | .eof => "<EOF>"
  | lexeme => lexeme.value

def literal : Lexeme → String
  | .keyword k => k.text
  | .punct p => p.text
  | _ => ""

def describe (lexeme : Lexeme) : String :=
  if lexeme.value = "" then lexeme.kind.name
  else lexeme.kind.name ++ " \"" ++ lexeme.value ++ "\""

end Lexeme

structure Token where
  lexeme : Lexeme
  span : Span
  deriving DecidableEq, Repr

namespace Token

def kind (t : Token) : TokenKind := t.lexeme.kind

def text (t : Token) : String := t.lexeme.text

def describe (t : Token) : String := t.lexeme.describe

def line (t : Token) : UInt32 := t.span.lineStart

def follows (t previous : Token) : Bool :=
  previous.span.lineEnd == t.span.lineStart && previous.span.columnEnd + 1 == t.span.columnStart

end Token

end LayoutScript

import LayoutScript.Span

/-! Why a text has no tokens. -/
namespace LayoutScript

inductive LexCause where
  | unexpected (c : Char)
  | unterminatedString
  /-- An `@` without a name; `next` is the character in its place. -/
  | missingName (next : Option Char)
  /-- A line less indented than the one before that returns to no open level. -/
  | indentation (width : Nat)
  deriving DecidableEq, Repr

namespace LexCause

def message : LexCause → String
  | .unexpected c => "unexpected character '" ++ c.toString ++ "'"
  | .unterminatedString => "unterminated string"
  | .missingName _ => "expected identifier after '@'"
  | .indentation width =>
    "indentation error: width " ++ toString width ++ " matches no enclosing level"

def char? : LexCause → Option Char
  | .unexpected c => some c
  | .missingName next => next
  | .unterminatedString | .indentation _ => none

end LexCause

structure LexError where
  line : UInt32
  column : UInt32
  cause : LexCause
  source : String
  deriving DecidableEq, Repr

namespace LexError

def message (e : LexError) : String :=
  e.cause.message ++ " at line " ++ toString e.line.toNat ++ ", column " ++
    toString e.column.toNat

def span (e : LexError) : Span := ⟨e.line, e.column, e.line, e.column, e.source⟩

end LexError

end LayoutScript

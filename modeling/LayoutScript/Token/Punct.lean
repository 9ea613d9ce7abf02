/-! Operators and symbols of one or two characters. -/
namespace LayoutScript

inductive Punct where
  | equalEqual | notEqual | lessEqual | greaterEqual | andAnd | orOr | less | greater
  | openParen | closeParen | colon | dot | equal | openBrace | closeBrace
  | openBracket | closeBracket | comma | plus | minus | star | slash | bang | question
  | semicolon
  deriving DecidableEq, Repr

namespace Punct

def text : Punct → String
  | .equalEqual => "=="
  | .notEqual => "!="
  | .lessEqual => "<="
  | .greaterEqual => ">="
  | .andAnd => "&&"
  | .orOr => "||"
  | .less => "<"
  | .greater => ">"
  | .openParen => "("
  | .closeParen => ")"
  | .colon => ":"
  | .dot => "."
  | .equal => "="
  | .openBrace => "\x7b"
  | .closeBrace => "\x7d"
  | .openBracket => "["
  | .closeBracket => "]"
  | .comma => ","
  | .plus => "+"
  | .minus => "-"
  | .star => "*"
  | .slash => "/"
  | .bang => "!"
  | .question => "?"
  | .semicolon => ";"

def all : List Punct :=
  [.equalEqual, .notEqual, .lessEqual, .greaterEqual, .andAnd, .orOr, .less, .greater,
    .openParen, .closeParen, .colon, .dot, .equal, .openBrace, .closeBrace,
    .openBracket, .closeBracket, .comma, .plus, .minus, .star, .slash, .bang, .question,
    .semicolon]

@[simp] theorem mem_all (p : Punct) : p ∈ all := by cases p <;> decide

def ofText? (s : String) : Option Punct := all.find? fun p => p.text == s

theorem ofText?_text (p : Punct) : ofText? p.text = some p := by cases p <;> decide

def isOperator : Punct → Bool
  | .equalEqual | .notEqual | .lessEqual | .greaterEqual | .andAnd | .orOr | .less | .greater =>
    true
  | _ => false

def isBinary (p : Punct) : Bool :=
  match p with
  | .plus | .minus | .star | .slash => true
  | _ => p.isOperator

def ofPair? : Char → Char → Option Punct
  | '=', '=' => some .equalEqual
  | '!', '=' => some .notEqual
  | '<', '=' => some .lessEqual
  | '>', '=' => some .greaterEqual
  | '&', '&' => some .andAnd
  | '|', '|' => some .orOr
  | _, _ => none

def ofChar? : Char → Option Punct
  | '<' => some .less
  | '>' => some .greater
  | '(' => some .openParen
  | ')' => some .closeParen
  | ':' => some .colon
  | '.' => some .dot
  | '=' => some .equal
  | '{' => some .openBrace
  | '}' => some .closeBrace
  | '[' => some .openBracket
  | ']' => some .closeBracket
  | ',' => some .comma
  | '+' => some .plus
  | '-' => some .minus
  | '*' => some .star
  | '/' => some .slash
  | '!' => some .bang
  | '?' => some .question
  | ';' => some .semicolon
  | _ => none

end Punct

end LayoutScript

import LayoutScript.Syntax.Error

/-! Parsers: the steps that they are made of, how these run over tokens, and the tests and loops
that the grammar is written in. Positions are 32-bit words, so a run gets through at most
`UInt32.size` tokens. A loop takes at most one pass for each token that is left, and one more to
leave; up to that many tokens it needs no other bound. -/
namespace LayoutScript

structure View where
  /-- The token before, or the current one at the very start. -/
  prev : Token
  cur : Token
  /-- The token after the current one, or the current one if it is the last. -/
  next : Token
  left : Nat

/-- Parsers look, step over a token, fail, and go on with what they have found. -/
inductive Parser : Type → Type 1 where
  | give {α : Type} (a : α) : Parser α
  | andThen {α β : Type} (p : Parser α) (f : α → Parser β) : Parser β
  | look : Parser View
  | advance : Parser Unit
  | fail {α : Type} (cause : SyntaxCause) : Parser α

instance : Monad Parser where
  pure := .give
  bind := .andThen

structure Tape where
  tokens : Array Token
  pos : UInt32
  inside : pos.toNat < tokens.size

namespace Tape

def start? (tokens : List Token) : Option Tape :=
  if h : 0 < tokens.toArray.size then some ⟨tokens.toArray, 0, h⟩ else none

/-- The position of the last token as a word. Of more than `UInt32.size` tokens it is that of an
earlier one, and those after it are out of reach. -/
def last (t : Tape) : UInt32 := .ofNat (t.tokens.size - 1)

theorem toNat_last_lt (t : Tape) : t.last.toNat < t.tokens.size := by
  have hmod := Nat.mod_le (t.tokens.size - 1) UInt32.size
  have := t.inside
  rw [last, UInt32.toNat_ofNat']
  omega

theorem min_last_lt (t : Tape) (pos : UInt32) : (min pos t.last).toNat < t.tokens.size := by
  show (if pos ≤ t.last then pos else t.last).toNat < t.tokens.size
  split
  · next h => exact Nat.lt_of_le_of_lt (UInt32.le_iff_toNat_le.1 h) t.toNat_last_lt
  · exact t.toNat_last_lt

def view (t : Tape) : View :=
  have := t.inside
  { prev := t.tokens[t.pos.toNat - 1]
    cur := t.tokens[t.pos.toNat]
    next := t.tokens[min (t.pos.toNat + 1) (t.tokens.size - 1)]
    left := t.last.toNat - t.pos.toNat }

/-- The last position is not passed, but the word after it may be zero. -/
def advance (t : Tape) : Tape where
  tokens := t.tokens
  pos := min (t.pos + 1) t.last
  inside := t.min_last_lt _

end Tape

namespace Parser

def exec {α : Type} : Parser α → Tape → Except SyntaxError (α × Tape)
  | .give a, t => .ok (a, t)
  | .andThen p f, t =>
    match p.exec t with
    | .error e => .error e
    | .ok (a, t) => (f a).exec t
  | .look, t => .ok (t.view, t)
  | .advance, t => .ok ((), t.advance)
  | .fail cause, t => .error ⟨cause, t.view.cur⟩

def current : Parser Token := return (← look).cur

def here : Parser Span := return (← look).cur.span

def prevSpan : Parser Span := return (← look).prev.span

def peek : Parser Token := return (← look).next

def sees (lexeme : Lexeme) : Parser Bool := return (← current).lexeme == lexeme

def seesPunct (p : Punct) : Parser Bool := sees (.punct p)

def adjacent : Parser Bool := do
  let v ← look
  return v.cur.follows v.prev

def accept (lexeme : Lexeme) : Parser Bool := do
  if ← sees lexeme then
    advance
    return true
  else return false

def acceptPunct (p : Punct) : Parser Bool := accept (.punct p)

def expectPunct (p : Punct) : Parser Unit := do
  if !(← acceptPunct p) then fail (.expectedPunct p)

def expectKeyword (k : Keyword) : Parser Unit := do
  if !(← accept (.keyword k)) then fail (.expectedKeyword k)

def expectIdentifier : Parser String := do
  match (← current).lexeme with
  | .identifier name =>
    advance
    return name
  | _ => fail (.expectedKind .identifier)

/-- Names of properties and attributes may be reserved words. -/
def expectName : Parser String := do
  match (← current).lexeme with
  | .identifier name =>
    advance
    return name
  | .keyword k =>
    advance
    return k.text
  | _ => fail (.expectedKind .identifier)

/-- Ends a line; the end of the text ends the last one. -/
def expectNewline : Parser Unit := do
  if ← sees .eof then return
  if !(← accept .newline) then fail (.expectedKind .newline)

def expectDedent : Parser Unit := do
  if !(← accept .dedent) then fail (.expectedKind .dedent)

def loopWithin (step : σ → Parser (σ × Bool)) : Nat → σ → Parser σ
  | 0, _ => fail .exhausted
  | n + 1, s => do
    let (s, more) ← step s
    if more then loopWithin step n s else return s

/-- Gives a recursive parser as many levels as there are tokens to read. -/
def bounded (p : Nat → Parser α) : Parser α := do p ((← look).left + 1)

def loop (step : σ → Parser (σ × Bool)) (init : σ) : Parser σ :=
  bounded fun n => loopWithin step n init

def skipNext (_ : Unit) : Parser (Unit × Bool) := return ((), ← accept .newline)

def skipNewlines : Parser Unit := loop skipNext ()

def nextItem (close : Punct) (item : Parser α) (items : List α) : Parser (List α × Bool) := do
  if ← seesPunct close then return (items, false)
  let x ← item
  return (items ++ [x], ← acceptPunct .comma)

def commaSeparated (close : Punct) (item : Parser α) : Parser (List α) := do
  let items ← loop (nextItem close item) []
  expectPunct close
  return items

def nextEntry (entry : σ → Parser σ) (s : σ) : Parser (σ × Bool) := do
  skipNewlines
  if ← accept .dedent then return (s, false)
  if ← sees .eof then fail (.expectedKind .dedent)
  return (← entry s, true)

/-- The lines of an indented block, folded in order. A line that is not indented opens no block;
what closes the block is left to the caller. -/
def indentedFold (init : σ) (entry : σ → Parser σ) : Parser σ := do
  expectNewline
  skipNewlines
  if !(← accept .indent) then return init
  loop (nextEntry entry) init

def indented (entry : Parser α) : Parser (List α) :=
  indentedFold [] fun entries => do return entries ++ [← entry]

def closeBlock (start : Span) : Parser Span := do
  skipNewlines
  expectKeyword .endWord
  let span := start.join (← prevSpan)
  expectNewline
  return span

def nextDash (name : String) : Parser (String × Bool) := do
  if (← seesPunct .minus) && (← adjacent) then
    advance
    return (name ++ "-" ++ (← expectName), true)
  else return (name, false)

def dashedName : Parser String := do
  let name ← expectName
  loop nextDash name

end Parser

end LayoutScript

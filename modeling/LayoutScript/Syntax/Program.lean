import LayoutScript.Syntax.Statement

/-! Programs. -/
namespace LayoutScript

open LayoutScript.Parser

namespace Program

def parseNext (body : List Stmt) : Parser (List Stmt × Bool) := do
  if ← sees .eof then return (body, false)
  let s ← Stmt.parse .top
  skipNewlines
  return (body ++ [s], true)

def parse : Parser Program := do
  skipNewlines
  let body ← loop parseNext []
  return ⟨body⟩

/-- The program of a list of tokens that is empty or ends in eof. -/
def ofTokens (tokens : List Token) : Except SyntaxError Program :=
  match Tape.start? tokens with
  | none => .ok ⟨[]⟩
  | some t =>
    match parse.exec t with
    | .error e => .error e
    | .ok (p, _) => .ok p

end Program

end LayoutScript

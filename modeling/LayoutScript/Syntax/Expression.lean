import LayoutScript.Syntax.Parser

/-! Expressions. All binary operators have one precedence and group to the right. -/
namespace LayoutScript

open LayoutScript.Parser

namespace Expr

/-- Reads `properties` from `base`, up to the token before the cursor. -/
def withProperties (start : Span) (base : Expr) : List String → Parser Expr
  | [] => return base
  | properties => do
    let span := start.join (← prevSpan)
    match base with
    | .instanceVar name _ => return .instanceVarAccess name properties span
    | _ => return .propertyAccess base properties span

def arguments (expression : Parser Expr) : Parser (List Expr) := do
  expectPunct .openParen
  commaSeparated .closeParen expression

/-- One more property or method call, if a dot is there. Properties in a row make one access. -/
def nextAccess (expression : Parser Expr) (start : Span) :
    Expr × List String → Parser ((Expr × List String) × Bool)
  | (base, properties) => do
    if !(← acceptPunct .dot) then return ((base, properties), false)
    let name ← expectName
    if ← seesPunct .openParen then
      let object ← base.withProperties start properties
      let args ← arguments expression
      return ((.methodCall object name args (start.join (← prevSpan)), []), true)
    else return ((base, properties ++ [name]), true)

def accessChain (expression : Parser Expr) (base : Expr) : Parser Expr := do
  let start := base.span
  let (base, properties) ← loop (nextAccess expression start) (base, [])
  base.withProperties start properties

def newInstance (expression : Parser Expr) : Parser Expr := do
  let start ← here
  expectKeyword .new
  let className ← expectIdentifier
  let args ← if ← seesPunct .openParen then arguments expression else pure []
  return .construct className args (start.join (← prevSpan))

def operand (expression : Parser Expr) : Parser Expr := do
  let token ← current
  let start := token.span
  match token.lexeme with
  | .string raw =>
    advance
    return .string raw start
  | .template raw =>
    advance
    return .template raw start
  | .number raw =>
    advance
    return .number raw start
  | .identifier name =>
    advance
    if ← seesPunct .openParen then
      let args ← arguments expression
      accessChain expression (.call name args (start.join (← prevSpan)))
    else accessChain expression (.identifier name start)
  | .instanceVar name =>
    advance
    if ← seesPunct .openParen then
      let args ← arguments expression
      accessChain expression (.instanceMethodCall name args (start.join (← prevSpan)))
    else accessChain expression (.instanceVar name start)
  | .keyword .trueWord =>
    advance
    return .boolean true start
  | .keyword .falseWord =>
    advance
    return .boolean false start
  | .keyword .null =>
    advance
    return .null start
  | .keyword .new => newInstance expression
  | .punct .openParen =>
    advance
    let inner ← expression
    expectPunct .closeParen
    return inner.grouped
  | .punct .minus =>
    let next ← peek
    match next.lexeme, next.follows token with
    | .number raw, true =>
      advance
      advance
      return .number ("-" ++ raw) (start.join next.span)
    | _, _ => fail .unexpectedInExpression
  | _ => fail .unexpectedInExpression

def binaryRest (expression : Parser Expr) (left : Expr) : Parser Expr := do
  match (← current).lexeme with
  | .punct p =>
    if p.isBinary then
      advance
      let right ← expression
      return .binary left p.text right false (left.span.join right.span)
    else return left
  | _ => return left

def parseWith (expression : Parser Expr) : Parser Expr := do
  binaryRest expression (← operand expression)

/-- An expression of bounded nesting. Each level reads a token before it opens the next. -/
def parseWithin : Nat → Parser Expr
  | 0 => fail .exhausted
  | n + 1 => parseWith (parseWithin n)

def parse : Parser Expr := bounded parseWithin

def parseOperand : Parser Expr := operand parse

def parseRest (left : Expr) : Parser Expr := binaryRest parse left

end Expr

end LayoutScript

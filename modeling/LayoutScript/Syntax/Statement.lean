import LayoutScript.Syntax.Markup

/-! Statements and declarations. -/
namespace LayoutScript

open LayoutScript.Parser

structure Place where
  inFunction : Bool
  nested : Bool
  deriving DecidableEq, Repr

namespace Place

def top : Place := ⟨false, false⟩

def functionBody : Place := ⟨true, true⟩

def block (place : Place) : Place := { place with nested := true }

end Place

namespace FunctionOf

def parseName : Parser String := do
  match (← current).lexeme with
  | .keyword .construct =>
    advance
    return Keyword.construct.text
  | .keyword .print =>
    advance
    return Keyword.print.text
  | _ => expectIdentifier

def parseType? : Parser (Option String) := do
  if ← acceptPunct .colon then return some (← expectIdentifier) else return none

def parseParam : Parser Param := do
  let name ← expectIdentifier
  return ⟨name, ← parseType?⟩

def parseParams : Parser (List Param) := do
  if ← acceptPunct .openParen then commaSeparated .closeParen parseParam else return []

/-- A body that is one call gives the value of the call. -/
def giveCall : List Stmt → List Stmt
  | [.expr (.call callee args span)] => [.give (some (.call callee args span)) span]
  | body => body

def parseWith (statement : Place → Parser Stmt) : Parser FunctionDecl := do
  let start ← here
  expectKeyword .defWord
  let name ← parseName
  let params ← parseParams
  let returnType ← parseType?
  let body ← indented (statement .functionBody)
  return ⟨name, params, returnType, giveCall body, ← closeBlock start⟩

end FunctionOf

namespace ClassOf

/-- A property or a method; anything else ends the members. -/
def parseMember (statement : Place → Parser Stmt) (members : List Property × List FunctionDecl) :
    Parser ((List Property × List FunctionDecl) × Bool) := do
  skipNewlines
  match (← current).lexeme, (← peek).lexeme with
  | .identifier _, .punct .colon =>
    let name ← expectIdentifier
    expectPunct .colon
    let type ← expectIdentifier
    expectNewline
    return ((members.1 ++ [⟨name, type⟩], members.2), true)
  | .keyword .defWord, _ =>
    return ((members.1, members.2 ++ [← FunctionOf.parseWith statement]), true)
  | _, _ => return (members, false)

def parseMembers (statement : Place → Parser Stmt) :
    Parser (List Property × List FunctionDecl) := do
  if !(← accept .indent) then return ([], [])
  let members ← loop (parseMember statement) ([], [])
  expectDedent
  return members

def parseWith (statement : Place → Parser Stmt) : Parser ClassDecl := do
  let start ← here
  expectKeyword .classWord
  let name ← expectIdentifier
  expectNewline
  skipNewlines
  let (properties, methods) ← parseMembers statement
  return ⟨name, properties, methods, ← closeBlock start⟩

end ClassOf

def Entry.parse : Parser Entry := do
  let start ← here
  let name ← expectIdentifier
  expectPunct .colon
  let type ← expectIdentifier
  let value ← if ← acceptPunct .equal then some <$> Expr.parse else pure none
  let span := start.join (← prevSpan)
  expectNewline
  return ⟨name, type, value, span⟩

def Entry.parseBlock (k : Keyword) : Parser (List Entry) := do
  let start ← here
  expectKeyword k
  let entries ← indented Entry.parse
  let _ ← closeBlock start
  return entries

namespace ComponentOf

def parseMember (statement : Place → Parser Stmt) (c : ComponentDecl) : Parser ComponentDecl := do
  match (← current).lexeme with
  | .keyword .props => return { c with props := c.props ++ (← Entry.parseBlock .props) }
  | .keyword .state => return { c with state := c.state ++ (← Entry.parseBlock .state) }
  | .keyword .defWord =>
    return { c with methods := c.methods ++ [← FunctionOf.parseWith statement] }
  | .keyword .render =>
    if c.render.isSome then fail (.duplicateRender c.name)
    return { c with render := some (← RenderBlock.parse) }
  | .keyword .style =>
    if c.style.isSome then fail (.duplicateStyle c.name)
    return { c with style := some (← StyleBlock.parse) }
  | _ => fail .expectedMember

def parseWith (statement : Place → Parser Stmt) : Parser ComponentDecl := do
  let start ← here
  expectKeyword .component
  let name ← expectIdentifier
  let c ← indentedFold ⟨name, [], [], [], none, none, start⟩ (parseMember statement)
  return { c with span := ← closeBlock start }

end ComponentOf

namespace Stmt

/-- The value of the enclosing function, given its left operand. -/
def parseImplicitGive (left : Expr) : Parser Stmt := do
  let value ← Expr.parseRest left
  expectNewline
  return .give (some value) value.span

def parseAssigned (start : Span) (make : Expr → Span → Stmt) : Parser Stmt := do
  let value ← Expr.parse
  expectNewline
  return make value (start.join value.span)

def parseAccess (place : Place) (start : Span) : Parser Stmt := do
  let target ← Expr.parseOperand
  if ← seesPunct .equal then
    match target with
    | .propertyAccess object properties targetSpan =>
      advance
      parseAssigned start (.assignProperty object properties targetSpan)
    | _ => fail (.notAssignable target.kind)
  else
    match place.inFunction, (← current).lexeme with
    | true, .punct p =>
      if p.isBinary then parseImplicitGive target
      else
        expectNewline
        return .expr target
    | _, _ =>
      expectNewline
      return .expr target

/-- A statement that starts with an identifier. A name alone is a call outside functions and
their value inside. -/
def parseIdentifier (place : Place) (name : String) : Parser Stmt := do
  let start ← here
  match (← peek).lexeme with
  | .punct .equal =>
    advance
    advance
    parseAssigned start (.assign name)
  | .punct .dot | .punct .openParen => parseAccess place start
  | _ =>
    if place.inFunction then parseImplicitGive (← Expr.parseOperand)
    else
      advance
      expectNewline
      return .expr (.call name [] start)

def parseInstanceAccess (start : Span) : Parser Stmt := do
  let target ← Expr.parseOperand
  match target with
  | .instanceMethodCall .. | .methodCall .. =>
    expectNewline
    return .expr target
  | .instanceVarAccess name properties targetSpan =>
    expectPunct .equal
    parseAssigned start (.assignProperty (.instanceVar name start) properties targetSpan)
  | _ => fail (.expectedPunct .equal)

def parseInstanceVar (name : String) : Parser Stmt := do
  let start ← here
  match (← peek).lexeme with
  | .punct .equal =>
    advance
    advance
    parseAssigned start (.assignInstanceVar name)
  | .punct .openParen | .punct .dot => parseInstanceAccess start
  | _ =>
    advance
    fail (.expectedPunct .equal)

def parsePrint : Parser Stmt := do
  let start ← here
  expectKeyword .print
  parseAssigned start .print

def parseGive : Parser Stmt := do
  let start ← here
  expectKeyword .returnWord
  if (← sees .newline) || (← sees .eof) then
    expectNewline
    return .give none start
  else parseAssigned start fun value => .give (some value)

def nextElsif (body : Parser (List Stmt)) (elsifs : List Elsif) : Parser (List Elsif × Bool) := do
  skipNewlines
  if !(← accept (.keyword .elsif)) then return (elsifs, false)
  let condition ← Expr.parse
  return (elsifs ++ [⟨condition, ← body⟩], true)

def parseBranch (statement : Place → Parser Stmt) (place : Place) : Parser Stmt := do
  let start ← here
  let body := indented (statement place.block)
  expectKeyword .ifWord
  let condition ← Expr.parse
  let first ← body
  let elsifs ← loop (nextElsif body) []
  let hasElse ← accept (.keyword .elseWord)
  let otherwise ← if hasElse then body else pure []
  return .branch condition first elsifs otherwise hasElse (← closeBlock start)

def parseWith (statement : Place → Parser Stmt) (place : Place) : Parser Stmt := do
  let token ← current
  match token.lexeme with
  | .keyword .defWord => return .function (← FunctionOf.parseWith statement)
  | .keyword .classWord => return .classDecl (← ClassOf.parseWith statement)
  | .keyword .component =>
    if place.nested then fail .nestedComponent
    return .component (← ComponentOf.parseWith statement)
  | .keyword .print => parsePrint
  | .keyword .returnWord => parseGive
  | .keyword .ifWord => parseBranch statement place
  | .keyword k => fail (.unexpectedKeyword k)
  | .identifier name => parseIdentifier place name
  | .instanceVar name => parseInstanceVar name
  | .string _ | .template _ => parseAssigned token.span fun value => .give (some value)
  | _ => fail .unexpectedToken

def parseWithin : Nat → Place → Parser Stmt
  | 0, _ => fail .exhausted
  | n + 1, place => parseWith (parseWithin n) place

def parse (place : Place) : Parser Stmt := bounded fun n => parseWithin n place

end Stmt

end LayoutScript

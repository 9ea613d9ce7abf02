import LayoutScript.Span

/-! The syntax tree. Literals keep their source text, and every node knows its span. -/
namespace LayoutScript

inductive Expr where
  | string (value : String) (span : Span)
  | template (raw : String) (span : Span)
  | number (raw : String) (span : Span)
  | boolean (value : Bool) (span : Span)
  | null (span : Span)
  | identifier (name : String) (span : Span)
  | instanceVar (name : String) (span : Span)
  /-- Properties read from an instance variable, at least one when written in a source. -/
  | instanceVarAccess (name : String) (properties : List String) (span : Span)
  | propertyAccess (object : Expr) (properties : List String) (span : Span)
  | construct (className : String) (args : List Expr) (span : Span)
  | call (callee : String) (args : List Expr) (span : Span)
  | methodCall (object : Expr) (method : String) (args : List Expr) (span : Span)
  | instanceMethodCall (method : String) (args : List Expr) (span : Span)
  /-- `grouped` tells whether the source had parentheses around it. -/
  | binary (left : Expr) (operator : String) (right : Expr) (grouped : Bool) (span : Span)
  | interpolation (raw : String) (span : Span)
  deriving Repr

namespace Expr

def span : Expr → Span
  | .string _ s | .template _ s | .number _ s | .boolean _ s | .null s | .identifier _ s
  | .instanceVar _ s | .instanceVarAccess _ _ s | .propertyAccess _ _ s | .construct _ _ s
  | .call _ _ s | .methodCall _ _ _ s | .instanceMethodCall _ _ s | .binary _ _ _ _ s
  | .interpolation _ s => s

def grouped : Expr → Expr
  | .binary left operator right _ s => .binary left operator right true s
  | e => e

end Expr

structure Param where
  name : String
  type : Option String
  deriving DecidableEq, Repr

structure Property where
  name : String
  type : String
  deriving DecidableEq, Repr

structure Entry where
  name : String
  type : String
  value : Option Expr
  span : Span
  deriving Repr

structure Attribute where
  name : String
  value : Expr
  deriving Repr

structure ElementOf (ν : Type) where
  tag : String
  className : String
  attributes : List Attribute
  children : List ν
  span : Span
  deriving Repr

inductive Markup where
  | text (value : String) (span : Span)
  | interpolation (raw : String) (span : Span)
  | element (e : ElementOf Markup)
  deriving Repr

abbrev Element := ElementOf Markup

namespace Markup

def span : Markup → Span
  | .text _ s | .interpolation _ s => s
  | .element e => e.span

def isElement : Markup → Bool
  | .element _ => true
  | _ => false

end Markup

def ElementOf.isInline (e : Element) : Bool := !e.children.any Markup.isElement

structure RenderBlock where
  elements : List Element
  span : Span
  deriving Repr

structure StyleDeclaration where
  property : String
  value : Expr
  deriving Repr

structure StyleRule where
  selector : String
  declarations : List StyleDeclaration
  deriving Repr

structure StyleBlock where
  rules : List StyleRule
  span : Span
  deriving Repr

structure FunctionOf (σ : Type) where
  name : String
  params : List Param
  returnType : Option String
  body : List σ
  span : Span
  deriving Repr

def FunctionOf.isConstructor (f : FunctionOf σ) : Bool := f.name == "construct"

structure ClassOf (σ : Type) where
  name : String
  properties : List Property
  methods : List (FunctionOf σ)
  span : Span
  deriving Repr

def ClassOf.constructor? (c : ClassOf σ) : Option (FunctionOf σ) :=
  c.methods.find? FunctionOf.isConstructor

structure ComponentOf (σ : Type) where
  name : String
  props : List Entry
  state : List Entry
  methods : List (FunctionOf σ)
  render : Option RenderBlock
  style : Option StyleBlock
  span : Span
  deriving Repr

def ComponentOf.stateNames (c : ComponentOf σ) : List String := c.state.map Entry.name

structure ElsifOf (σ : Type) where
  condition : Expr
  body : List σ
  deriving Repr

inductive Stmt where
  | function (f : FunctionOf Stmt)
  | classDecl (c : ClassOf Stmt)
  | component (c : ComponentOf Stmt)
  | assign (name : String) (value : Expr) (span : Span)
  /-- `target` is the span of the property access on the left. -/
  | assignProperty (object : Expr) (properties : List String) (target : Span) (value : Expr)
    (span : Span)
  | assignInstanceVar (name : String) (value : Expr) (span : Span)
  | print (value : Expr) (span : Span)
  | give (value : Option Expr) (span : Span)
  | branch (condition : Expr) (body : List Stmt) (elsifs : List (ElsifOf Stmt))
    (otherwise : List Stmt) (hasElse : Bool) (span : Span)
  | expr (e : Expr)
  deriving Repr

abbrev FunctionDecl := FunctionOf Stmt
abbrev ClassDecl := ClassOf Stmt
abbrev ComponentDecl := ComponentOf Stmt
abbrev Elsif := ElsifOf Stmt

namespace Stmt

def span : Stmt → Span
  | .function f => f.span
  | .classDecl c => c.span
  | .component c => c.span
  | .assign _ _ s | .assignProperty _ _ _ _ s | .assignInstanceVar _ _ s | .print _ s | .give _ s
  | .branch _ _ _ _ _ s => s
  | .expr e => e.span

end Stmt

structure Program where
  body : List Stmt
  deriving Repr

def Program.span (p : Program) : Span :=
  match p.body.head?, p.body.getLast? with
  | some first, some last => first.span.join last.span
  | _, _ => .origin

end LayoutScript

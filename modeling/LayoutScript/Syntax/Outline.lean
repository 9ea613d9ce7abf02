import LayoutScript.Syntax

/-! Outlines: the tree of node kinds and spans, for those who only walk it. -/
namespace LayoutScript

inductive NodeKind where
  | program | functionDeclaration | classDeclaration | componentDeclaration | propDeclaration
  | stateDeclaration | assignment | propertyAssignment | instanceVarAssignment | printStatement
  | returnStatement | ifStatement | stringLiteral | interpolatedString | numberLiteral
  | booleanLiteral | nullLiteral | identifier | instanceVar | instanceVarAccess | propertyAccess
  | newExpression | callExpression | methodCall | instanceMethodCall | binaryExpression
  | jsxInterpolation | renderBlock | jsxElement | jsxText | styleBlock
  deriving DecidableEq, Repr

def NodeKind.name : NodeKind → String
  | .program => "Program"
  | .functionDeclaration => "FunctionDeclaration"
  | .classDeclaration => "ClassDeclaration"
  | .componentDeclaration => "ComponentDeclaration"
  | .propDeclaration => "PropDeclaration"
  | .stateDeclaration => "StateDeclaration"
  | .assignment => "Assignment"
  | .propertyAssignment => "PropertyAssignment"
  | .instanceVarAssignment => "InstanceVarAssignment"
  | .printStatement => "PrintStatement"
  | .returnStatement => "ReturnStatement"
  | .ifStatement => "IfStatement"
  | .stringLiteral => "StringLiteral"
  | .interpolatedString => "InterpolatedString"
  | .numberLiteral => "NumberLiteral"
  | .booleanLiteral => "BooleanLiteral"
  | .nullLiteral => "NullLiteral"
  | .identifier => "Identifier"
  | .instanceVar => "InstanceVar"
  | .instanceVarAccess => "InstanceVarAccess"
  | .propertyAccess => "PropertyAccess"
  | .newExpression => "NewExpression"
  | .callExpression => "CallExpression"
  | .methodCall => "MethodCall"
  | .instanceMethodCall => "InstanceMethodCall"
  | .binaryExpression => "BinaryExpression"
  | .jsxInterpolation => "JSXInterpolation"
  | .renderBlock => "RenderBlock"
  | .jsxElement => "JSXElement"
  | .jsxText => "JSXText"
  | .styleBlock => "StyleBlock"

inductive Outline where
  | node (kind : NodeKind) (span : Span) (children : List Outline)
  deriving Repr

namespace Outline

def kind : Outline → NodeKind
  | .node k _ _ => k

def span : Outline → Span
  | .node _ s _ => s

def children : Outline → List Outline
  | .node _ _ cs => cs

mutual

/-- A node, then the nodes below it, depth first; below a skipped kind nothing is visited. -/
def walk (skip : NodeKind → Bool) : Outline → List Outline
  | .node kind span children =>
    .node kind span children :: if skip kind then [] else walkAll skip children

def walkAll (skip : NodeKind → Bool) : List Outline → List Outline
  | [] => []
  | o :: os => walk skip o ++ walkAll skip os

end

mutual

/-- Shows a node to a visitor, and then those below it, depth first, if the visitor asks for
them. -/
def visit (visitor : σ → Outline → σ × Bool) (s : σ) : Outline → σ
  | .node kind span children =>
    match visitor s (.node kind span children) with
    | (s, true) => visitAll visitor s children
    | (s, false) => s

def visitAll (visitor : σ → Outline → σ × Bool) (s : σ) : List Outline → σ
  | [] => s
  | o :: os => visitAll visitor (visit visitor s o) os

end

end Outline

namespace Expr

def kind : Expr → NodeKind
  | .string .. => .stringLiteral
  | .template .. => .interpolatedString
  | .number .. => .numberLiteral
  | .boolean .. => .booleanLiteral
  | .null .. => .nullLiteral
  | .identifier .. => .identifier
  | .instanceVar .. => .instanceVar
  | .instanceVarAccess .. => .instanceVarAccess
  | .propertyAccess .. => .propertyAccess
  | .construct .. => .newExpression
  | .call .. => .callExpression
  | .methodCall .. => .methodCall
  | .instanceMethodCall .. => .instanceMethodCall
  | .binary .. => .binaryExpression
  | .interpolation .. => .jsxInterpolation

mutual

def outline : Expr → Outline
  | .propertyAccess object _ s => .node .propertyAccess s [outline object]
  | .construct _ args s => .node .newExpression s (outlines args)
  | .call _ args s => .node .callExpression s (outlines args)
  | .methodCall object _ args s => .node .methodCall s (outline object :: outlines args)
  | .instanceMethodCall _ args s => .node .instanceMethodCall s (outlines args)
  | .binary left _ right _ s => .node .binaryExpression s [outline left, outline right]
  | .string _ s => .node .stringLiteral s []
  | .template _ s => .node .interpolatedString s []
  | .number _ s => .node .numberLiteral s []
  | .boolean _ s => .node .booleanLiteral s []
  | .null s => .node .nullLiteral s []
  | .identifier _ s => .node .identifier s []
  | .instanceVar _ s => .node .instanceVar s []
  | .instanceVarAccess _ _ s => .node .instanceVarAccess s []
  | .interpolation _ s => .node .jsxInterpolation s []

def outlines : List Expr → List Outline
  | [] => []
  | e :: es => outline e :: outlines es

end

@[simp] theorem span_outline (e : Expr) : e.outline.span = e.span := by
  cases e <;> simp [outline, span, Outline.span]

end Expr

def Attribute.outline (a : Attribute) : Outline := a.value.outline

namespace Markup

mutual

def outline : Markup → Outline
  | .text _ s => .node .jsxText s []
  | .interpolation _ s => .node .jsxInterpolation s []
  | .element e => elementOutline e

def elementOutline : ElementOf Markup → Outline
  | ⟨_, _, attributes, children, s⟩ =>
    .node .jsxElement s (attributes.map Attribute.outline ++ outlines children)

def outlines : List Markup → List Outline
  | [] => []
  | m :: ms => outline m :: outlines ms

end

end Markup

def ElementOf.outline (e : Element) : Outline := Markup.elementOutline e

def Entry.outline (kind : NodeKind) (e : Entry) : Outline :=
  .node kind e.span (e.value.map Expr.outline).toList

def RenderBlock.outline (r : RenderBlock) : Outline :=
  .node .renderBlock r.span (r.elements.map ElementOf.outline)

def StyleBlock.outline (s : StyleBlock) : Outline :=
  .node .styleBlock s.span (s.rules.flatMap fun r => r.declarations.map fun d => d.value.outline)

namespace Stmt

def kind : Stmt → NodeKind
  | .function _ => .functionDeclaration
  | .classDecl _ => .classDeclaration
  | .component _ => .componentDeclaration
  | .assign .. => .assignment
  | .assignProperty .. => .propertyAssignment
  | .assignInstanceVar .. => .instanceVarAssignment
  | .print .. => .printStatement
  | .give .. => .returnStatement
  | .branch .. => .ifStatement
  | .expr e => e.kind

mutual

def outline : Stmt → Outline
  | .function f => functionOutline f
  | .classDecl ⟨_, _, methods, s⟩ => .node .classDeclaration s (functionOutlines methods)
  | .component ⟨_, props, state, methods, render, style, s⟩ =>
    .node .componentDeclaration s
      (props.map (Entry.outline .propDeclaration) ++ state.map (Entry.outline .stateDeclaration) ++
        functionOutlines methods ++ (render.map RenderBlock.outline).toList ++
        (style.map StyleBlock.outline).toList)
  | .assign _ value s => .node .assignment s [value.outline]
  | .assignProperty object _ target value s =>
    .node .propertyAssignment s [.node .propertyAccess target [object.outline], value.outline]
  | .assignInstanceVar _ value s => .node .instanceVarAssignment s [value.outline]
  | .print value s => .node .printStatement s [value.outline]
  | .give value s => .node .returnStatement s (value.map Expr.outline).toList
  | .branch condition body elsifs otherwise _ s =>
    .node .ifStatement s
      (condition.outline :: outlines body ++ elsifOutlines elsifs ++ outlines otherwise)
  | .expr e => e.outline

def functionOutline : FunctionOf Stmt → Outline
  | ⟨_, _, _, body, s⟩ => .node .functionDeclaration s (outlines body)

def functionOutlines : List (FunctionOf Stmt) → List Outline
  | [] => []
  | f :: fs => functionOutline f :: functionOutlines fs

def outlines : List Stmt → List Outline
  | [] => []
  | s :: ss => outline s :: outlines ss

/-- A condition and its body stand side by side, as the first ones do. -/
def elsifOutlines : List (ElsifOf Stmt) → List Outline
  | [] => []
  | ⟨condition, body⟩ :: es => condition.outline :: outlines body ++ elsifOutlines es

end

end Stmt

def Program.outline (p : Program) : Outline := .node .program p.span (Stmt.outlines p.body)

end LayoutScript

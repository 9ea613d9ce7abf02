import LayoutScript.Script.Line
import LayoutScript.Script.Lowering

/-! Elements of the generated script. -/
namespace LayoutScript

open LayoutScript.Script (Scope Line)

namespace Markup

def escapeChar (c : Char) : List Char :=
  if c = '{' then ['{', '\'', '{', '\'', '}']
  else if c = '}' then ['{', '\'', '}', '\'', '}']
  else if c = '<' then ['&', 'l', 't', ';']
  else if c = '>' then ['&', 'g', 't', ';']
  else [c]

def escapeText (s : String) : String := String.ofList (s.toList.flatMap escapeChar)

end Markup

namespace Attribute

def isPlain (s : String) : Bool := !s.toList.any fun c => c == '"' || c == '{' || c == '}'

/-- The value after the name. Handlers are not called but given, or wrapped in a function if
they take arguments. -/
def emitValue (scope : Scope) (a : Attribute) : String :=
  let braces (code : String) : String := "=\x7b" ++ code ++ "\x7d"
  match a.value, Script.eventName? a.name with
  | .instanceMethodCall method [] _, some _ => braces method
  | .instanceMethodCall method args _, some _ =>
    braces ("() => " ++ method ++ "(" ++ Expr.emitArgs scope args ++ ")")
  | .string value span, _ =>
    if isPlain value then "=\"" ++ value ++ "\"" else braces ((Expr.string value span).emit scope)
  | value, _ => braces (value.emit scope)

def emit (scope : Scope) (a : Attribute) : String :=
  Script.attributeName a.name ++ a.emitValue scope

def classes? (a : Attribute) : Option String :=
  match a.name, a.value with
  | "class", .string value _ => some value
  | _, _ => none

/-- All attributes, each after a blank. Classes from every place make one attribute in front. -/
def emitAll (scope : Scope) (className : String) (attributes : List Attribute) : String :=
  let classes := (if className = "" then [] else [className]) ++ attributes.filterMap classes?
  let others := attributes.filter fun a => a.classes?.isNone
  let merged := if classes.isEmpty then "" else " className=\"" ++ " ".intercalate classes ++ "\""
  merged ++ String.join (others.map fun a => " " ++ a.emit scope)

end Attribute

namespace Markup

def emitInline : Markup → Except UnknownNode String
  | .text value _ => .ok (escapeText value)
  | .interpolation raw _ => .ok ("\x7b" ++ Script.Template.stripSigils raw ++ "\x7d")
  | .element e => .error ⟨.jsxElement, e.span⟩

mutual

def emitLines (scope : Scope) (indent : Nat) : Markup → Except UnknownNode (List Line)
  | .element e => emitElement scope indent e
  | m =>
    match m.emitInline with
    | .error e => .error e
    | .ok content => .ok [⟨indent, content⟩]

def emitElement (scope : Scope) (indent : Nat) : ElementOf Markup → Except UnknownNode (List Line)
  | ⟨tag, className, attributes, children, _⟩ =>
    let opening := "<" ++ tag ++ Attribute.emitAll scope className attributes
    if children.isEmpty then .ok [⟨indent, opening ++ " />"⟩]
    else if children.any isElement then
      match emitAll scope (indent + 1) children with
      | .error e => .error e
      | .ok lines =>
        .ok (⟨indent, opening ++ ">"⟩ :: lines ++ [⟨indent, "</" ++ tag ++ ">"⟩])
    else
      match allOk (children.map emitInline) with
      | .error e => .error e
      | .ok texts =>
        .ok [⟨indent, opening ++ ">" ++ String.join texts ++ "</" ++ tag ++ ">"⟩]

def emitAll (scope : Scope) (indent : Nat) : List Markup → Except UnknownNode (List Line)
  | [] => .ok []
  | m :: ms =>
    match emitLines scope indent m with
    | .error e => .error e
    | .ok first =>
      match emitAll scope indent ms with
      | .error e => .error e
      | .ok rest => .ok (first ++ rest)

end

end Markup

/-- What a component gives back. Several elements need one around them. -/
def RenderBlock.emit (scope : Scope) (indent : Nat) :
    Option RenderBlock → Except UnknownNode (List Line)
  | none | some ⟨[], _⟩ => .ok [⟨indent, "return null;"⟩]
  | some ⟨[e], _⟩ =>
    match Markup.emitElement scope (indent + 1) e with
    | .error e => .error e
    | .ok lines => .ok (⟨indent, "return ("⟩ :: lines ++ [⟨indent, ");"⟩])
  | some ⟨elements, _⟩ =>
    match allOk (elements.map (Markup.emitElement scope (indent + 2))) with
    | .error e => .error e
    | .ok lines =>
      .ok (⟨indent, "return ("⟩ :: ⟨indent + 1, "<>"⟩ :: lines.flatten ++
        [⟨indent + 1, "</>"⟩, ⟨indent, ");"⟩])

end LayoutScript

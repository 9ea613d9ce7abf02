import LayoutScript.Fault
import LayoutScript.Syntax.Parser

/-! Spans of tokens, trees and faults, changed by a function. -/
namespace LayoutScript

@[simp] theorem mapError_ok (f : ε → ε') (a : α) : (Except.ok a).mapError f = .ok a := rfl

@[simp] theorem mapError_error (f : ε → ε') (e : ε) :
    (Except.error e : Except ε α).mapError f = .error (f e) := rfl

def Token.mapSpan (f : Span → Span) (t : Token) : Token := ⟨t.lexeme, f t.span⟩

@[simp] theorem Token.lexeme_mapSpan (f : Span → Span) (t : Token) :
    (t.mapSpan f).lexeme = t.lexeme := rfl

@[simp] theorem Token.span_mapSpan (f : Span → Span) (t : Token) :
    (t.mapSpan f).span = f t.span := rfl

namespace Expr

mutual

def mapSpan (f : Span → Span) : Expr → Expr
  | .string value s => .string value (f s)
  | .template raw s => .template raw (f s)
  | .number raw s => .number raw (f s)
  | .boolean value s => .boolean value (f s)
  | .null s => .null (f s)
  | .identifier name s => .identifier name (f s)
  | .instanceVar name s => .instanceVar name (f s)
  | .instanceVarAccess name properties s => .instanceVarAccess name properties (f s)
  | .propertyAccess object properties s => .propertyAccess (object.mapSpan f) properties (f s)
  | .construct className args s => .construct className (mapSpanAll f args) (f s)
  | .call callee args s => .call callee (mapSpanAll f args) (f s)
  | .methodCall object method args s =>
    .methodCall (object.mapSpan f) method (mapSpanAll f args) (f s)
  | .instanceMethodCall method args s => .instanceMethodCall method (mapSpanAll f args) (f s)
  | .binary left operator right grouped s =>
    .binary (left.mapSpan f) operator (right.mapSpan f) grouped (f s)
  | .interpolation raw s => .interpolation raw (f s)

def mapSpanAll (f : Span → Span) : List Expr → List Expr
  | [] => []
  | e :: es => e.mapSpan f :: mapSpanAll f es

end

@[simp] theorem mapSpanAll_eq_map (f : Span → Span) (es : List Expr) :
    mapSpanAll f es = es.map (mapSpan f) := by
  induction es with
  | nil => rw [mapSpanAll, List.map_nil]
  | cons e es ih => rw [mapSpanAll, ih, List.map_cons]

@[simp] theorem span_mapSpan (f : Span → Span) (e : Expr) : (e.mapSpan f).span = f e.span := by
  cases e <;> simp only [mapSpan, span]

@[simp] theorem kind_mapSpan (f : Span → Span) (e : Expr) : (e.mapSpan f).kind = e.kind := by
  cases e <;> simp only [mapSpan, kind]

@[simp] theorem grouped_mapSpan (f : Span → Span) (e : Expr) :
    (e.mapSpan f).grouped = e.grouped.mapSpan f := by
  cases e <;> simp only [mapSpan, grouped]

end Expr

def Attribute.mapSpan (f : Span → Span) (a : Attribute) : Attribute := ⟨a.name, a.value.mapSpan f⟩

def Entry.mapSpan (f : Span → Span) (e : Entry) : Entry :=
  ⟨e.name, e.type, e.value.map (Expr.mapSpan f), f e.span⟩

namespace Markup

mutual

def mapSpan (f : Span → Span) : Markup → Markup
  | .text value s => .text value (f s)
  | .interpolation raw s => .interpolation raw (f s)
  | .element ⟨tag, className, attributes, children, s⟩ =>
    .element ⟨tag, className, attributes.map (Attribute.mapSpan f), mapSpanAll f children, f s⟩

def mapSpanAll (f : Span → Span) : List Markup → List Markup
  | [] => []
  | m :: ms => m.mapSpan f :: mapSpanAll f ms

end

@[simp] theorem mapSpanAll_eq_map (f : Span → Span) (ms : List Markup) :
    mapSpanAll f ms = ms.map (mapSpan f) := by
  induction ms with
  | nil => rw [mapSpanAll, List.map_nil]
  | cons m ms ih => rw [mapSpanAll, ih, List.map_cons]

end Markup

def ElementOf.mapSpan (f : Span → Span) (e : Element) : Element :=
  ⟨e.tag, e.className, e.attributes.map (Attribute.mapSpan f), e.children.map (Markup.mapSpan f),
    f e.span⟩

@[simp] theorem Markup.mapSpan_element (f : Span → Span) (e : Element) :
    (Markup.element e).mapSpan f = .element (e.mapSpan f) := by
  rw [Markup.mapSpan, Markup.mapSpanAll_eq_map, ElementOf.mapSpan]

def RenderBlock.mapSpan (f : Span → Span) (r : RenderBlock) : RenderBlock :=
  ⟨r.elements.map (ElementOf.mapSpan f), f r.span⟩

def StyleDeclaration.mapSpan (f : Span → Span) (d : StyleDeclaration) : StyleDeclaration :=
  ⟨d.property, d.value.mapSpan f⟩

def StyleRule.mapSpan (f : Span → Span) (r : StyleRule) : StyleRule :=
  ⟨r.selector, r.declarations.map (StyleDeclaration.mapSpan f)⟩

def StyleBlock.mapSpan (f : Span → Span) (b : StyleBlock) : StyleBlock :=
  ⟨b.rules.map (StyleRule.mapSpan f), f b.span⟩

namespace Stmt

mutual

def mapSpan (f : Span → Span) : Stmt → Stmt
  | .function ⟨name, params, type, body, s⟩ =>
    .function ⟨name, params, type, mapSpanAll f body, f s⟩
  | .classDecl ⟨name, properties, methods, s⟩ =>
    .classDecl ⟨name, properties, mapSpanFunctions f methods, f s⟩
  | .component ⟨name, props, state, methods, render, style, s⟩ =>
    .component ⟨name, props.map (Entry.mapSpan f), state.map (Entry.mapSpan f),
      mapSpanFunctions f methods, render.map (RenderBlock.mapSpan f),
      style.map (StyleBlock.mapSpan f), f s⟩
  | .assign name value s => .assign name (value.mapSpan f) (f s)
  | .assignProperty object properties target value s =>
    .assignProperty (object.mapSpan f) properties (f target) (value.mapSpan f) (f s)
  | .assignInstanceVar name value s => .assignInstanceVar name (value.mapSpan f) (f s)
  | .print value s => .print (value.mapSpan f) (f s)
  | .give value s => .give (value.map (Expr.mapSpan f)) (f s)
  | .branch condition body elsifs otherwise hasElse s =>
    .branch (condition.mapSpan f) (mapSpanAll f body) (mapSpanElsifs f elsifs)
      (mapSpanAll f otherwise) hasElse (f s)
  | .expr e => .expr (e.mapSpan f)

def mapSpanAll (f : Span → Span) : List Stmt → List Stmt
  | [] => []
  | s :: ss => s.mapSpan f :: mapSpanAll f ss

def mapSpanFunctions (f : Span → Span) : List (FunctionOf Stmt) → List (FunctionOf Stmt)
  | [] => []
  | ⟨name, params, type, body, s⟩ :: ds =>
    ⟨name, params, type, mapSpanAll f body, f s⟩ :: mapSpanFunctions f ds

def mapSpanElsifs (f : Span → Span) : List (ElsifOf Stmt) → List (ElsifOf Stmt)
  | [] => []
  | ⟨condition, body⟩ :: es => ⟨condition.mapSpan f, mapSpanAll f body⟩ :: mapSpanElsifs f es

end

@[simp] theorem mapSpanAll_eq_map (f : Span → Span) (ss : List Stmt) :
    mapSpanAll f ss = ss.map (mapSpan f) := by
  induction ss with
  | nil => rw [mapSpanAll, List.map_nil]
  | cons s ss ih => rw [mapSpanAll, ih, List.map_cons]

end Stmt

def FunctionOf.mapSpan (f : Span → Span) (d : FunctionDecl) : FunctionDecl :=
  ⟨d.name, d.params, d.returnType, d.body.map (Stmt.mapSpan f), f d.span⟩

def ElsifOf.mapSpan (f : Span → Span) (e : Elsif) : Elsif :=
  ⟨e.condition.mapSpan f, e.body.map (Stmt.mapSpan f)⟩

@[simp] theorem Stmt.mapSpanFunctions_eq_map (f : Span → Span) (ds : List FunctionDecl) :
    mapSpanFunctions f ds = ds.map (FunctionOf.mapSpan f) := by
  induction ds with
  | nil => rw [mapSpanFunctions, List.map_nil]
  | cons d ds ih => rw [mapSpanFunctions, ih, List.map_cons, mapSpanAll_eq_map, FunctionOf.mapSpan]

@[simp] theorem Stmt.mapSpanElsifs_eq_map (f : Span → Span) (es : List Elsif) :
    mapSpanElsifs f es = es.map (ElsifOf.mapSpan f) := by
  induction es with
  | nil => rw [mapSpanElsifs, List.map_nil]
  | cons e es ih => rw [mapSpanElsifs, ih, List.map_cons, mapSpanAll_eq_map, ElsifOf.mapSpan]

def ClassOf.mapSpan (f : Span → Span) (c : ClassDecl) : ClassDecl :=
  ⟨c.name, c.properties, c.methods.map (FunctionOf.mapSpan f), f c.span⟩

def ComponentOf.mapSpan (f : Span → Span) (c : ComponentDecl) : ComponentDecl :=
  ⟨c.name, c.props.map (Entry.mapSpan f), c.state.map (Entry.mapSpan f),
    c.methods.map (FunctionOf.mapSpan f), c.render.map (RenderBlock.mapSpan f),
    c.style.map (StyleBlock.mapSpan f), f c.span⟩

namespace Stmt

@[simp] theorem mapSpan_function (f : Span → Span) (d : FunctionDecl) :
    (Stmt.function d).mapSpan f = .function (d.mapSpan f) := by
  rw [mapSpan, mapSpanAll_eq_map, FunctionOf.mapSpan]

@[simp] theorem mapSpan_classDecl (f : Span → Span) (c : ClassDecl) :
    (Stmt.classDecl c).mapSpan f = .classDecl (c.mapSpan f) := by
  rw [mapSpan, mapSpanFunctions_eq_map, ClassOf.mapSpan]

@[simp] theorem mapSpan_component (f : Span → Span) (c : ComponentDecl) :
    (Stmt.component c).mapSpan f = .component (c.mapSpan f) := by
  rw [mapSpan, mapSpanFunctions_eq_map, ComponentOf.mapSpan]

end Stmt

def Program.mapSpan (f : Span → Span) (p : Program) : Program := ⟨p.body.map (Stmt.mapSpan f)⟩

def SyntaxError.mapSpan (f : Span → Span) (e : SyntaxError) : SyntaxError :=
  ⟨e.cause, e.actual.mapSpan f⟩

/-! ### No change -/

theorem option_map_self {g : α → α} (h : ∀ a, g a = a) (a : Option α) : a.map g = a := by
  rw [funext h]
  exact Option.map_id_apply

mutual

theorem Expr.mapSpan_id : (e : Expr) → e.mapSpan id = e
  | .string .. | .template .. | .number .. | .boolean .. | .null .. | .identifier ..
  | .instanceVar ..
  | .instanceVarAccess .. | .interpolation .. => by simp only [mapSpan, id_eq]
  | .propertyAccess object _ _ => by simp only [mapSpan, id_eq, mapSpan_id object]
  | .construct _ args _ | .call _ args _ | .instanceMethodCall _ args _ => by
    simp only [mapSpan, id_eq, mapSpanAll_id args]
  | .methodCall object _ args _ => by
    simp only [mapSpan, id_eq, mapSpan_id object, mapSpanAll_id args]
  | .binary left _ right _ _ => by simp only [mapSpan, id_eq, mapSpan_id left, mapSpan_id right]

theorem Expr.mapSpanAll_id : (es : List Expr) → mapSpanAll id es = es
  | [] => by rw [mapSpanAll]
  | e :: es => by rw [mapSpanAll, mapSpan_id e, mapSpanAll_id es]

end

theorem Entry.mapSpan_id (e : Entry) : e.mapSpan id = e := by
  rw [mapSpan, option_map_self Expr.mapSpan_id, id]

theorem map_attribute_id (as : List Attribute) : as.map (Attribute.mapSpan id) = as :=
  List.map_id'' (fun a => by rw [Attribute.mapSpan, Expr.mapSpan_id]) as

mutual

theorem Markup.mapSpan_id : (m : Markup) → m.mapSpan id = m
  | .text .. | .interpolation .. => by simp only [mapSpan, id_eq]
  | .element ⟨_, _, attributes, children, _⟩ => by
    simp only [mapSpan, id_eq, mapSpanAll_id children, map_attribute_id]

theorem Markup.mapSpanAll_id : (ms : List Markup) → mapSpanAll id ms = ms
  | [] => by rw [mapSpanAll]
  | m :: ms => by rw [mapSpanAll, mapSpan_id m, mapSpanAll_id ms]

end

theorem ElementOf.mapSpan_id (e : Element) : e.mapSpan id = e := by
  rw [mapSpan, map_attribute_id, List.map_id'' Markup.mapSpan_id, id]

theorem RenderBlock.mapSpan_id (r : RenderBlock) : r.mapSpan id = r := by
  rw [mapSpan, List.map_id'' ElementOf.mapSpan_id, id]

theorem StyleBlock.mapSpan_id (b : StyleBlock) : b.mapSpan id = b := by
  have hdeclaration (d : StyleDeclaration) : d.mapSpan id = d := by
    rw [StyleDeclaration.mapSpan, Expr.mapSpan_id]
  have hrule (r : StyleRule) : r.mapSpan id = r := by
    rw [StyleRule.mapSpan, List.map_id'' hdeclaration]
  rw [mapSpan, List.map_id'' hrule, id]

namespace Stmt

mutual

theorem mapSpan_id : (s : Stmt) → s.mapSpan id = s
  | .function ⟨_, _, _, body, _⟩ => by simp only [mapSpan, id_eq, mapSpanAll_id body]
  | .classDecl ⟨_, _, methods, _⟩ => by simp only [mapSpan, id_eq, mapSpanFunctions_id methods]
  | .component ⟨_, props, state, methods, render, style, _⟩ => by
    simp only [mapSpan, id_eq, mapSpanFunctions_id methods, List.map_id'' Entry.mapSpan_id,
      option_map_self RenderBlock.mapSpan_id, option_map_self StyleBlock.mapSpan_id]
  | .assign .. | .assignProperty .. | .assignInstanceVar .. | .print .. | .give .. | .expr .. => by
    simp only [mapSpan, id_eq, Expr.mapSpan_id, option_map_self Expr.mapSpan_id]
  | .branch _ body elsifs otherwise _ _ => by
    simp only [mapSpan, id_eq, Expr.mapSpan_id, mapSpanAll_id body, mapSpanElsifs_id elsifs,
      mapSpanAll_id otherwise]

theorem mapSpanAll_id : (ss : List Stmt) → mapSpanAll id ss = ss
  | [] => by rw [mapSpanAll]
  | s :: ss => by rw [mapSpanAll, mapSpan_id s, mapSpanAll_id ss]

theorem mapSpanFunctions_id : (ds : List (FunctionOf Stmt)) → mapSpanFunctions id ds = ds
  | [] => by rw [mapSpanFunctions]
  | ⟨_, _, _, body, _⟩ :: ds => by
    rw [mapSpanFunctions, mapSpanAll_id body, mapSpanFunctions_id ds, id]

theorem mapSpanElsifs_id : (es : List (ElsifOf Stmt)) → mapSpanElsifs id es = es
  | [] => by rw [mapSpanElsifs]
  | ⟨_, body⟩ :: es => by
    rw [mapSpanElsifs, Expr.mapSpan_id, mapSpanAll_id body, mapSpanElsifs_id es]

end

end Stmt

end LayoutScript

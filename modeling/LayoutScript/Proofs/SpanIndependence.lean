import LayoutScript.Compile
import LayoutScript.Proofs.Relocation
import LayoutScript.Proofs.Components
import LayoutScript.Proofs.MarkupLines

/-! No span reaches a script: a program whose spans are changed has the same script, and where it
has none, the node without a counterpart is the same up to its span. -/
namespace LayoutScript

open LayoutScript.Script (Scope Statement Method)

def UnknownNode.mapSpan (f : Span → Span) (e : UnknownNode) : UnknownNode := ⟨e.kind, f e.span⟩

variable (f : Span → Span)

/-! ### Expressions -/

namespace Expr

mutual

@[simp] theorem emit_mapSpan (scope : Scope) (e : Expr) :
    (e.mapSpan f).emit scope = e.emit scope := by
  cases e with
  | string | template | number | boolean | null | identifier | instanceVar | instanceVarAccess
  | interpolation => rw [mapSpan, emit, emit]
  | propertyAccess object properties s => rw [mapSpan, emit, emit, emit_mapSpan scope object]
  | construct name args s | call name args s | instanceMethodCall name args s =>
    rw [mapSpan, emit, emit, emitAll_mapSpan scope args]
  | methodCall object method args s =>
    rw [mapSpan, emit, emit, emit_mapSpan scope object, emitAll_mapSpan scope args]
  | binary left operator right grouped s =>
    rw [mapSpan, emit, emit, emit_mapSpan scope left, emit_mapSpan scope right]

theorem emitAll_mapSpan (scope : Scope) (es : List Expr) :
    emitAll scope (mapSpanAll f es) = emitAll scope es := by
  cases es with
  | nil => rfl
  | cons e es => rw [mapSpanAll, emitAll, emitAll, emit_mapSpan scope e, emitAll_mapSpan scope es]

end

theorem emitArgs_mapSpan (scope : Scope) (es : List Expr) :
    emitArgs scope (es.map (mapSpan f)) = emitArgs scope es := by
  rw [emitArgs, emitArgs, ← mapSpanAll_eq_map, emitAll_mapSpan]

theorem map_emit_mapSpan (scope : Scope) (e : Option Expr) :
    (e.map (mapSpan f)).map (emit scope) = e.map (emit scope) := by
  cases e with
  | none => rfl
  | some e => exact congrArg some (emit_mapSpan f scope e)

end Expr

/-! ### Markup -/

namespace Attribute

@[simp] theorem classes?_mapSpan (a : Attribute) : (a.mapSpan f).classes? = a.classes? := by
  obtain ⟨name, value⟩ := a
  by_cases hname : name = "class"
  · subst hname
    cases value <;> simp only [mapSpan, Expr.mapSpan, classes?]
  · have hnone : ∀ value, (⟨name, value⟩ : Attribute).classes? = none := by
      intro value
      unfold classes?
      split
      · contradiction
      · rfl
    rw [mapSpan, hnone, hnone]

@[simp] theorem emitValue_mapSpan (scope : Scope) (a : Attribute) :
    (a.mapSpan f).emitValue scope = a.emitValue scope := by
  obtain ⟨name, value⟩ := a
  cases value with
  | instanceMethodCall method args s =>
    have hargs := Expr.emitArgs_mapSpan f scope args
    have hvalue := Expr.emit_mapSpan f scope (.instanceMethodCall method args s)
    rw [Expr.mapSpan, Expr.mapSpanAll_eq_map] at hvalue
    cases args <;> cases hevent : Script.eventName? name <;>
      simp_all [mapSpan, Expr.mapSpan, emitValue]
  | string value s => simp only [mapSpan, Expr.mapSpan, emitValue, Expr.emit]
  | _ =>
    simp only [mapSpan, emitValue, Expr.mapSpan, Expr.emit, Expr.emit_mapSpan,
      Expr.emitAll_mapSpan]

@[simp] theorem emit_mapSpan (scope : Scope) (a : Attribute) :
    (a.mapSpan f).emit scope = a.emit scope := by
  rw [emit, emit, emitValue_mapSpan, mapSpan]

theorem emitAll_mapSpan (scope : Scope) (className : String) (attributes : List Attribute) :
    emitAll scope className (attributes.map (mapSpan f)) = emitAll scope className attributes := by
  simp only [emitAll, List.filterMap_map, List.filter_map, List.map_map, Function.comp_def,
    classes?_mapSpan, emit_mapSpan]

end Attribute

namespace Markup

@[simp] theorem isElement_mapSpan (m : Markup) : (m.mapSpan f).isElement = m.isElement := by
  cases m <;> simp only [mapSpan, isElement]

@[simp] theorem inlineText_mapSpan (m : Markup) : (m.mapSpan f).inlineText = m.inlineText := by
  cases m <;> simp only [mapSpan, inlineText, emitInline, Except.toOption]

mutual

@[simp] theorem lines_mapSpan (scope : Scope) (indent : Nat) (m : Markup) :
    (m.mapSpan f).lines scope indent = m.lines scope indent := by
  cases m with
  | text | interpolation => simp only [mapSpan, lines, inlineText, emitInline]
  | element e =>
    obtain ⟨tag, className, attributes, children, s⟩ := e
    have hlines := allLines_mapSpan scope (indent + 1) children
    simp only [mapSpan, lines, elementLines, Attribute.emitAll_mapSpan, hlines]
    simp only [mapSpanAll_eq_map, List.isEmpty_map, List.any_map, List.map_map, Function.comp_def,
      isElement_mapSpan, inlineText_mapSpan]

theorem allLines_mapSpan (scope : Scope) (indent : Nat) (ms : List Markup) :
    allLines scope indent (mapSpanAll f ms) = allLines scope indent ms := by
  cases ms with
  | nil => rfl
  | cons m ms =>
    rw [mapSpanAll, allLines, allLines, lines_mapSpan scope indent m,
      allLines_mapSpan scope indent ms]

end

theorem elementLines_mapSpan (scope : Scope) (indent : Nat) (e : Element) :
    elementLines scope indent (e.mapSpan f) = elementLines scope indent e := by
  have h := lines_mapSpan f scope indent (.element e)
  rwa [mapSpan_element, lines, lines] at h

end Markup

@[simp] theorem RenderBlock.lines_mapSpan (scope : Scope) (indent : Nat) (r : Option RenderBlock) :
    RenderBlock.lines scope indent (r.map (mapSpan f)) = RenderBlock.lines scope indent r := by
  obtain _ | ⟨_ | ⟨e, _ | ⟨e', es⟩⟩, s⟩ := r
  · rfl
  · rfl
  · simp only [Option.map_some, mapSpan, List.map_cons, List.map_nil, lines,
      Markup.elementLines_mapSpan]
  · simp only [Option.map_some, mapSpan, List.map_cons, lines, List.flatMap_cons,
      List.flatMap_map, Markup.elementLines_mapSpan]

theorem StyleBlock.lower_mapSpan (name : String) (b : StyleBlock) :
    (b.mapSpan f).lower name = b.lower name := by
  simp only [lower, mapSpan, StyleRule.mapSpan, StyleDeclaration.mapSpan, List.map_map,
    Function.comp_def, Expr.emit_mapSpan]

/-! ### Statements -/

theorem allOk_mapError (g : ε → ε') (rs : List (Except ε α)) :
    allOk (rs.map (Except.mapError g)) = (allOk rs).mapError g := by
  induction rs with
  | nil => rfl
  | cons r rs ih =>
    cases r with
    | error e => rfl
    | ok a =>
      change allOk (.ok a :: rs.map (Except.mapError g)) = _
      rw [allOk, ih, allOk]
      cases allOk rs <;> rfl

@[simp] theorem constructorFirst_map (g : α → β) (members : List (Bool × α)) :
    constructorFirst (members.map (Prod.map id g)) = (constructorFirst members).map g := by
  have hkey : Prod.fst ∘ Prod.map id g = (Prod.fst : Bool × α → Bool) := rfl
  have hvalue : Prod.snd ∘ Prod.map id g = g ∘ (Prod.snd : Bool × α → α) := rfl
  have hother : (fun m => !m.1) ∘ Prod.map id g = fun m : Bool × α => !m.1 := rfl
  rw [constructorFirst, constructorFirst, List.find?_map, List.filter_map, hkey, hother,
    Option.toList_map, ← List.map_append, List.map_map, List.map_map, hvalue]

namespace Stmt

theorem lowerExpr_mapSpan (scope : Scope) (e : Expr) :
    lowerExpr scope (e.mapSpan f) = (lowerExpr scope e).mapError (UnknownNode.mapSpan f) := by
  have hemit := Expr.emit_mapSpan f scope e
  cases e <;> simp only [Expr.mapSpan, lowerExpr] at hemit ⊢ <;>
    first | rw [hemit]; rfl | rfl

mutual

theorem lower_mapSpan (scope : Scope) (s : Stmt) :
    (s.mapSpan f).lower scope = (s.lower scope).mapError (UnknownNode.mapSpan f) := by
  cases s with
  | function d =>
    obtain ⟨name, params, type, body, s⟩ := d
    rw [mapSpan, lower, lower, lowerFunction, lowerFunction,
      lowerAll_mapSpan (scope.declareAll (Param.names params)) body]
    cases lowerAll (scope.declareAll (Param.names params)) body <;> rfl
  | classDecl c =>
    obtain ⟨name, properties, methods, s⟩ := c
    rw [mapSpan, lower, lower, lowerMembers_mapSpan methods, constructorFirst_map, allOk_mapError]
    cases allOk (constructorFirst (lowerMembers methods)) <;> rfl
  | component c => rfl
  | assign name value s =>
    rw [mapSpan, lower, lower, Expr.emit_mapSpan]
    split <;> rfl
  | assignProperty object properties target value s =>
    rw [mapSpan, lower, lower, Expr.emit, Expr.emit, Expr.emit_mapSpan, Expr.emit_mapSpan]
    rfl
  | assignInstanceVar name value s =>
    rw [mapSpan, lower, lower, Expr.emit_mapSpan]
    split <;> rfl
  | print value s =>
    rw [mapSpan, lower, lower, Expr.emit_mapSpan]
    rfl
  | give value s =>
    rw [mapSpan, lower, lower, Expr.map_emit_mapSpan]
    rfl
  | branch condition body elsifs otherwise hasElse s =>
    rw [mapSpan, lower, lower, lowerAll_mapSpan scope body, lowerElsifs_mapSpan scope elsifs,
      lowerAll_mapSpan scope otherwise, Expr.emit_mapSpan]
    cases lowerAll scope body with
    | error e => rfl
    | ok b =>
      cases lowerElsifs scope elsifs with
      | error e => rfl
      | ok es => cases lowerAll scope otherwise <;> cases hasElse <;> rfl
  | expr e =>
    rw [mapSpan, lower, lower, lowerExpr_mapSpan]
    cases lowerExpr scope e <;> rfl

theorem lowerMembers_mapSpan (fs : List (FunctionOf Stmt)) :
    lowerMembers (mapSpanFunctions f fs) =
      (lowerMembers fs).map (Prod.map id (Except.mapError (UnknownNode.mapSpan f))) := by
  cases fs with
  | nil => rfl
  | cons d fs =>
    obtain ⟨name, params, type, body, s⟩ := d
    rw [mapSpanFunctions, lowerMembers, lowerMembers, lowerMembers_mapSpan fs,
      lowerAll_mapSpan (Scope.empty.declareAll (Param.names params)) body]
    cases lowerAll (Scope.empty.declareAll (Param.names params)) body <;> rfl

theorem lowerElsifs_mapSpan (scope : Scope) (es : List (ElsifOf Stmt)) :
    lowerElsifs scope (mapSpanElsifs f es) =
      (lowerElsifs scope es).mapError (UnknownNode.mapSpan f) := by
  cases es with
  | nil => rfl
  | cons e es =>
    obtain ⟨condition, body⟩ := e
    rw [mapSpanElsifs, lowerElsifs, lowerElsifs, lowerAll_mapSpan scope body,
      lowerElsifs_mapSpan scope es, Expr.emit_mapSpan]
    cases lowerAll scope body with
    | error e => rfl
    | ok b => cases lowerElsifs scope es <;> rfl

theorem lowerAll_mapSpan (scope : Scope) (ss : List Stmt) :
    lowerAll scope (mapSpanAll f ss) = (lowerAll scope ss).mapError (UnknownNode.mapSpan f) := by
  cases ss with
  | nil => rfl
  | cons s ss =>
    rw [mapSpanAll, lowerAll, lowerAll, lower_mapSpan scope s]
    cases lower scope s with
    | error e => rfl
    | ok r =>
      obtain ⟨t, after⟩ := r
      simp only [mapError_ok, lowerAll_mapSpan after ss]
      cases lowerAll after ss <;> rfl

end

theorem lowerFunction_mapSpan (scope : Scope) (d : FunctionDecl) :
    lowerFunction scope (d.mapSpan f) =
      (lowerFunction scope d).mapError (UnknownNode.mapSpan f) := by
  rw [FunctionOf.mapSpan, lowerFunction, lowerFunction, ← mapSpanAll_eq_map, lowerAll_mapSpan]
  cases lowerAll (scope.declareAll (Param.names d.params)) d.body <;> rfl

end Stmt

/-! ### Components and programs -/

namespace ComponentOf

theorem scope_mapSpan (c : ComponentDecl) : (c.mapSpan f).scope = c.scope := by
  simp only [scope, mapSpan, stateNames, List.map_map, Function.comp_def, Entry.mapSpan,
    FunctionOf.mapSpan]

theorem lower_mapSpan (styledCount before : Nat) (c : ComponentDecl) :
    (c.mapSpan f).lower styledCount before =
      (c.lower styledCount before).mapError (UnknownNode.mapSpan f) := by
  have hmethods : (c.mapSpan f).methods.map (Stmt.lowerFunction c.scope) =
      (c.methods.map (Stmt.lowerFunction c.scope)).map
        (Except.mapError (UnknownNode.mapSpan f)) := by
    simp only [mapSpan, List.map_map, Function.comp_def, Stmt.lowerFunction_mapSpan]
  have hcells : (c.mapSpan f).state.map (lowerCell c.scope) = c.state.map (lowerCell c.scope) := by
    rw [mapSpan, List.map_map]
    refine List.map_congr_left fun e _ => ?_
    rw [Function.comp_apply, lowerCell, lowerCell, Entry.mapSpan, Expr.map_emit_mapSpan]
  have hprops : (c.mapSpan f).props.map (fun e => (e.name, e.value.map (Expr.emit c.scope))) =
      c.props.map fun e => (e.name, e.value.map (Expr.emit c.scope)) := by
    simp only [mapSpan, List.map_map, Function.comp_def, Entry.mapSpan, Expr.map_emit_mapSpan]
  have hstyle : ∀ name, (c.mapSpan f).style.map (StyleBlock.lower name) =
      c.style.map (StyleBlock.lower name) := by
    intro name
    simp only [mapSpan, Option.map_map, Function.comp_def, StyleBlock.lower_mapSpan]
  simp only [lower_eq, scope_mapSpan, hmethods, allOk_mapError, hcells, hprops, hstyle]
  cases allOk (c.methods.map (Stmt.lowerFunction c.scope)) with
  | error e => rfl
  | ok ms => simp only [mapSpan, RenderBlock.lines_mapSpan, mapError_ok]

end ComponentOf

namespace Stmt

mutual

theorem components_mapSpan (s : Stmt) :
    (s.mapSpan f).components = s.components.map (ComponentOf.mapSpan f) := by
  cases s with
  | function d =>
    obtain ⟨name, params, type, body, s⟩ := d
    rw [mapSpan, components, components, functionComponents, functionComponents,
      allComponents_mapSpan body]
  | classDecl c =>
    obtain ⟨name, properties, methods, s⟩ := c
    rw [mapSpan, components, components, methodComponents_mapSpan methods]
  | component c => rw [mapSpan_component, components, components, List.map_singleton]
  | branch condition body elsifs otherwise hasElse s =>
    rw [mapSpan, components, components, allComponents_mapSpan body, elsifComponents_mapSpan elsifs,
      allComponents_mapSpan otherwise, List.map_append, List.map_append]
  | assign | assignProperty | assignInstanceVar | print | give | expr =>
    rw [mapSpan, components, components, List.map_nil]

theorem methodComponents_mapSpan (fs : List (FunctionOf Stmt)) :
    methodComponents (mapSpanFunctions f fs) =
      (methodComponents fs).map (ComponentOf.mapSpan f) := by
  cases fs with
  | nil => rfl
  | cons d fs =>
    obtain ⟨name, params, type, body, s⟩ := d
    rw [mapSpanFunctions, methodComponents, methodComponents, functionComponents,
      functionComponents, allComponents_mapSpan body, methodComponents_mapSpan fs, List.map_append]

theorem elsifComponents_mapSpan (es : List (ElsifOf Stmt)) :
    elsifComponents (mapSpanElsifs f es) = (elsifComponents es).map (ComponentOf.mapSpan f) := by
  cases es with
  | nil => rfl
  | cons e es =>
    obtain ⟨condition, body⟩ := e
    rw [mapSpanElsifs, elsifComponents, elsifComponents, allComponents_mapSpan body,
      elsifComponents_mapSpan es, List.map_append]

theorem allComponents_mapSpan (ss : List Stmt) :
    allComponents (mapSpanAll f ss) = (allComponents ss).map (ComponentOf.mapSpan f) := by
  cases ss with
  | nil => rfl
  | cons s ss =>
    rw [mapSpanAll, allComponents, allComponents, components_mapSpan s, allComponents_mapSpan ss,
      List.map_append]

end

end Stmt

namespace Program

theorem components_mapSpan (p : Program) :
    (p.mapSpan f).components = p.components.map (ComponentOf.mapSpan f) := by
  rw [components, components, mapSpan, ← Stmt.mapSpanAll_eq_map, Stmt.allComponents_mapSpan]

theorem survey_mapSpan (p : Program) : (p.mapSpan f).survey = p.survey := by
  simp only [survey_eq, components_mapSpan, List.isEmpty_map, List.any_map, List.countP_map,
    Function.comp_def, ComponentOf.mapSpan, Option.isSome_map]

theorem imported_mapSpan (p : Program) : (p.mapSpan f).imported = p.imported := by
  rw [imported, imported, hasState, hasState, survey_mapSpan]

theorem styledCount_mapSpan (p : Program) : (p.mapSpan f).styledCount = p.styledCount := by
  rw [styledCount, styledCount, survey_mapSpan]

theorem lowerItems_mapSpan (styledCount : Nat) (scope : Scope) (before : Nat) (body : List Stmt) :
    lowerItems styledCount scope before (body.map (Stmt.mapSpan f)) =
      (lowerItems styledCount scope before body).mapError (UnknownNode.mapSpan f) := by
  induction body generalizing scope before with
  | nil => rfl
  | cons s body ih =>
    rw [List.map_cons]
    by_cases hs : ∃ c, s = .component c
    · obtain ⟨c, rfl⟩ := hs
      rw [Stmt.mapSpan_component, lowerItems, lowerItems, ComponentOf.lower_mapSpan, ih]
      cases c.lower styledCount before with
      | error e => rfl
      | ok c => cases lowerItems styledCount scope (before + 1) body <;> rfl
    · have hne : ∀ c, s ≠ .component c := fun c hc => hs ⟨c, hc⟩
      have hne' : ∀ c, s.mapSpan f ≠ .component c := by
        intro c
        cases s with
        | component c => exact absurd rfl (hne c)
        | _ => simp only [Stmt.mapSpan, ne_eq, reduceCtorEq, not_false_eq_true]
      rw [lowerItems, lowerItems, Stmt.lower_mapSpan]
      · cases s.lower scope with
        | error e => rfl
        | ok r =>
          obtain ⟨t, after⟩ := r
          simp only [mapError_ok, ih]
          cases lowerItems styledCount after before body <;> rfl
      · exact hne
      · exact hne'

theorem generate_mapSpan (options : Script.Options) (p : Program) :
    (p.mapSpan f).generate options = (p.generate options).mapError (UnknownNode.mapSpan f) := by
  rw [generate, generate, lower, lower, styledCount_mapSpan, imported_mapSpan, mapSpan,
    lowerItems_mapSpan]
  cases lowerItems p.styledCount .empty 0 p.body <;> rfl

theorem generate_of_mapSpan_eq {p q : Program} (h : p.mapSpan f = q.mapSpan f)
    {options : Script.Options} {script : String} (hp : p.generate options = .ok script) :
    q.generate options = .ok script := by
  have hscript := generate_mapSpan f options p
  rw [h, generate_mapSpan, hp] at hscript
  cases hq : q.generate options with
  | error e =>
    rw [hq] at hscript
    cases hscript
  | ok other =>
    rw [hq] at hscript
    exact hscript

end Program

end LayoutScript

import LayoutScript.Script.Component

/-! Elements always have a script. Text and interpolations go inline and elements on lines of their
own, so that no element gets to where it would have no counterpart; their lines can be told without
the failure. -/
namespace LayoutScript

open LayoutScript.Script (Scope Line)

theorem allOk_map_eq_ok {as : List α} {f : α → Except ε β} {g : α → β}
    (h : ∀ a ∈ as, f a = .ok (g a)) : allOk (as.map f) = .ok (as.map g) := by
  induction as with
  | nil => rfl
  | cons a as ih =>
    obtain ⟨ha, has⟩ := List.forall_mem_cons.1 h
    rw [List.map_cons, ha, allOk, ih has, List.map_cons]

namespace Markup

/-- What stands inline for content that is no element. -/
def inlineText (m : Markup) : String := m.emitInline.toOption.getD ""

theorem emitInline_eq_ok_iff {m : Markup} :
    m.emitInline = .ok m.inlineText ↔ m.isElement = false := by
  cases m <;> simp [emitInline, inlineText, isElement, Except.toOption]

mutual

def lines (scope : Scope) (indent : Nat) : Markup → List Line
  | .element e => elementLines scope indent e
  | m => [⟨indent, m.inlineText⟩]

def elementLines (scope : Scope) (indent : Nat) : ElementOf Markup → List Line
  | ⟨tag, className, attributes, children, _⟩ =>
    let opening := "<" ++ tag ++ Attribute.emitAll scope className attributes
    if children.isEmpty then [⟨indent, opening ++ " />"⟩]
    else if children.any isElement then
      ⟨indent, opening ++ ">"⟩ :: allLines scope (indent + 1) children ++
        [⟨indent, "</" ++ tag ++ ">"⟩]
    else
      [⟨indent, opening ++ ">" ++ String.join (children.map inlineText) ++ "</" ++ tag ++ ">"⟩]

def allLines (scope : Scope) (indent : Nat) : List Markup → List Line
  | [] => []
  | m :: ms => lines scope indent m ++ allLines scope indent ms

end

mutual

theorem emitLines_eq_ok (scope : Scope) (indent : Nat) (m : Markup) :
    emitLines scope indent m = .ok (lines scope indent m) := by
  cases m with
  | element e => rw [emitLines, lines, emitElement_eq_ok scope indent e]
  | text | interpolation => simp [emitLines, lines, emitInline, inlineText, Except.toOption]

theorem emitElement_eq_ok (scope : Scope) (indent : Nat) (e : Element) :
    emitElement scope indent e = .ok (elementLines scope indent e) := by
  obtain ⟨tag, className, attributes, children, span⟩ := e
  rw [emitElement, elementLines, emitAll_eq_ok scope (indent + 1) children]
  dsimp only
  split
  · rfl
  · split
    · rfl
    · next hnone =>
      -- Here no child is an element.
      have hinline : ∀ m ∈ children, m.emitInline = .ok m.inlineText := by
        intro m hm
        rw [emitInline_eq_ok_iff]
        simpa using fun h => hnone (List.any_eq_true.2 ⟨m, hm, h⟩)
      rw [allOk_map_eq_ok hinline]

theorem emitAll_eq_ok (scope : Scope) (indent : Nat) (ms : List Markup) :
    emitAll scope indent ms = .ok (allLines scope indent ms) := by
  cases ms with
  | nil => rw [emitAll, allLines]
  | cons m ms =>
    rw [emitAll, allLines, emitLines_eq_ok scope indent m, emitAll_eq_ok scope indent ms]

end

end Markup

def RenderBlock.lines (scope : Scope) (indent : Nat) : Option RenderBlock → List Line
  | none | some ⟨[], _⟩ => [⟨indent, "return null;"⟩]
  | some ⟨[e], _⟩ =>
    ⟨indent, "return ("⟩ :: Markup.elementLines scope (indent + 1) e ++ [⟨indent, ");"⟩]
  | some ⟨elements, _⟩ =>
    ⟨indent, "return ("⟩ :: ⟨indent + 1, "<>"⟩ ::
      elements.flatMap (Markup.elementLines scope (indent + 2)) ++
      [⟨indent + 1, "</>"⟩, ⟨indent, ");"⟩]

theorem RenderBlock.emit_eq_ok (scope : Scope) (indent : Nat) (render : Option RenderBlock) :
    emit scope indent render = .ok (lines scope indent render) := by
  match render with
  | none | some ⟨[], _⟩ => rfl
  | some ⟨[e], _⟩ => rw [emit, Markup.emitElement_eq_ok, lines]
  | some ⟨e :: f :: es, _⟩ =>
    rw [emit, allOk_map_eq_ok fun e _ => Markup.emitElement_eq_ok scope (indent + 2) e, lines,
      List.flatMap_def]
    all_goals simp

theorem ComponentOf.lower_eq (styledCount before : Nat) (c : ComponentDecl) :
    c.lower styledCount before =
      match allOk (c.methods.map (Stmt.lowerFunction c.scope)) with
      | .error e => .error e
      | .ok methods =>
        .ok {
          name := c.name
          props := c.props.map fun e => (e.name, e.value.map (Expr.emit c.scope))
          cells := c.state.map (lowerCell c.scope)
          methods := methods
          view := RenderBlock.lines c.scope 1 c.render
          styles := c.style.map (StyleBlock.lower (Script.stylesName styledCount c.name))
          isDefault := before == 0 } := by
  cases h : allOk (c.methods.map (Stmt.lowerFunction c.scope)) <;>
    simp only [lower, RenderBlock.emit_eq_ok, h]

theorem ComponentOf.eq_of_lower {c : ComponentDecl} {component : Script.Component}
    {styledCount before : Nat} (h : c.lower styledCount before = .ok component) : component = {
    name := c.name
    props := c.props.map fun e => (e.name, e.value.map (Expr.emit c.scope))
    cells := c.state.map (lowerCell c.scope)
    methods := component.methods
    view := RenderBlock.lines c.scope 1 c.render
    styles := c.style.map (StyleBlock.lower (Script.stylesName styledCount c.name))
    isDefault := before == 0 } := by
  rw [lower_eq] at h
  split at h
  · cases h
  · cases h
    rfl

end LayoutScript

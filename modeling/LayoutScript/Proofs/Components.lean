import LayoutScript.Proofs.OutlineWalk
import LayoutScript.Syntax.Survey

/-! The components of a program: those that stand in no other component, in source order. They are
the component nodes of a walk that does not go into components, and both the survey and the question
whether a program is a module come down to them, although they walk in different ways. -/
namespace LayoutScript

open LayoutScript.Outline
  (nodesOf nodesOf_append nodesOf_cons nodesOf_node nodesOf_self SeeksDeclarations)

namespace Stmt

mutual

def components : Stmt → List ComponentDecl
  | .component c => [c]
  | .function f => functionComponents f
  | .classDecl ⟨_, _, methods, _⟩ => methodComponents methods
  | .branch _ body elsifs otherwise _ _ =>
    allComponents body ++ elsifComponents elsifs ++ allComponents otherwise
  | .assign .. | .assignProperty .. | .assignInstanceVar .. | .print .. | .give .. | .expr _ => []

def functionComponents : FunctionOf Stmt → List ComponentDecl
  | ⟨_, _, _, body, _⟩ => allComponents body

def methodComponents : List (FunctionOf Stmt) → List ComponentDecl
  | [] => []
  | f :: fs => functionComponents f ++ methodComponents fs

def elsifComponents : List (ElsifOf Stmt) → List ComponentDecl
  | [] => []
  | ⟨_, body⟩ :: es => allComponents body ++ elsifComponents es

def allComponents : List Stmt → List ComponentDecl
  | [] => []
  | s :: ss => components s ++ allComponents ss

end

end Stmt

def Program.components (p : Program) : List ComponentDecl := Stmt.allComponents p.body

/-! ### As nodes of the outline -/

namespace Outline

def isComponent (k : NodeKind) : Bool := k == .componentDeclaration

theorem seeksComponents : SeeksDeclarations isComponent .componentDeclaration where
  kind := rfl
  skip k h := by
    rw [isComponent, beq_eq_false_iff_ne]
    rintro rfl
    cases h

end Outline

open LayoutScript.Outline (isComponent seeksComponents)

def ComponentOf.outline (c : ComponentDecl) : Outline := (Stmt.component c).outline

namespace Stmt

mutual

theorem componentNodes_outline (s : Stmt) :
    nodesOf isComponent .componentDeclaration [s.outline] =
      s.components.map ComponentOf.outline := by
  cases s with
  | component c =>
    obtain ⟨name, props, state, methods, render, style, span⟩ := c
    rw [outline, nodesOf_self, components, List.map_singleton, ComponentOf.outline, outline]
    rfl
  | function f =>
    rw [outline, components]
    exact componentNodes_functionOutline f
  | classDecl c =>
    obtain ⟨name, properties, methods, s⟩ := c
    rw [outline, components, nodesOf_node (by decide) (by decide)]
    exact componentNodes_functionOutlines methods
  | branch condition body elsifs otherwise hasElse s =>
    rw [outline, components, nodesOf_node (by decide) (by decide), List.cons_append,
      List.cons_append, nodesOf_cons, Expr.nodesOf_outline seeksComponents, List.nil_append,
      nodesOf_append, nodesOf_append, componentNodes_outlines body,
      componentNodes_elsifOutlines elsifs, componentNodes_outlines otherwise, List.map_append,
      List.map_append]
  | assign name value s | assignInstanceVar name value s | print value s =>
    rw [outline, components, nodesOf_node (by decide) (by decide),
      Expr.nodesOf_outline seeksComponents]
    rfl
  | assignProperty object properties target value s =>
    rw [outline, components, nodesOf_node (by decide) (by decide), nodesOf_cons,
      nodesOf_node (by decide) (by decide), Expr.nodesOf_outline seeksComponents,
      Expr.nodesOf_outline seeksComponents]
    rfl
  | give value s =>
    rw [outline, components, nodesOf_node (by decide) (by decide)]
    exact Expr.nodesOf_toList seeksComponents value
  | expr e =>
    rw [outline, components]
    exact Expr.nodesOf_outline seeksComponents e

theorem componentNodes_functionOutline (f : FunctionDecl) :
    nodesOf isComponent .componentDeclaration [functionOutline f] =
      (functionComponents f).map ComponentOf.outline := by
  obtain ⟨name, params, type, body, s⟩ := f
  rw [functionOutline, functionComponents, nodesOf_node (by decide) (by decide),
    componentNodes_outlines body]

theorem componentNodes_functionOutlines (fs : List FunctionDecl) :
    nodesOf isComponent .componentDeclaration (functionOutlines fs) =
      (methodComponents fs).map ComponentOf.outline := by
  cases fs with
  | nil => rfl
  | cons f fs =>
    rw [functionOutlines, methodComponents, nodesOf_cons, componentNodes_functionOutline f,
      componentNodes_functionOutlines fs, List.map_append]

theorem componentNodes_elsifOutlines (es : List Elsif) :
    nodesOf isComponent .componentDeclaration (elsifOutlines es) =
      (elsifComponents es).map ComponentOf.outline := by
  cases es with
  | nil => rfl
  | cons e es =>
    obtain ⟨condition, body⟩ := e
    rw [elsifOutlines, elsifComponents, List.cons_append, nodesOf_cons,
      Expr.nodesOf_outline seeksComponents, List.nil_append, nodesOf_append,
      componentNodes_outlines body, componentNodes_elsifOutlines es, List.map_append]

theorem componentNodes_outlines (ss : List Stmt) :
    nodesOf isComponent .componentDeclaration (outlines ss) =
      (allComponents ss).map ComponentOf.outline := by
  cases ss with
  | nil => rfl
  | cons s ss =>
    rw [outlines, allComponents, nodesOf_cons, componentNodes_outline s, componentNodes_outlines ss,
      List.map_append]

end

end Stmt

theorem Program.componentNodes_outline (p : Program) :
    nodesOf isComponent .componentDeclaration [p.outline] =
      p.components.map ComponentOf.outline := by
  rw [outline, nodesOf_node (by decide) (by decide), Stmt.componentNodes_outlines, components]

/-! ### What is found out about them -/

namespace Survey

def add (s : Survey) (c : ComponentDecl) : Survey where
  hasComponent := true
  hasState := s.hasState || !c.state.isEmpty
  styledCount := if c.style.isSome then s.styledCount + 1 else s.styledCount

def note (s : Survey) (o : Outline) : Survey := (visitor s o).1

theorem visitor_eq (s : Survey) (o : Outline) : visitor s o = (s.note o, !isComponent o.kind) := by
  unfold note visitor Outline.isComponent
  split
  · next h => rw [h]; rfl
  · next h => rw [beq_eq_false_iff_ne.2 h]; rfl

theorem note_of_ne {o : Outline} (s : Survey) (h : o.kind ≠ .componentDeclaration) :
    s.note o = s := by
  rw [note, visitor, if_neg h]

/-- The kinds of the children tell what a component declares. -/
theorem note_outline (s : Survey) (c : ComponentDecl) : s.note c.outline = s.add c := by
  obtain ⟨name, props, state, methods, render, style, span⟩ := c
  have hfunctions (k : NodeKind) (hk : k ≠ .functionDeclaration) (fs : List FunctionDecl) :
      (Stmt.functionOutlines fs).any (fun o => o.kind == k) = false := by
    induction fs with
    | nil => rfl
    | cons f fs ih =>
      obtain ⟨_, _, _, _, _⟩ := f
      rw [Stmt.functionOutlines, List.any_cons, ih, Stmt.functionOutline, Bool.or_false]
      exact beq_eq_false_iff_ne.2 (Ne.symm hk)
  have hother (k k' : NodeKind) (h : k' ≠ k) (entries : List Entry) :
      (entries.map (Entry.outline k')).any (fun o => o.kind == k) = false :=
    List.any_eq_false.2 (List.forall_mem_map.2 fun _ _ => mt beq_iff_eq.1 h)
  have hstate : (state.map (Entry.outline .stateDeclaration)).any
      (fun o => o.kind == .stateDeclaration) = !state.isEmpty := by
    cases state <;> rfl
  have hrender (k : NodeKind) (h : .renderBlock ≠ k) :
      (render.map RenderBlock.outline).toList.any (fun o => o.kind == k) = false := by
    cases render with
    | none => rfl
    | some r => exact (Bool.or_false _).trans (beq_eq_false_iff_ne.2 h)
  have hstyle (k : NodeKind) : (style.map StyleBlock.outline).toList.any (fun o => o.kind == k) =
      (style.isSome && .styleBlock == k) := by
    cases style with
    | none => rfl
    | some b => exact Bool.or_false _
  have hkind : (ComponentOf.outline ⟨name, props, state, methods, render, style, span⟩).kind =
      .componentDeclaration := by
    rw [ComponentOf.outline, Stmt.outline]
    rfl
  rw [note, visitor, if_pos hkind, add, ComponentOf.outline, Stmt.outline]
  simp only [Outline.children, List.any_append, hstate, hfunctions .stateDeclaration (by decide),
    hfunctions .styleBlock (by decide), hother .stateDeclaration .propDeclaration (by decide),
    hother .styleBlock .propDeclaration (by decide),
    hother .styleBlock .stateDeclaration (by decide), hrender .stateDeclaration (by decide),
    hrender .styleBlock (by decide), hstyle,
    show (NodeKind.styleBlock == NodeKind.stateDeclaration) = false by decide]
  simp

theorem foldl_note (s : Survey) (os : List Outline) :
    os.foldl note s = (os.filter fun o => o.kind == .componentDeclaration).foldl note s := by
  induction os generalizing s with
  | nil => rfl
  | cons o os ih =>
    by_cases h : o.kind = .componentDeclaration
    · rw [List.filter_cons, if_pos (beq_iff_eq.2 h), List.foldl_cons, List.foldl_cons, ih]
    · rw [List.filter_cons, if_neg (mt beq_iff_eq.1 h), List.foldl_cons, s.note_of_ne h, ih]

theorem foldl_add (s : Survey) (cs : List ComponentDecl) : cs.foldl add s = {
    hasComponent := s.hasComponent || !cs.isEmpty
    hasState := s.hasState || cs.any fun c => !c.state.isEmpty
    styledCount := s.styledCount + cs.countP fun c => c.style.isSome } := by
  induction cs generalizing s with
  | nil => simp
  | cons c cs ih =>
    rw [List.foldl_cons, ih, add]
    cases hstyle : c.style <;> simp [hstyle, Bool.or_assoc, Nat.add_assoc, Nat.add_comm]

end Survey

namespace Program

theorem filter_walk_outline (p : Program) :
    (p.outline.walk isComponent).filter (fun o => o.kind == .componentDeclaration) =
      p.components.map ComponentOf.outline := by
  rw [← p.componentNodes_outline, nodesOf, Outline.walkAll_cons, Outline.walkAll_nil,
    List.append_nil]

theorem survey_eq (p : Program) : p.survey = {
    hasComponent := !p.components.isEmpty
    hasState := p.components.any fun c => !c.state.isEmpty
    styledCount := p.components.countP fun c => c.style.isSome } := by
  have hvisitor : Survey.visitor = fun s o => (s.note o, !isComponent o.kind) :=
    funext fun s => funext fun o => s.visitor_eq o
  rw [survey, hvisitor, Outline.visit_eq_foldl, Survey.foldl_note, filter_walk_outline,
    List.foldl_map]
  simp only [Survey.note_outline]
  rw [Survey.foldl_add]
  simp [Survey.empty]

theorem hasState_eq (p : Program) : p.hasState = p.components.any fun c => !c.state.isEmpty := by
  rw [hasState, survey_eq]

theorem styledCount_eq (p : Program) :
    p.styledCount = p.components.countP fun c => c.style.isSome := by
  rw [styledCount, survey_eq]

/-- The walk that ends at the first component comes to the same as one that goes on. -/
theorem isModule_eq (p : Program) : p.isModule = !p.components.isEmpty := by
  have hvisit : p.isModule = (p.outline.walk isComponent).any fun o =>
      o.kind == .componentDeclaration :=
    Outline.visit_until isComponent false p.outline
  rw [hvisit, ← List.isEmpty_map (f := ComponentOf.outline), ← filter_walk_outline, Bool.eq_iff_iff]
  simp

end Program

end LayoutScript

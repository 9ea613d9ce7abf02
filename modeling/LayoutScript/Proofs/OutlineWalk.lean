import LayoutScript.Syntax.Outline

/-! Walks over outlines. A visitor that goes below a node or not by its kind sees the nodes of
`walk` in turn; and expressions, markup, entries and styles hold no declarations. -/
namespace LayoutScript

def NodeKind.isDeclaration : NodeKind → Bool
  | .functionDeclaration | .classDeclaration | .componentDeclaration => true
  | _ => false

namespace Outline

theorem induct {P : Outline → Prop}
    (h : ∀ kind span children, (∀ c ∈ children, P c) → P (.node kind span children)) : ∀ o, P o
  | .node kind span children => h kind span children fun c _ => induct h c

section Walk

variable (skip : NodeKind → Bool)

@[simp] theorem walkAll_nil : walkAll skip [] = [] := rfl

@[simp] theorem walkAll_cons (o : Outline) (os : List Outline) :
    walkAll skip (o :: os) = walk skip o ++ walkAll skip os := rfl

theorem walkAll_eq_flatMap (os : List Outline) : walkAll skip os = os.flatMap (walk skip) := by
  induction os with
  | nil => rfl
  | cons o os ih => rw [walkAll_cons, ih, List.flatMap_cons]

@[simp] theorem walkAll_append (os os' : List Outline) :
    walkAll skip (os ++ os') = walkAll skip os ++ walkAll skip os' := by
  simp only [walkAll_eq_flatMap, List.flatMap_append]

theorem forall_walk {P : Outline → Prop}
    (hchild : ∀ o : Outline, skip o.kind = false → P o → ∀ c ∈ o.children, P c) (o : Outline) :
    P o → ∀ n ∈ o.walk skip, P n := by
  induction o using induct with
  | h kind span children ih =>
    intro ho
    rw [walk, List.forall_mem_cons]
    refine ⟨ho, ?_⟩
    split
    · exact fun n hn => absurd hn List.not_mem_nil
    · next hskip =>
      rw [walkAll_eq_flatMap, List.forall_mem_flatMap]
      have hvisited : skip kind = false := Bool.eq_false_iff.2 hskip
      exact fun c hc => ih c hc (hchild (.node kind span children) hvisited ho c hc)

variable {skip} {note : σ → Outline → σ}

/-- A visitor that decides by kinds alone goes through the nodes of the walk, one after the
other. -/
theorem visit_eq_foldl (s : σ) (o : Outline) :
    visit (fun s o => (note s o, !skip o.kind)) s o = (walk skip o).foldl note s := by
  induction o using induct generalizing s with
  | h kind span children ih =>
    have hall (os : List Outline) (hos : ∀ o ∈ os, o ∈ children) (s : σ) :
        visitAll (fun s o => (note s o, !skip o.kind)) s os = (walkAll skip os).foldl note s := by
      induction os generalizing s with
      | nil => rfl
      | cons o os ih' =>
        obtain ⟨ho, hos⟩ := List.forall_mem_cons.1 hos
        rw [visitAll, ih o ho, ih' hos, walkAll_cons, List.foldl_append]
    rw [visit, walk, List.foldl_cons]
    cases hskip : skip kind with
    | true => simp [Outline.kind, hskip]
    | false =>
      simp only [Outline.kind, hskip, Bool.not_false, Bool.false_eq_true, if_false]
      exact hall children (fun _ h => h) _

/-- A visitor that stops at the first node of a kind finds one if a walk that goes on does. -/
theorem visit_until (goal : NodeKind → Bool) (found : Bool) (o : Outline) :
    visit (fun found o => (found || goal o.kind, !(found || goal o.kind))) found o =
      (found || (walk goal o).any fun n => goal n.kind) := by
  induction o using induct generalizing found with
  | h kind span children ih =>
    have hall (os : List Outline) (hos : ∀ o ∈ os, o ∈ children) (found : Bool) :
        visitAll (fun found o => (found || goal o.kind, !(found || goal o.kind))) found os =
          (found || (walkAll goal os).any fun n => goal n.kind) := by
      induction os generalizing found with
      | nil => exact (Bool.or_false found).symm
      | cons o os ih' =>
        obtain ⟨ho, hos⟩ := List.forall_mem_cons.1 hos
        rw [visitAll, ih o ho, ih' hos, walkAll_cons, List.any_append, Bool.or_assoc]
    rw [visit, walk, List.any_cons]
    cases found with
    | true => rfl
    | false =>
      simp only [Bool.false_or, Outline.kind]
      cases hgoal : goal kind with
      | true => rfl
      | false =>
        simp only [Bool.not_false, Bool.false_eq_true, if_false]
        exact hall children (fun _ h => h) false

end Walk

section Nodes

variable {skip : NodeKind → Bool} {kind : NodeKind}

def nodesOf (skip : NodeKind → Bool) (kind : NodeKind) (os : List Outline) : List Outline :=
  (walkAll skip os).filter fun o => o.kind == kind

@[simp] theorem nodesOf_nil : nodesOf skip kind [] = [] := rfl

@[simp] theorem nodesOf_append (os os' : List Outline) :
    nodesOf skip kind (os ++ os') = nodesOf skip kind os ++ nodesOf skip kind os' := by
  rw [nodesOf, walkAll_append, List.filter_append]
  rfl

theorem nodesOf_cons (o : Outline) (os : List Outline) :
    nodesOf skip kind (o :: os) = nodesOf skip kind [o] ++ nodesOf skip kind os :=
  nodesOf_append [o] os

theorem nodesOf_eq_nil {os : List Outline} (h : ∀ o ∈ os, nodesOf skip kind [o] = []) :
    nodesOf skip kind os = [] := by
  induction os with
  | nil => rfl
  | cons o os ih =>
    obtain ⟨ho, hos⟩ := List.forall_mem_cons.1 h
    rw [nodesOf_cons, ho, ih hos, List.append_nil]

theorem nodesOf_map {f : α → Outline} (h : ∀ a, nodesOf skip kind [f a] = []) (as : List α) :
    nodesOf skip kind (as.map f) = [] :=
  nodesOf_eq_nil (List.forall_mem_map.2 fun a _ => h a)

theorem nodesOf_node {k : NodeKind} (h : k ≠ kind) (hskip : skip k = false) (span : Span)
    (children : List Outline) :
    nodesOf skip kind [.node k span children] = nodesOf skip kind children := by
  have hkind : ((node k span children).kind == kind) = false := beq_eq_false_iff_ne.2 h
  simp [nodesOf, walk, hskip, hkind]

@[simp] theorem nodesOf_self (span : Span) (children : List Outline) :
    nodesOf skip kind [.node kind span children] =
      .node kind span children :: if skip kind then [] else nodesOf skip kind children := by
  have hkind : ((node kind span children).kind == kind) = true := beq_self_eq_true kind
  cases hskip : skip kind <;> simp [nodesOf, walk, hskip, hkind]

end Nodes

end Outline

/-! ### Where no declarations are -/

open LayoutScript.Outline
  (nodesOf nodesOf_append nodesOf_cons nodesOf_eq_nil nodesOf_map nodesOf_node)

structure Outline.SeeksDeclarations (skip : NodeKind → Bool) (kind : NodeKind) : Prop where
  kind : kind.isDeclaration = true
  skip : ∀ k : NodeKind, k.isDeclaration = false → skip k = false

open LayoutScript.Outline (SeeksDeclarations)

variable {skip : NodeKind → Bool} {kind : NodeKind}

theorem Outline.SeeksDeclarations.node (hs : SeeksDeclarations skip kind) {k : NodeKind}
    (h : k.isDeclaration = false) (span : Span) (children : List Outline) :
    nodesOf skip kind [.node k span children] = nodesOf skip kind children := by
  refine nodesOf_node ?_ (hs.skip k h) span children
  rintro rfl
  exact absurd (h.symm.trans hs.kind) Bool.false_ne_true

namespace Expr

mutual

theorem nodesOf_outline (hs : SeeksDeclarations skip kind) (e : Expr) : nodesOf skip kind
    [e.outline] = [] := by
  cases e with
  | propertyAccess object properties s => rw [outline, hs.node rfl, nodesOf_outline hs object]
  | construct name args s | call name args s | instanceMethodCall name args s =>
    rw [outline, hs.node rfl, nodesOf_outlines hs args]
  | methodCall object method args s =>
    rw [outline, hs.node rfl, nodesOf_cons, nodesOf_outline hs object, nodesOf_outlines hs args]
    rfl
  | binary left operator right grouped s =>
    rw [outline, hs.node rfl, nodesOf_cons, nodesOf_outline hs left, nodesOf_outline hs right]
    rfl
  | string | template | number | boolean | null | identifier | instanceVar | instanceVarAccess
  | interpolation =>
    rw [outline, hs.node rfl]
    rfl

theorem nodesOf_outlines (hs : SeeksDeclarations skip kind) (es : List Expr) :
    nodesOf skip kind (outlines es) = [] := by
  cases es with
  | nil => rfl
  | cons e es =>
    rw [outlines, nodesOf_cons, nodesOf_outline hs e, nodesOf_outlines hs es]
    rfl

end

theorem nodesOf_toList (hs : SeeksDeclarations skip kind) (e : Option Expr) :
    nodesOf skip kind (e.map outline).toList = [] := by
  cases e with
  | none => rfl
  | some e => exact nodesOf_outline hs e

end Expr

theorem Attribute.nodesOf_outline (hs : SeeksDeclarations skip kind) (a : Attribute) :
    nodesOf skip kind [a.outline] = [] :=
  Expr.nodesOf_outline hs a.value

namespace Markup

mutual

theorem nodesOf_outline (hs : SeeksDeclarations skip kind) (m : Markup) : nodesOf skip kind
    [m.outline] = [] := by
  cases m with
  | text value s | interpolation raw s =>
    rw [outline, hs.node rfl]
    rfl
  | element e =>
    rw [outline]
    exact nodesOf_elementOutline hs e

theorem nodesOf_elementOutline (hs : SeeksDeclarations skip kind) (e : Element) :
    nodesOf skip kind [elementOutline e] = [] := by
  obtain ⟨tag, className, attributes, children, s⟩ := e
  rw [elementOutline, hs.node rfl, nodesOf_append,
    nodesOf_map (Attribute.nodesOf_outline hs), nodesOf_outlines hs children]
  rfl

theorem nodesOf_outlines (hs : SeeksDeclarations skip kind) (ms : List Markup) :
    nodesOf skip kind (outlines ms) = [] := by
  cases ms with
  | nil => rfl
  | cons m ms =>
    rw [outlines, nodesOf_cons, nodesOf_outline hs m, nodesOf_outlines hs ms]
    rfl

end

end Markup

theorem Entry.nodesOf_outline (hs : SeeksDeclarations skip kind) {k : NodeKind}
    (h : k.isDeclaration = false) (e : Entry) :
    nodesOf skip kind [e.outline k] = [] := by
  rw [Entry.outline, hs.node h, Expr.nodesOf_toList hs]

theorem RenderBlock.nodesOf_toList (hs : SeeksDeclarations skip kind) (r : Option RenderBlock) :
    nodesOf skip kind (r.map outline).toList = [] := by
  cases r with
  | none => rfl
  | some r =>
    show nodesOf skip kind [r.outline] = []
    rw [RenderBlock.outline, hs.node rfl]
    exact nodesOf_map (Markup.nodesOf_elementOutline hs) r.elements

theorem StyleBlock.nodesOf_toList (hs : SeeksDeclarations skip kind) (b : Option StyleBlock) :
    nodesOf skip kind (b.map outline).toList = [] := by
  cases b with
  | none => rfl
  | some b =>
    show nodesOf skip kind [b.outline] = []
    rw [StyleBlock.outline, hs.node rfl]
    refine nodesOf_eq_nil fun o ho => ?_
    obtain ⟨rule, -, ho⟩ := List.mem_flatMap.1 ho
    obtain ⟨d, -, rfl⟩ := List.mem_map.1 ho
    exact Expr.nodesOf_outline hs d.value

end LayoutScript

import LayoutScript.Proofs.ComponentTexts

/-! The expressions of a program: every node of the tree that is an expression, in components too.
All of them are canonical, but for the properties of instance variables that a statement assigns
to. -/
namespace LayoutScript

namespace Expr

mutual

def inside : Expr → List Expr
  | .string _ _ | .template _ _ | .number _ _ | .boolean _ _ | .null _ | .identifier _ _
  | .instanceVar _ _ | .instanceVarAccess _ _ _ | .interpolation _ _ => []
  | .propertyAccess object _ _ => object :: inside object
  | .construct _ args _ | .call _ args _ | .instanceMethodCall _ args _ => insideAll args
  | .methodCall object _ args _ => object :: inside object ++ insideAll args
  | .binary left _ right _ _ => left :: inside left ++ right :: inside right

def insideAll : List Expr → List Expr
  | [] => []
  | e :: es => e :: inside e ++ insideAll es

end

def parts (e : Expr) : List Expr := e :: e.inside

@[simp] theorem mem_insideAll {e : Expr} {es : List Expr} :
    e ∈ insideAll es ↔ ∃ a ∈ es, e ∈ a.parts := by
  induction es with
  | nil => simp [insideAll]
  | cons a es ih =>
    rw [insideAll, List.mem_append, ih]
    simp only [List.mem_cons, exists_eq_or_imp, parts]

theorem inside_accessed {start last : Span} {base e : Expr} {properties : List String}
    (h : e ∈ (base.accessed start last properties).inside) : e ∈ base.parts := by
  unfold accessed at h
  split at h
  · exact List.mem_cons_of_mem _ h
  · rw [inside] at h
    cases h
  · rwa [inside] at h

theorem Canonical.whole {role : Role} {e : Expr} (h : e.Canonical role) : e.Canonical .whole := by
  cases role with
  | base => exact .operand (.chain h.bare)
  | access => exact .operand (.chain h)
  | operand => exact .operand h
  | whole => exact h

theorem Canonical.inside {role : Role} {e : Expr} (h : e.Canonical role) :
    ∀ e' ∈ e.inside, e'.Canonical .whole := by
  have hparts {role : Role} {e e' : Expr} (he : e.Canonical role)
      (ih : ∀ e' ∈ e.inside, e'.Canonical .whole) (h : e' ∈ e.parts) : e'.Canonical .whole := by
    rcases List.mem_cons.1 h with rfl | h
    · exact he.whole
    · exact ih e' h
  have hargs {args : List Expr} {e' : Expr} (ha : ∀ a ∈ args, a.Canonical .whole)
      (ih : ∀ a ∈ args, ∀ e' ∈ a.inside, e'.Canonical .whole) (h : e' ∈ insideAll args) :
      e'.Canonical .whole := by
    obtain ⟨a, hmem, h⟩ := mem_insideAll.1 h
    exact hparts (ha a hmem) (ih a hmem) h
  induction h with
  | identifier _ | instanceVar _ | negative _ => simp [Expr.inside]
  | atom ha _ =>
    unfold atom? at ha
    split at ha <;> cases ha <;> simp [Expr.inside]
  | call _ ha ih | instanceCall _ ha ih | construct _ ha ih =>
    intro e' h
    rw [Expr.inside] at h
    exact hargs ha ih h
  | methodCall ho _ ha iho iha =>
    intro e' h
    rw [Expr.inside] at h
    rcases List.mem_append.1 h with h | h
    · exact hparts ho iho h
    · exact hargs ha iha h
  | access hb _ ih => exact fun e' h => hparts hb ih (inside_accessed h)
  | group hl _ hr ihl ihr | binary hl _ hr ihl ihr =>
    intro e' h
    rw [Expr.inside] at h
    rcases List.mem_append.1 h with h | h
    · exact hparts hl ihl h
    · exact hparts hr ihr h
  | chain _ ih | operand _ ih => exact ih

/-- The expressions of a text. A property of an instance variable is one access where it is read,
and an access of the variable where it is assigned to. -/
inductive Written : Expr → Prop
  | value {e} : e.Canonical .whole → Written e
  | target {name s properties t} : isWord name = true → properties ≠ [] →
    (∀ p ∈ properties, isWord p = true) →
    Written (.propertyAccess (.instanceVar name s) properties t)

theorem Canonical.written {role : Role} {e : Expr} (h : e.Canonical role) :
    ∀ e' ∈ e.parts, e'.Written := by
  intro e' hmem
  rcases List.mem_cons.1 hmem with rfl | hmem
  · exact .value h.whole
  · exact .value (h.inside e' hmem)

end Expr

/-! ### Every expression of a tree -/

def Entry.expressions (e : Entry) : List Expr := e.value.toList.flatMap Expr.parts

def Attribute.expressions (a : Attribute) : List Expr := a.value.parts

namespace Markup

mutual

def expressions : Markup → List Expr
  | .text _ _ | .interpolation _ _ => []
  | .element ⟨_, _, attributes, children, _⟩ =>
    attributes.flatMap Attribute.expressions ++ allExpressions children

def allExpressions : List Markup → List Expr
  | [] => []
  | m :: ms => expressions m ++ allExpressions ms

end

@[simp] theorem allExpressions_eq_flatMap (ms : List Markup) :
    allExpressions ms = ms.flatMap expressions := by
  induction ms with
  | nil => rw [allExpressions, List.flatMap_nil]
  | cons m ms ih => rw [allExpressions, ih, List.flatMap_cons]

end Markup

def ElementOf.expressions (e : Element) : List Expr := (Markup.element e).expressions

def RenderBlock.expressions (r : RenderBlock) : List Expr :=
  r.elements.flatMap ElementOf.expressions

def StyleRule.expressions (r : StyleRule) : List Expr :=
  r.declarations.flatMap fun d => d.value.parts

def StyleBlock.expressions (b : StyleBlock) : List Expr := b.rules.flatMap StyleRule.expressions

namespace Stmt

mutual

def expressions : Stmt → List Expr
  | .function f => functionExpressions f
  | .classDecl ⟨_, _, methods, _⟩ => methodExpressions methods
  | .component ⟨_, props, state, methods, render, style, _⟩ =>
    props.flatMap Entry.expressions ++ state.flatMap Entry.expressions ++
      methodExpressions methods ++ render.toList.flatMap RenderBlock.expressions ++
      style.toList.flatMap StyleBlock.expressions
  | .assign _ value _ | .assignInstanceVar _ value _ | .print value _ => value.parts
  | .assignProperty object properties target value _ =>
    (Expr.propertyAccess object properties target).parts ++ value.parts
  | .give value _ => value.toList.flatMap Expr.parts
  | .branch condition body elsifs otherwise _ _ =>
    condition.parts ++ allExpressions body ++ elsifExpressions elsifs ++ allExpressions otherwise
  | .expr e => e.parts

def functionExpressions : FunctionOf Stmt → List Expr
  | ⟨_, _, _, body, _⟩ => allExpressions body

def methodExpressions : List (FunctionOf Stmt) → List Expr
  | [] => []
  | f :: fs => functionExpressions f ++ methodExpressions fs

def elsifExpressions : List (ElsifOf Stmt) → List Expr
  | [] => []
  | ⟨condition, body⟩ :: es => condition.parts ++ allExpressions body ++ elsifExpressions es

def allExpressions : List Stmt → List Expr
  | [] => []
  | s :: ss => expressions s ++ allExpressions ss

end

@[simp] theorem mem_allExpressions {e : Expr} {ss : List Stmt} :
    e ∈ allExpressions ss ↔ ∃ s ∈ ss, e ∈ s.expressions := by
  induction ss with
  | nil => simp [allExpressions]
  | cons s ss ih => simp [allExpressions, ih]

@[simp] theorem mem_methodExpressions {e : Expr} {fs : List FunctionDecl} :
    e ∈ methodExpressions fs ↔ ∃ f ∈ fs, ∃ s ∈ f.body, e ∈ s.expressions := by
  induction fs with
  | nil => simp [methodExpressions]
  | cons f fs ih =>
    rw [methodExpressions, functionExpressions, List.mem_append, mem_allExpressions, ih]
    simp only [List.mem_cons, exists_eq_or_imp]

@[simp] theorem mem_elsifExpressions {e : Expr} {es : List Elsif} : e ∈ elsifExpressions es ↔
    ∃ elsif ∈ es, e ∈ elsif.condition.parts ∨ ∃ s ∈ elsif.body, e ∈ s.expressions := by
  induction es with
  | nil => simp [elsifExpressions]
  | cons elsif es ih => simp [elsifExpressions, mem_allExpressions, ih, or_assoc]

end Stmt

def Program.expressions (p : Program) : List Expr := Stmt.allExpressions p.body

/-! ### Every expression of a text is written -/

open LayoutScript.Expr (Expression)

theorem Stmt.Canonical.written {s : Stmt} (h : s.Canonical) : ∀ e ∈ s.expressions, e.Written := by
  induction h with
  | function _ _ ih =>
    intro e he
    rw [expressions, functionExpressions, mem_allExpressions] at he
    obtain ⟨s, hs, he⟩ := he
    exact ih s hs e he
  | classDecl _ _ _ _ ih =>
    intro e he
    rw [expressions, mem_methodExpressions] at he
    obtain ⟨f, hf, s, hs, he⟩ := he
    exact ih f hf s hs e he
  | assign _ hv | assignInstanceVar _ hv | print hv =>
    intro e he
    rw [expressions] at he
    exact hv.written e he
  | @assignProperty object properties target value _ name ho hne hp hopening hv =>
    intro e he
    rw [expressions, List.mem_append, Expr.parts, List.mem_cons, Expr.inside] at he
    rcases he with (rfl | he) | he
    · -- The object is no instance variable, so its access reads as the parser would make it.
      have haccess := @Expr.Canonical.access object target target properties ho hp
      have hself : object.accessed target target properties =
          .propertyAccess object properties target := by
        unfold Expr.accessed
        split
        · exact absurd rfl hne
        · cases hopening
        · rfl
      rw [hself] at haccess
      exact .value haccess.whole
    · exact ho.written e he
    · exact hv.written e he
  | @assignInstanceProperty name s _ _ _ _ hw hne hp hv =>
    intro e he
    rw [expressions, List.mem_append, Expr.parts, List.mem_cons, Expr.inside] at he
    rcases he with (rfl | he) | he
    · exact .target hw hne hp
    · exact (Expr.Canonical.instanceVar hw).written e he
    · exact hv.written e he
  | give hv =>
    intro e he
    rw [expressions, Option.toList_some, List.flatMap_singleton] at he
    exact hv.written e he
  | giveNothing =>
    intro e he
    rw [expressions, Option.toList_none] at he
    cases he
  | branch hc _ he _ _ _ ihb ihe iho =>
    intro e hmem
    simp only [expressions, List.mem_append, mem_allExpressions, mem_elsifExpressions] at hmem
    rcases hmem with ((hmem | ⟨s, hs, hmem⟩) | ⟨elsif, hs, hmem | ⟨s, hbody, hmem⟩⟩) | ⟨s, hs, hmem⟩
    · exact hc.written e hmem
    · exact ihb s hs e hmem
    · exact (he elsif hs).written e hmem
    · exact ihe elsif hs s hbody e hmem
    · exact iho s hs e hmem
  | access he _ _ | instanceCall he _ _ =>
    intro e hmem
    rw [expressions] at hmem
    exact he.written e hmem

theorem Markup.OnLines.written {m : Markup} (h : m.OnLines) : ∀ e ∈ m.expressions, e.Written := by
  induction h with
  | text _ | interpolation _ => simp [expressions]
  | element _ _ ha _ ih =>
    intro e he
    rw [expressions, allExpressions_eq_flatMap, List.mem_append, List.mem_flatMap,
      List.mem_flatMap] at he
    rcases he with ⟨a, hmem, he⟩ | ⟨m, hmem, he⟩
    · exact (ha a hmem).value.written e he
    · exact ih m hmem e he

theorem ComponentOf.OnLines.written {c : ComponentDecl} (h : c.OnLines) :
    ∀ e ∈ (Stmt.component c).expressions, e.Written := by
  intro e he
  have hentry {entry : Entry} (hentry : entry.OnLines) (he : e ∈ entry.expressions) :
      e.Written := by
    obtain ⟨v, hv, he⟩ := List.mem_flatMap.1 he
    exact (hentry.value v (Option.mem_toList.1 hv)).written e he
  simp only [Stmt.expressions, List.mem_append, List.mem_flatMap, Option.mem_toList,
    Stmt.mem_methodExpressions] at he
  rcases he with (((⟨entry, hmem, he⟩ | ⟨entry, hmem, he⟩) | ⟨f, hf, s, hs, he⟩) | ⟨r, hr, he⟩) |
    ⟨b, hb, he⟩
  · exact hentry (h.props entry hmem) he
  · exact hentry (h.state entry hmem) he
  · exact ((h.methods f hf).2 s hs).written e he
  · obtain ⟨element, hmem, he⟩ := List.mem_flatMap.1 he
    exact (h.render r hr element hmem).written e he
  · obtain ⟨rule, hrule, he⟩ := List.mem_flatMap.1 he
    obtain ⟨d, hd, he⟩ := List.mem_flatMap.1 he
    exact ((h.style b hb rule hrule).declarations d hd).value.written e he

theorem check_written {source : String} {code : List Char} {p : Program}
    (h : check source code = .ok p) : ∀ e ∈ p.expressions, e.Written := by
  intro e he
  obtain ⟨s, hs, he⟩ := Stmt.mem_allExpressions.1 he
  rcases check_onLines h s hs with hcanonical | ⟨c, rfl, hc⟩
  · exact hcanonical.written e he
  · exact hc.written e he

end LayoutScript

import Mathlib.Data.List.Perm.Basic
import LayoutScript.Proofs.FunctionBlocks
import LayoutScript.Proofs.OutlineWalk

/-! The functions that a program declares and those in its script. A class has one constructor in
the script, so a second one is lost, with everything inside it. Every other function is written
exactly once. -/
namespace LayoutScript

/-! ### The functions in the tree -/

structure FunctionNode where
  decl : FunctionDecl
  kept : Bool

namespace Stmt

mutual

/-- The functions that a statement declares, in the order of the source. What is inside a function
that is not kept is not kept either. -/
def nodes (kept : Bool) : Stmt → List FunctionNode
  | .function f => nodesOf kept f
  | .classDecl ⟨_, _, methods, _⟩ => memberNodes kept false methods
  | .component ⟨_, _, _, methods, _, _, _⟩ => methodNodes kept methods
  | .branch _ body elsifs otherwise _ _ =>
    allNodes kept body ++ elsifNodes kept elsifs ++ allNodes kept otherwise
  | .assign .. | .assignProperty .. | .assignInstanceVar .. | .print .. | .give .. | .expr _ => []

def nodesOf (kept : Bool) : FunctionOf Stmt → List FunctionNode
  | ⟨name, params, type, body, span⟩ =>
    ⟨⟨name, params, type, body, span⟩, kept⟩ :: allNodes kept body

/-- The methods of a class, after a constructor if `led` is set. A second constructor is not
kept. -/
def memberNodes (kept led : Bool) : List (FunctionOf Stmt) → List FunctionNode
  | [] => []
  | f :: fs =>
    nodesOf (kept && !(led && f.isConstructor)) f ++ memberNodes kept (led || f.isConstructor) fs

def methodNodes (kept : Bool) : List (FunctionOf Stmt) → List FunctionNode
  | [] => []
  | f :: fs => nodesOf kept f ++ methodNodes kept fs

def elsifNodes (kept : Bool) : List (ElsifOf Stmt) → List FunctionNode
  | [] => []
  | ⟨_, body⟩ :: es => allNodes kept body ++ elsifNodes kept es

def allNodes (kept : Bool) : List Stmt → List FunctionNode
  | [] => []
  | s :: ss => nodes kept s ++ allNodes kept ss

end

mutual

def classes : Stmt → List ClassDecl
  | .function f => classesOf f
  | .classDecl ⟨name, properties, methods, span⟩ =>
    ⟨name, properties, methods, span⟩ :: methodClasses methods
  | .component ⟨_, _, _, methods, _, _, _⟩ => methodClasses methods
  | .branch _ body elsifs otherwise _ _ =>
    allClasses body ++ elsifClasses elsifs ++ allClasses otherwise
  | .assign .. | .assignProperty .. | .assignInstanceVar .. | .print .. | .give .. | .expr _ => []

def classesOf : FunctionOf Stmt → List ClassDecl
  | ⟨_, _, _, body, _⟩ => allClasses body

def methodClasses : List (FunctionOf Stmt) → List ClassDecl
  | [] => []
  | f :: fs => classesOf f ++ methodClasses fs

def elsifClasses : List (ElsifOf Stmt) → List ClassDecl
  | [] => []
  | ⟨_, body⟩ :: es => allClasses body ++ elsifClasses es

def allClasses : List Stmt → List ClassDecl
  | [] => []
  | s :: ss => classes s ++ allClasses ss

end

end Stmt

namespace Program

def nodes (p : Program) : List FunctionNode := Stmt.allNodes true p.body

def classes (p : Program) : List ClassDecl := Stmt.allClasses p.body

end Program

/-! ### On a walk over the outline -/

namespace Outline

def isFunction (o : Outline) : Bool := o.kind == .functionDeclaration

def goesEverywhere (_ : NodeKind) : Bool := false

theorem seeksFunctions : SeeksDeclarations goesEverywhere .functionDeclaration where
  kind := rfl
  skip _ _ := rfl

end Outline

open LayoutScript.Outline
  (goesEverywhere seeksFunctions nodesOf_append nodesOf_cons nodesOf_map nodesOf_node nodesOf_self)

namespace Stmt

def nodeOutlines (nodes : List FunctionNode) : List Outline :=
  nodes.map fun n => functionOutline n.decl

@[simp] theorem nodeOutlines_append (nodes nodes' : List FunctionNode) :
    nodeOutlines (nodes ++ nodes') = nodeOutlines nodes ++ nodeOutlines nodes' := List.map_append

mutual

theorem functionNodes_outline (kept : Bool) (s : Stmt) :
    Outline.nodesOf goesEverywhere .functionDeclaration [s.outline] =
      nodeOutlines (nodes kept s) := by
  cases s with
  | function f =>
    rw [outline, nodes]
    exact functionNodes_functionOutline kept f
  | classDecl c =>
    obtain ⟨name, properties, methods, s⟩ := c
    rw [outline, nodes, nodesOf_node (by decide) rfl]
    exact functionNodes_memberOutlines kept false methods
  | component c =>
    obtain ⟨name, props, state, methods, render, style, s⟩ := c
    rw [outline, nodes, nodesOf_node (by decide) rfl]
    simp only [nodesOf_append]
    rw [nodesOf_map (Entry.nodesOf_outline seeksFunctions rfl),
      nodesOf_map (Entry.nodesOf_outline seeksFunctions rfl),
      RenderBlock.nodesOf_toList seeksFunctions, StyleBlock.nodesOf_toList seeksFunctions,
      List.append_nil, List.append_nil]
    exact functionNodes_methodOutlines kept methods
  | branch condition body elsifs otherwise hasElse s =>
    rw [outline, nodes, nodesOf_node (by decide) rfl, List.cons_append, List.cons_append,
      nodesOf_cons, Expr.nodesOf_outline seeksFunctions, List.nil_append, nodesOf_append,
      nodesOf_append, functionNodes_outlines kept body, functionNodes_elsifOutlines kept elsifs,
      functionNodes_outlines kept otherwise, nodeOutlines_append, nodeOutlines_append]
  | assign name value s | assignInstanceVar name value s | print value s =>
    rw [outline, nodes, nodesOf_node (by decide) rfl, Expr.nodesOf_outline seeksFunctions]
    rfl
  | assignProperty object properties target value s =>
    rw [outline, nodes, nodesOf_node (by decide) rfl, nodesOf_cons, nodesOf_node (by decide) rfl,
      Expr.nodesOf_outline seeksFunctions, Expr.nodesOf_outline seeksFunctions]
    rfl
  | give value s =>
    rw [outline, nodes, nodesOf_node (by decide) rfl]
    exact Expr.nodesOf_toList seeksFunctions value
  | expr e =>
    rw [outline, nodes]
    exact Expr.nodesOf_outline seeksFunctions e

theorem functionNodes_functionOutline (kept : Bool) (f : FunctionDecl) :
    Outline.nodesOf goesEverywhere .functionDeclaration [functionOutline f] =
      nodeOutlines (nodesOf kept f) := by
  obtain ⟨name, params, type, body, s⟩ := f
  rw [nodesOf, nodeOutlines, List.map_cons, functionOutline, nodesOf_self,
    functionNodes_outlines kept body]
  rfl

theorem functionNodes_methodOutlines (kept : Bool) (fs : List FunctionDecl) :
    Outline.nodesOf goesEverywhere .functionDeclaration (functionOutlines fs) =
      nodeOutlines (methodNodes kept fs) := by
  cases fs with
  | nil => rfl
  | cons f fs =>
    rw [functionOutlines, methodNodes, nodesOf_cons, nodeOutlines_append,
      functionNodes_functionOutline kept f, functionNodes_methodOutlines kept fs]

theorem functionNodes_memberOutlines (kept led : Bool) (fs : List FunctionDecl) :
    Outline.nodesOf goesEverywhere .functionDeclaration (functionOutlines fs) =
      nodeOutlines (memberNodes kept led fs) := by
  cases fs with
  | nil => rfl
  | cons f fs =>
    rw [functionOutlines, memberNodes, nodesOf_cons, nodeOutlines_append,
      ← functionNodes_functionOutline, ← functionNodes_memberOutlines]

theorem functionNodes_elsifOutlines (kept : Bool) (es : List Elsif) :
    Outline.nodesOf goesEverywhere .functionDeclaration (elsifOutlines es) =
      nodeOutlines (elsifNodes kept es) := by
  cases es with
  | nil => rfl
  | cons e es =>
    obtain ⟨condition, body⟩ := e
    rw [elsifOutlines, elsifNodes, List.cons_append, nodesOf_cons,
      Expr.nodesOf_outline seeksFunctions, List.nil_append, nodesOf_append, nodeOutlines_append,
      functionNodes_outlines kept body, functionNodes_elsifOutlines kept es]

theorem functionNodes_outlines (kept : Bool) (ss : List Stmt) :
    Outline.nodesOf goesEverywhere .functionDeclaration (outlines ss) =
      nodeOutlines (allNodes kept ss) := by
  cases ss with
  | nil => rfl
  | cons s ss =>
    rw [outlines, allNodes, nodesOf_cons, nodeOutlines_append, functionNodes_outline kept s,
      functionNodes_outlines kept ss]

end

end Stmt

/-! ### Each of them once -/

def keepFirst (led : Bool) : List (Bool × List α) → List α
  | [] => []
  | (isConstructor, as) :: members =>
    (if led && isConstructor then [] else as) ++ keepFirst (led || isConstructor) members

theorem keepFirst_led (members : List (Bool × List α)) :
    keepFirst true members = (members.filter fun m => !m.1).flatMap Prod.snd := by
  induction members with
  | nil => rfl
  | cons m members ih =>
    obtain ⟨isConstructor, as⟩ := m
    rw [keepFirst, Bool.true_or, ih]
    cases isConstructor <;> rfl

theorem leadFirst_perm (members : List (Bool × List α)) :
    (leadFirst members).Perm (keepFirst false members) := by
  induction members with
  | nil => exact .nil
  | cons m members ih =>
    obtain ⟨isConstructor, as⟩ := m
    rw [keepFirst, Bool.false_or, Bool.false_and, if_neg Bool.false_ne_true]
    cases isConstructor with
    | true =>
      rw [keepFirst_led]
      exact .rfl
    | false =>
      refine .trans ?_ (ih.append_left as)
      rw [leadFirst, leadFirst, List.filter_cons_of_neg Bool.false_ne_true,
        List.filter_cons_of_pos rfl, List.flatMap_append, List.flatMap_append, List.flatMap_cons]
      exact List.perm_append_comm_assoc _ _ _

namespace Opening

def decl? : Opening → Option FunctionDecl
  | .declared _ _ f => some f
  | .other _ => none

def decls (kept : Bool) (openings : List Opening) : List FunctionDecl :=
  if kept then openings.filterMap decl? else []

@[simp] theorem decls_append (kept : Bool) (openings others : List Opening) :
    decls kept (openings ++ others) = decls kept openings ++ decls kept others := by
  cases kept with
  | false => rfl
  | true => exact List.filterMap_append

end Opening

open LayoutScript.Opening (decl? decls decls_append)

def keptDecls (nodes : List FunctionNode) : List FunctionDecl :=
  (nodes.filter FunctionNode.kept).map FunctionNode.decl

@[simp] theorem keptDecls_append (nodes nodes' : List FunctionNode) :
    keptDecls (nodes ++ nodes') = keptDecls nodes ++ keptDecls nodes' := by
  rw [keptDecls, List.filter_append, List.map_append]
  rfl

namespace Stmt

mutual

theorem openings_perm (kept : Bool) (level : Nat) (s : Stmt) :
    (decls kept (openings level s)).Perm (keptDecls (nodes kept s)) := by
  cases s with
  | function f =>
    rw [openings, nodes]
    exact openingsOf_perm kept .statement level f
  | classDecl c =>
    obtain ⟨name, properties, methods, span⟩ := c
    rw [openings, nodes]
    refine .trans ?_ (memberOpenings_perm kept false (level + 1) methods)
    cases kept with
    | false => exact .rfl
    | true => exact (leadFirst_perm _).filterMap decl?
  | component c =>
    obtain ⟨name, props, state, methods, render, style, span⟩ := c
    have hname : decls kept [.other name] = [] := by cases kept <;> rfl
    rw [openings, nodes, ← List.singleton_append, decls_append, hname]
    exact methodOpenings_perm kept (level + 1) methods
  | branch condition body elsifs otherwise hasElse span =>
    rw [openings, nodes, decls_append, decls_append, keptDecls_append, keptDecls_append]
    exact ((allOpenings_perm kept (level + 1) body).append
      (elsifOpenings_perm kept (level + 1) elsifs)).append
      (allOpenings_perm kept (level + 1) otherwise)
  | assign | assignProperty | assignInstanceVar | print | give | expr =>
    rw [openings, nodes]
    cases kept <;> exact .nil

theorem openingsOf_perm (kept : Bool) (form : Script.Form) (level : Nat) (f : FunctionDecl) :
    (decls kept (openingsOf form level f)).Perm (keptDecls (nodesOf kept f)) := by
  obtain ⟨name, params, type, body, span⟩ := f
  have hbody := allOpenings_perm kept (level + 1) body
  rw [openingsOf, nodesOf]
  cases kept with
  | false => exact hbody
  | true => exact hbody.cons _

theorem memberOpenings_perm (kept led : Bool) (level : Nat) (fs : List FunctionDecl) :
    (decls kept (keepFirst led (memberOpenings level fs))).Perm
      (keptDecls (memberNodes kept led fs)) := by
  cases fs with
  | nil =>
    rw [memberOpenings, memberNodes, keepFirst]
    cases kept <;> exact .nil
  | cons f fs =>
    have hfirst := openingsOf_perm (kept && !(led && f.isConstructor)) .member level f
    have hrest := memberOpenings_perm kept (led || f.isConstructor) level fs
    rw [memberOpenings, memberNodes, keepFirst, decls_append, keptDecls_append]
    -- A constructor after another one is not kept on either side, so there both lists are empty.
    refine .append (.trans ?_ hfirst) hrest
    cases led && f.isConstructor <;> cases kept <;> exact .rfl

theorem methodOpenings_perm (kept : Bool) (level : Nat) (fs : List FunctionDecl) :
    (decls kept (methodOpenings level fs)).Perm (keptDecls (methodNodes kept fs)) := by
  cases fs with
  | nil =>
    rw [methodOpenings, methodNodes]
    cases kept <;> exact .nil
  | cons f fs =>
    rw [methodOpenings, methodNodes, decls_append, keptDecls_append]
    exact (openingsOf_perm kept .constant level f).append (methodOpenings_perm kept level fs)

theorem elsifOpenings_perm (kept : Bool) (level : Nat) (es : List Elsif) :
    (decls kept (elsifOpenings level es)).Perm (keptDecls (elsifNodes kept es)) := by
  cases es with
  | nil =>
    rw [elsifOpenings, elsifNodes]
    cases kept <;> exact .nil
  | cons e es =>
    obtain ⟨condition, body⟩ := e
    rw [elsifOpenings, elsifNodes, decls_append, keptDecls_append]
    exact (allOpenings_perm kept level body).append (elsifOpenings_perm kept level es)

theorem allOpenings_perm (kept : Bool) (level : Nat) (ss : List Stmt) :
    (decls kept (allOpenings level ss)).Perm (keptDecls (allNodes kept ss)) := by
  cases ss with
  | nil =>
    rw [allOpenings, allNodes]
    cases kept <;> exact .nil
  | cons s ss =>
    rw [allOpenings, allNodes, decls_append, keptDecls_append]
    exact (openings_perm kept level s).append (allOpenings_perm kept level ss)

end

end Stmt

/-! ### When all of them are there -/

/-- No class has two constructors. -/
def LeadOnce (classes : List ClassDecl) : Prop :=
  ∀ c ∈ classes, c.methods.countP FunctionOf.isConstructor ≤ 1

def AllKept (nodes : List FunctionNode) : Prop := ∀ n ∈ nodes, n.kept = true

theorem LeadOnce.append_iff {classes classes' : List ClassDecl} :
    LeadOnce (classes ++ classes') ↔ LeadOnce classes ∧ LeadOnce classes' := List.forall_mem_append

theorem LeadOnce.cons_iff {c : ClassDecl} {classes : List ClassDecl} :
    LeadOnce (c :: classes) ↔ c.methods.countP FunctionOf.isConstructor ≤ 1 ∧ LeadOnce classes :=
  List.forall_mem_cons

theorem AllKept.append_iff {nodes nodes' : List FunctionNode} :
    AllKept (nodes ++ nodes') ↔ AllKept nodes ∧ AllKept nodes' := List.forall_mem_append

theorem LeadOnce.nil : LeadOnce [] := by simp [LeadOnce]

theorem AllKept.nil : AllKept [] := by simp [AllKept]

namespace Stmt

theorem not_allKept_nodesOf (f : FunctionDecl) : ¬ AllKept (nodesOf false f) := by
  obtain ⟨name, params, type, body, span⟩ := f
  rw [nodesOf]
  exact fun h => Bool.false_ne_true (h _ List.mem_cons_self)

mutual

theorem allKept_nodes (s : Stmt) : AllKept (nodes true s) ↔ LeadOnce (classes s) := by
  cases s with
  | function f =>
    rw [nodes, classes]
    exact allKept_nodesOf f
  | classDecl c =>
    obtain ⟨name, properties, methods, span⟩ := c
    rw [nodes, classes, allKept_memberNodes false methods, LeadOnce.cons_iff]
    rfl
  | component c =>
    obtain ⟨name, props, state, methods, render, style, span⟩ := c
    rw [nodes, classes]
    exact allKept_methodNodes methods
  | branch condition body elsifs otherwise hasElse span =>
    rw [nodes, classes, AllKept.append_iff, AllKept.append_iff, LeadOnce.append_iff,
      LeadOnce.append_iff, allKept_allNodes body, allKept_elsifNodes elsifs,
      allKept_allNodes otherwise]
  | assign | assignProperty | assignInstanceVar | print | give | expr =>
    rw [nodes, classes]
    exact iff_of_true .nil .nil

theorem allKept_nodesOf (f : FunctionDecl) : AllKept (nodesOf true f) ↔ LeadOnce (classesOf f) := by
  obtain ⟨name, params, type, body, span⟩ := f
  rw [nodesOf, classesOf, ← allKept_allNodes body]
  exact List.forall_mem_cons.trans (and_iff_right rfl)

theorem allKept_memberNodes (led : Bool) (fs : List FunctionDecl) :
    AllKept (memberNodes true led fs) ↔
      fs.countP FunctionOf.isConstructor + led.toNat ≤ 1 ∧ LeadOnce (methodClasses fs) := by
  cases fs with
  | nil =>
    rw [memberNodes, methodClasses, List.countP_nil, Nat.zero_add]
    exact iff_of_true .nil ⟨Bool.toNat_le led, .nil⟩
  | cons f fs =>
    have hrest := allKept_memberNodes (led || f.isConstructor) fs
    rw [memberNodes, methodClasses, AllKept.append_iff, LeadOnce.append_iff, hrest, Bool.true_and,
      List.countP_cons]
    -- Only a second constructor changes what is kept; for any other method the count moves into the
    -- mark.
    by_cases hsecond : (led && f.isConstructor) = true
    · rw [hsecond]
      rw [Bool.and_eq_true] at hsecond
      refine iff_of_false (fun h => not_allKept_nodesOf f h.1) fun h => ?_
      rw [hsecond.1, hsecond.2, if_pos rfl, Bool.toNat_true] at h
      omega
    · have hcount : (led || f.isConstructor).toNat =
          (if f.isConstructor then 1 else 0) + led.toNat := by
        revert hsecond
        cases led <;> cases f.isConstructor <;> decide
      rw [Bool.eq_false_iff.2 hsecond, Bool.not_false, allKept_nodesOf f, hcount, Nat.add_assoc]
      exact and_left_comm

theorem allKept_methodNodes (fs : List FunctionDecl) :
    AllKept (methodNodes true fs) ↔ LeadOnce (methodClasses fs) := by
  cases fs with
  | nil =>
    rw [methodNodes, methodClasses]
    exact iff_of_true .nil .nil
  | cons f fs =>
    rw [methodNodes, methodClasses, AllKept.append_iff, LeadOnce.append_iff, allKept_nodesOf f,
      allKept_methodNodes fs]

theorem allKept_elsifNodes (es : List Elsif) :
    AllKept (elsifNodes true es) ↔ LeadOnce (elsifClasses es) := by
  cases es with
  | nil =>
    rw [elsifNodes, elsifClasses]
    exact iff_of_true .nil .nil
  | cons e es =>
    obtain ⟨condition, body⟩ := e
    rw [elsifNodes, elsifClasses, AllKept.append_iff, LeadOnce.append_iff, allKept_allNodes body,
      allKept_elsifNodes es]

theorem allKept_allNodes (ss : List Stmt) :
    AllKept (allNodes true ss) ↔ LeadOnce (allClasses ss) := by
  cases ss with
  | nil =>
    rw [allNodes, allClasses]
    exact iff_of_true .nil .nil
  | cons s ss =>
    rw [allNodes, allClasses, AllKept.append_iff, LeadOnce.append_iff, allKept_nodes s,
      allKept_allNodes ss]

end

end Stmt

theorem keptDecls_perm_iff {nodes : List FunctionNode} :
    (keptDecls nodes).Perm (nodes.map FunctionNode.decl) ↔ AllKept nodes := by
  refine ⟨fun hperm => ?_, fun hall => ?_⟩
  · have hlength := hperm.length_eq
    rw [keptDecls, List.length_map, List.length_map] at hlength
    exact List.length_filter_eq_length_iff.1 hlength
  · rw [keptDecls, List.filter_eq_self.2 hall]

theorem Program.nodeOutlines_nodes (p : Program) :
    Stmt.nodeOutlines p.nodes = (p.outline.walk fun _ => false).filter Outline.isFunction := by
  rw [nodes, ← Stmt.functionNodes_outlines, outline, Outline.walk, if_neg Bool.false_ne_true,
    List.filter_cons_of_neg Bool.false_ne_true]
  rfl

/-- The lines of a script that open a function are those of the two helpers, of the components and
of the functions that its program keeps. Each of these is written once, with its header, its body
and the line that closes it, and in a class the constructor leads. A second constructor is not kept,
so all functions on a walk over the tree are written exactly if no class has two. -/
theorem functions_written_once {source : String} {code : List Char} {p : Program}
    (h : check source code = .ok p) (options : Script.Options) :
    Stmt.nodeOutlines p.nodes = (p.outline.walk fun _ => false).filter Outline.isFunction ∧
    ∃ compiled, compile options source code = .ok compiled ∧
      Opened (helperOpenings ++ p.openings) compiled.solidRows ∧
      (p.openings.filterMap Opening.decl?).Perm (keptDecls p.nodes) ∧
      ((p.openings.filterMap Opening.decl?).Perm (p.nodes.map FunctionNode.decl) ↔
        LeadOnce p.classes) := by
  obtain ⟨m, hm, -⟩ := Program.lower_components (check_topLevel h)
  have hperm : (p.openings.filterMap Opening.decl?).Perm (keptDecls p.nodes) :=
    Stmt.allOpenings_perm true 0 p.body
  refine ⟨p.nodeOutlines_nodes, _, compile_of_lower h hm options, opened_of_lower h hm options,
    hperm, ?_⟩
  rw [hperm.congr_left, keptDecls_perm_iff]
  exact Stmt.allKept_allNodes p.body

/-- Functions inside functions, and a class whose second constructor has one in it. -/
def shapesSource : List Char :=
  ("def outer(a)\n  def inner(b)\n    return b\n  end\n  return a\nend\n" ++
    "class Shape\n  def area()\n    return 1\n  end\n  def construct(x)\n    @x = x\n  end\n" ++
    "  def construct(y)\n    def lost()\n      return 1\n    end\n    @y = y\n  end\nend\n" ++
    "component Box\n  def show()\n    print 1\n  end\nend\n").toList

theorem functions_written_once_shapes : ∃ p compiled, check "m" shapesSource = .ok p ∧
    compile .standard "m" shapesSource = .ok compiled ∧
    Opened (helperOpenings ++ p.openings) compiled.solidRows ∧
    (p.openings.filterMap Opening.decl?).map FunctionOf.name =
      ["outer", "inner", "construct", "area", "show"] ∧
    (p.nodes.map fun n => (n.decl.name, n.kept)) =
      [("outer", true), ("inner", true), ("area", true),
      ("construct", true), ("construct", false), ("lost", false), ("show", true)] ∧
    ¬ (p.openings.filterMap Opening.decl?).Perm (p.nodes.map FunctionNode.decl) := by
  obtain ⟨p, hp, htest⟩ : ∃ p, check "m" shapesSource = .ok p ∧
      decide ((p.openings.filterMap Opening.decl?).map FunctionOf.name =
        ["outer", "inner", "construct", "area", "show"] ∧
        (p.nodes.map fun n => (n.decl.name, n.kept)) =
          [("outer", true), ("inner", true), ("area", true), ("construct", true),
            ("construct", false), ("lost", false), ("show", true)] ∧
            p.classes.map (fun c => c.methods.countP FunctionOf.isConstructor) = [2]) = true :=
    exists_check_ok (by decide +kernel)
  obtain ⟨hopenings, hnodes, hclasses⟩ := of_decide_eq_true htest
  obtain ⟨-, compiled, hcompiled, hopened, -, honce⟩ := functions_written_once hp .standard
  refine ⟨p, compiled, hp, hcompiled, hopened, hopenings, hnodes, fun hperm => ?_⟩
  have hmem : 2 ∈ p.classes.map (fun c => c.methods.countP FunctionOf.isConstructor) := by
    rw [hclasses]
    exact List.mem_singleton_self 2
  obtain ⟨c, hc, htwo⟩ := List.mem_map.1 hmem
  have hle := honce.1 hperm c hc
  omega

def pointSource : List Char :=
  ("class Point\n  def construct(x)\n    @x = x\n  end\n" ++
    "  def construct(x, y)\n    @y = y\n  end\nend\n").toList

/-- A class with two constructors has two functions in its tree, but its script has only one beside
the helpers. -/
theorem second_constructor_lost : ∃ p compiled, check "m" pointSource = .ok p ∧
    compile ⟨false⟩ "m" pointSource = .ok compiled ∧
    ((p.outline.walk fun _ => false).filter Outline.isFunction).length = 2 ∧
    (Script.starts compiled.solidRows).length = helperOpenings.length + 1 := by
  obtain ⟨p, hp, htest⟩ : ∃ p, check "m" pointSource = .ok p ∧
      decide (((p.outline.walk fun _ => false).filter Outline.isFunction).length = 2 ∧
        p.openings.length = 1) = true :=
    exists_check_ok (by decide +kernel)
  obtain ⟨hwalk, hopenings⟩ := of_decide_eq_true htest
  obtain ⟨m, hm, -⟩ := Program.lower_components (check_topLevel hp)
  refine ⟨p, _, hp, compile_of_lower hp hm ⟨false⟩, hwalk, ?_⟩
  rw [← (opened_of_lower hp hm ⟨false⟩).length_eq, List.length_append, hopenings]

end LayoutScript

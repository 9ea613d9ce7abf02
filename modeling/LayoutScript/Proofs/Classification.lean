import LayoutScript.Proofs.Concatenation
import LayoutScript.Proofs.Lowering
import LayoutScript.Proofs.TemplateRewriting

/-! What instance variables mean in a component. State and methods are local names, and everything
else is a field of the receiver: the methods of a component have the script of methods in which its
members are written as plain names, lowered where there is no component. -/
namespace LayoutScript

open LayoutScript.Script (Scope Members Statement)
open LayoutScript.Script.Template (segments adjacentSigils)

/-! ### Members as plain names -/

namespace Expr

mutual

/-- An expression with the members of a component written as plain names. -/
def resolve (members : Members) : Expr → Expr
  | .string value s => .string value s
  | .template raw s =>
    .template (String.ofList (Script.Template.mapSlots members.unmark raw.toList)) s
  | .number raw s => .number raw s
  | .boolean value s => .boolean value s
  | .null s => .null s
  | .identifier name s => .identifier name s
  | .instanceVar name s =>
    if members.declares name then .identifier name s else .instanceVar name s
  | .instanceVarAccess name properties s =>
    if members.declares name then .propertyAccess (.identifier name s) properties s
    else .instanceVarAccess name properties s
  | .propertyAccess object properties s => .propertyAccess (object.resolve members) properties s
  | .construct className args s => .construct className (resolveAll members args) s
  | .call callee args s => .call callee (resolveAll members args) s
  | .methodCall object method args s =>
    .methodCall (object.resolve members) method (resolveAll members args) s
  | .instanceMethodCall method args s => .call method (resolveAll members args) s
  | .binary left operator right grouped s =>
    .binary (left.resolve members) operator (right.resolve members) grouped s
  | .interpolation raw s => .interpolation raw s

def resolveAll (members : Members) : List Expr → List Expr
  | [] => []
  | e :: es => e.resolve members :: resolveAll members es

end

mutual

def templates : Expr → List String
  | .template raw _ => [raw]
  | .propertyAccess object _ _ => object.templates
  | .construct _ args _ | .call _ args _ | .instanceMethodCall _ args _ => allTemplates args
  | .methodCall object _ args _ => object.templates ++ allTemplates args
  | .binary left _ right _ _ => left.templates ++ right.templates
  | .string .. | .number .. | .boolean .. | .null _ | .identifier .. | .instanceVar ..
  | .instanceVarAccess .. | .interpolation .. => []

def allTemplates : List Expr → List String
  | [] => []
  | e :: es => e.templates ++ allTemplates es

end

end Expr

namespace Stmt

mutual

/-- A statement with the members of a component written as plain names, and assignments to its state
as calls. A class has fields of its own. -/
def resolve (members : Members) : Stmt → Stmt
  | .function ⟨name, params, type, body, s⟩ =>
    .function ⟨name, params, type, resolveAll members body, s⟩
  | .classDecl c => .classDecl c
  | .component c => .component c
  | .assign name value s => .assign name (value.resolve members) s
  | .assignProperty object properties target value s =>
    .assignProperty (object.resolve members) properties target (value.resolve members) s
  | .assignInstanceVar name value s =>
    if members.state.contains name then
      .expr (.call (Script.setterName name) [value.resolve members] s)
    else .assignInstanceVar name (value.resolve members) s
  | .print value s => .print (value.resolve members) s
  | .give value s => .give (value.map (Expr.resolve members)) s
  | .branch condition body elsifs otherwise hasElse s =>
    .branch (condition.resolve members) (resolveAll members body) (resolveElsifs members elsifs)
      (resolveAll members otherwise) hasElse s
  | .expr e => .expr (e.resolve members)

def resolveElsifs (members : Members) : List (ElsifOf Stmt) → List (ElsifOf Stmt)
  | [] => []
  | ⟨condition, body⟩ :: es =>
    ⟨condition.resolve members, resolveAll members body⟩ :: resolveElsifs members es

def resolveAll (members : Members) : List Stmt → List Stmt
  | [] => []
  | s :: ss => s.resolve members :: resolveAll members ss

end

mutual

def templates : Stmt → List String
  | .function ⟨_, _, _, body, _⟩ => allTemplates body
  | .classDecl _ | .component _ => []
  | .assign _ value _ | .assignInstanceVar _ value _ | .print value _ => value.templates
  | .assignProperty object _ _ value _ => object.templates ++ value.templates
  | .give value _ => value.toList.flatMap Expr.templates
  | .branch condition body elsifs otherwise _ _ =>
    condition.templates ++ allTemplates body ++ elsifTemplates elsifs ++ allTemplates otherwise
  | .expr e => e.templates

def elsifTemplates : List (ElsifOf Stmt) → List String
  | [] => []
  | ⟨condition, body⟩ :: es => condition.templates ++ allTemplates body ++ elsifTemplates es

def allTemplates : List Stmt → List String
  | [] => []
  | s :: ss => s.templates ++ allTemplates ss

end

end Stmt

def FunctionOf.resolve (members : Members) (f : FunctionDecl) : FunctionDecl :=
  { f with body := Stmt.resolveAll members f.body }

def ComponentOf.members (c : ComponentDecl) : Members :=
  ⟨c.stateNames, c.methods.map FunctionOf.name⟩

/-- No slot of the template has two sigils next to each other. -/
def Script.Template.Spaced (raw : String) : Prop :=
  ∀ inside, .slot inside ∈ segments raw.toList → adjacentSigils inside = false

def Script.Template.Segment.isSpaced : Segment → Bool
  | .char _ => true
  | .slot inside => !adjacentSigils inside

theorem Script.Template.spaced_iff {raw : String} :
    Spaced raw ↔ (segments raw.toList).all Segment.isSpaced = true := by
  rw [Spaced, List.all_eq_true]
  constructor
  · intro h segment hmem
    cases segment with
    | char c => rfl
    | slot inside => rw [Segment.isSpaced, h inside hmem, Bool.not_false]
  · intro h inside hmem
    simpa [Segment.isSpaced] using h (.slot inside) hmem

instance (raw : String) : Decidable (Script.Template.Spaced raw) :=
  decidable_of_iff _ Script.Template.spaced_iff.symm

open LayoutScript.Script.Template (Spaced)

/-! ### Expressions -/

variable {members : Members} {declared : List String}

namespace Expr

mutual

theorem emit_resolve (e : Expr) (h : ∀ raw ∈ e.templates, Spaced raw) :
    (e.resolve members).emit (.alone declared) = e.emit (.within members declared) := by
  cases e with
  | string | number | boolean | null | identifier | interpolation => rfl
  | template raw s =>
    rw [templates] at h
    rw [resolve, emit, emit]
    exact Script.Template.emit_mapSlots_unmark (h raw List.mem_cons_self)
  | instanceVar name s =>
    rw [resolve, emit, Scope.instanceVar_within]
    split
    · rw [emit]
    · rw [emit, Scope.instanceVar_alone]
  | instanceVarAccess name properties s =>
    rw [resolve, emit, Scope.instanceVar_within]
    split
    · rw [emit, emit]
    · rw [emit, Scope.instanceVar_alone]
  | propertyAccess object properties s =>
    rw [templates] at h
    rw [resolve, emit, emit, emit_resolve object h]
  | construct className args s | call callee args s =>
    rw [templates] at h
    rw [resolve, emit, emit, emitAll_resolve args h]
  | instanceMethodCall method args s =>
    rw [templates] at h
    rw [resolve, emit, emit, emitAll_resolve args h]
    rfl
  | methodCall object method args s =>
    rw [templates, List.forall_mem_append] at h
    rw [resolve, emit, emit, emit_resolve object h.1, emitAll_resolve args h.2]
  | binary left operator right grouped s =>
    rw [templates, List.forall_mem_append] at h
    rw [resolve, emit, emit, emit_resolve left h.1, emit_resolve right h.2]

theorem emitAll_resolve (es : List Expr) (h : ∀ raw ∈ allTemplates es, Spaced raw) :
    emitAll (.alone declared) (resolveAll members es) = emitAll (.within members declared) es := by
  cases es with
  | nil => rfl
  | cons e es =>
    rw [allTemplates, List.forall_mem_append] at h
    rw [resolveAll, emitAll, emitAll, emit_resolve e h.1, emitAll_resolve es h.2]

end

theorem lowerExpr_of_standsAlone {e : Expr} (h : e.standsAlone = true) (scope : Scope) :
    Stmt.lowerExpr scope e = .ok (.eval (e.emit scope)) := by
  cases e <;> first | rfl | cases h

theorem standsAlone_resolve {e : Expr} (h : e.standsAlone = true) :
    (e.resolve members).standsAlone = true := by
  cases e <;> first | rfl | cases h

end Expr

/-! ### Statements -/

theorem Script.Scope.declareAll_within (names : List String) :
    (within members declared).declareAll names = within members (names.reverse ++ declared) :=
  declareAll_eq _ names

theorem Script.Scope.declareAll_alone (names : List String) :
    (alone declared).declareAll names = alone (names.reverse ++ declared) :=
  declareAll_eq _ names

namespace Stmt

/-- The script of a statement in a component is the script of the resolved statement alone. -/
def Agrees (members : Members) (s : Stmt) : Prop :=
  ∀ declared, ∃ t after, s.lower (.within members declared) = .ok (t, .within members after) ∧
    (s.resolve members).lower (.alone declared) = .ok (t, .alone after)

theorem lowerAll_agrees {body : List Stmt} (h : ∀ s ∈ body, s.Agrees members)
    (declared : List String) : ∃ ts, lowerAll (.within members declared) body = .ok ts ∧
      lowerAll (.alone declared) (resolveAll members body) = .ok ts := by
  induction body generalizing declared with
  | nil => exact ⟨[], by rw [lowerAll], by rw [resolveAll, lowerAll]⟩
  | cons s body ih =>
    obtain ⟨t, after, ht, ht'⟩ := h s List.mem_cons_self declared
    obtain ⟨ts, hts, hts'⟩ := ih (fun s hs => h s (List.mem_cons_of_mem _ hs)) after
    refine ⟨t :: ts, ?_, ?_⟩
    · simp only [lowerAll, ht, hts]
    · simp only [resolveAll, lowerAll, ht', hts']

theorem lowerFunction_agrees {f : FunctionDecl} (h : ∀ s ∈ f.body, s.Agrees members)
    (declared : List String) : ∃ m, lowerFunction (.within members declared) f = .ok m ∧
      lowerFunction (.alone declared) (f.resolve members) = .ok m := by
  obtain ⟨name, params, type, body, span⟩ := f
  obtain ⟨ts, hts, hts'⟩ := lowerAll_agrees h ((Param.names params).reverse ++ declared)
  refine ⟨⟨name, Param.names params, ts⟩, ?_, ?_⟩
  · rw [lowerFunction, Scope.declareAll_within, hts]
  · rw [FunctionOf.resolve, lowerFunction, Scope.declareAll_alone, hts']

theorem lowerElsifs_agrees {es : List Elsif} (h : ∀ e ∈ es, ∀ s ∈ e.body, s.Agrees members)
    (hs : ∀ e ∈ es, ∀ raw ∈ e.condition.templates, Spaced raw) (declared : List String) :
    ∃ bs, lowerElsifs (.within members declared) es = .ok bs ∧
      lowerElsifs (.alone declared) (resolveElsifs members es) = .ok bs := by
  induction es with
  | nil => exact ⟨[], by rw [lowerElsifs], by rw [resolveElsifs, lowerElsifs]⟩
  | cons e es ih =>
    obtain ⟨condition, body⟩ := e
    have hcondition : (condition.resolve members).emit (.alone declared) =
        condition.emit (.within members declared) :=
      Expr.emit_resolve condition (hs _ List.mem_cons_self)
    obtain ⟨ts, hts, hts'⟩ := lowerAll_agrees (h _ List.mem_cons_self) declared
    obtain ⟨bs, hbs, hbs'⟩ := ih (fun e he => h e (List.mem_cons_of_mem _ he))
      (fun e he => hs e (List.mem_cons_of_mem _ he))
    refine ⟨⟨condition.emit (.within members declared), ts⟩ :: bs, ?_, ?_⟩
    · simp only [lowerElsifs, hts, hbs]
    · simp only [resolveElsifs, lowerElsifs, hts', hbs', hcondition]

theorem spaced_of_mem {body : List Stmt} (h : ∀ raw ∈ allTemplates body, Spaced raw) :
    ∀ s ∈ body, ∀ raw ∈ s.templates, Spaced raw := by
  induction body with
  | nil => simp
  | cons s body ih =>
    rw [allTemplates, List.forall_mem_append] at h
    exact List.forall_mem_cons.2 ⟨h.1, ih h.2⟩

theorem spaced_of_mem_elsifs {es : List Elsif} (h : ∀ raw ∈ elsifTemplates es, Spaced raw) :
    ∀ e ∈ es, (∀ raw ∈ e.condition.templates, Spaced raw) ∧
      ∀ s ∈ e.body, ∀ raw ∈ s.templates, Spaced raw := by
  induction es with
  | nil => simp
  | cons e es ih =>
    obtain ⟨condition, body⟩ := e
    rw [elsifTemplates, List.forall_mem_append, List.forall_mem_append] at h
    exact List.forall_mem_cons.2 ⟨⟨h.1.1, spaced_of_mem h.1.2⟩, ih h.2⟩

theorem Code.agrees {s : Stmt} (h : s.Code) (hs : ∀ raw ∈ s.templates, Spaced raw) :
    s.Agrees members := by
  induction h with
  | @function f _ ih =>
    intro declared
    obtain ⟨name, params, type, body, span⟩ := f
    rw [templates] at hs
    obtain ⟨m, hm, hm'⟩ :=
      lowerFunction_agrees (fun s hmem => ih s hmem (spaced_of_mem hs s hmem)) declared
    refine ⟨.function m, declared, ?_, ?_⟩
    · rw [lower, hm]
    · rw [resolve, lower]
      simp only [FunctionOf.resolve] at hm'
      rw [hm']
  | @classDecl c hc _ =>
    intro declared
    obtain ⟨r, hr⟩ := (Stmt.Code.classDecl hc).lowers .empty
    obtain ⟨name, properties, methods, span⟩ := c
    rw [lower] at hr
    cases hm : allOk (constructorFirst (lowerMembers methods)) with
    | error e =>
      rw [hm] at hr
      cases hr
    | ok ms => exact ⟨.classDecl name ms, declared, by rw [lower, hm], by rw [resolve, lower, hm]⟩
  | @assign name value span =>
    intro declared
    rw [templates] at hs
    rw [resolve, lower, lower, Expr.emit_resolve value hs]
    cases hd : declared.contains name with
    | true =>
      refine ⟨.setVar name _, declared, if_pos hd, if_pos hd⟩
    | false =>
      refine ⟨.letVar name _, name :: declared, if_neg ?_, if_neg ?_⟩ <;>
        exact Bool.eq_false_iff.1 hd
  | @assignProperty object properties target value span =>
    intro declared
    rw [templates, List.forall_mem_append] at hs
    refine ⟨.setField
      ((Expr.propertyAccess object properties target).emit (.within members declared))
        (value.emit (.within members declared)), declared, by rw [lower], ?_⟩
    rw [resolve, lower, Expr.emit_resolve value hs.2, Expr.emit, Expr.emit_resolve object hs.1,
      Expr.emit]
  | @assignInstanceVar name value span =>
    intro declared
    rw [templates] at hs
    rw [resolve, lower]
    cases hstate : members.state.contains name with
    | true =>
      refine ⟨_, declared, if_pos hstate, ?_⟩
      rw [if_pos rfl, lower, Expr.lowerExpr_of_standsAlone rfl, Expr.emit, Expr.emitAll,
        Expr.emitAll, Expr.emit_resolve value hs]
      rfl
    | false =>
      have hscope : ¬ (Scope.within members declared).isState name = true :=
        Bool.eq_false_iff.1 hstate
      refine ⟨_, declared, if_neg hscope, ?_⟩
      rw [if_neg Bool.false_ne_true, lower, Expr.emit_resolve value hs]
      rfl
  | @print value span =>
    intro declared
    rw [templates] at hs
    refine ⟨_, declared, by rw [lower], ?_⟩
    rw [resolve, lower, Expr.emit_resolve value hs]
  | @give value span =>
    intro declared
    rw [templates] at hs
    refine ⟨_, declared, by rw [lower], ?_⟩
    rw [resolve, lower]
    cases value with
    | none => rfl
    | some value =>
      have hvalue : ∀ raw ∈ value.templates, Spaced raw := by simpa using hs
      rw [Option.map_some, Option.map_some, Option.map_some, Expr.emit_resolve value hvalue]
  | @branch condition body elsifs otherwise hasElse span _ _ _ ihb ihe iho =>
    intro declared
    simp only [templates, List.forall_mem_append] at hs
    obtain ⟨⟨⟨hcondition, hbody⟩, helsifs⟩, hotherwise⟩ := hs
    obtain ⟨ts, hts, hts'⟩ :=
      lowerAll_agrees (fun s hmem => ihb s hmem (spaced_of_mem hbody s hmem)) declared
    obtain ⟨bs, hbs, hbs'⟩ := lowerElsifs_agrees
      (fun e he s hmem => ihe e he s hmem ((spaced_of_mem_elsifs helsifs e he).2 s hmem))
      (fun e he => (spaced_of_mem_elsifs helsifs e he).1) declared
    obtain ⟨os, hos, hos'⟩ :=
      lowerAll_agrees (fun s hmem => iho s hmem (spaced_of_mem hotherwise s hmem)) declared
    rw [resolve, lower, lower, hts, hts', hbs, hbs', hos, hos',
      Expr.emit_resolve condition hcondition]
    cases hasElse with
    | true => exact ⟨_, declared, rfl, rfl⟩
    | false => exact ⟨_, declared, rfl, rfl⟩
  | @expr e he =>
    intro declared
    rw [templates] at hs
    refine ⟨.eval (e.emit (.within members declared)), declared, ?_, ?_⟩
    · rw [lower, Expr.lowerExpr_of_standsAlone he]
    · rw [resolve, lower, Expr.lowerExpr_of_standsAlone (Expr.standsAlone_resolve he),
        Expr.emit_resolve e hs]

end Stmt

/-! ### Components -/

theorem Program.exists_item {body : List Stmt} {c : ComponentDecl} {styledCount before : Nat}
    {scope : Scope} {items : List Script.Item}
    (h : lowerItems styledCount scope before body = .ok items) (hc : .component c ∈ body) :
    ∃ before component, c.lower styledCount before = .ok component ∧
      .component component ∈ items := by
  induction body generalizing scope before items with
  | nil => cases hc
  | cons s body ih =>
    cases Program.lowerItems_cons h with
    | inl hcomponent =>
      obtain ⟨d, component, rest, rfl, hd, hrest, rfl⟩ := hcomponent
      cases List.mem_cons.1 hc with
      | inl heq =>
        cases heq
        exact ⟨before, component, hd, List.mem_cons_self⟩
      | inr hmem =>
        obtain ⟨before, component, hlower, hitem⟩ := ih hrest hmem
        exact ⟨before, component, hlower, List.mem_cons_of_mem _ hitem⟩
    | inr hstatement =>
      obtain ⟨t, after, rest, hne, _, hrest, rfl⟩ := hstatement
      cases List.mem_cons.1 hc with
      | inl heq => exact absurd heq.symm (hne c)
      | inr hmem =>
        obtain ⟨before, component, hlower, hitem⟩ := ih hrest hmem
        exact ⟨before, component, hlower, List.mem_cons_of_mem _ hitem⟩

namespace ComponentOf

theorem scope_eq_within (c : ComponentDecl) : c.scope = .within c.members c.scope.declared := by
  have hscope : c.scope = .within c.members ((c.props.map Entry.name).reverse ++ []) :=
    @Scope.declareAll_within c.members [] (c.props.map Entry.name)
  rw [hscope]
  rfl

theorem methods_of_lower {c : ComponentDecl} {styledCount before : Nat}
    {component : Script.Component} (h : c.lower styledCount before = .ok component) :
    c.methods.map (Stmt.lowerFunction c.scope) = component.methods.map .ok := by
  apply eq_map_of_allOk
  rw [lower_eq] at h
  split at h
  · cases h
  · next hm =>
    cases h
    exact hm

end ComponentOf

/-- The methods of an accepted component have the script of methods in which its members are plain
names, lowered with the same variables and no component around. Every other instance variable is a
field of the receiver wherever it is read or assigned. -/
theorem component_methods_resolved {source : String} {code : List Char} {p : Program}
    {c : ComponentDecl} (hp : check source code = .ok p) (hc : .component c ∈ p.body)
    (hs : ∀ f ∈ c.methods, ∀ raw ∈ Stmt.allTemplates f.body, Spaced raw) :
    (∃ m before component, p.lower = .ok m ∧ .component component ∈ m.items ∧
      c.lower p.styledCount before = .ok component ∧
      c.methods.map (Stmt.lowerFunction c.scope) = component.methods.map .ok ∧
      (c.methods.map (FunctionOf.resolve c.members)).map
        (Stmt.lowerFunction (.alone c.scope.declared)) = component.methods.map .ok) ∧
    c.scope = .within c.members c.scope.declared ∧
    ∀ declared name span, name ∉ c.stateNames → name ∉ c.methods.map FunctionOf.name →
      (Expr.instanceVar name span).emit (.within c.members declared) = "this." ++ name ∧
      (∀ properties,
        (Expr.instanceVarAccess name properties span).emit (.within c.members declared) =
        "this." ++ name ++ "." ++ ".".intercalate properties) ∧
      ∀ value, (Stmt.assignInstanceVar name value span).lower (.within c.members declared) =
        .ok (.setField ("this." ++ name) (value.emit (.within c.members declared)),
          .within c.members declared) := by
  refine ⟨?_, c.scope_eq_within, ?_⟩
  · obtain ⟨items, hitems⟩ := Program.lowerItems_eq_ok (check_topLevel hp) p.styledCount .empty 0
    obtain ⟨before, component, hlower, hitem⟩ := Program.exists_item hitems hc
    have hcode : ∀ f ∈ c.methods, ∀ s ∈ f.body, s.Code := by
      cases check_topLevel hp _ hc with
      | component hcode => exact hcode
      | code hcode => cases hcode
    have hmethods := ComponentOf.methods_of_lower hlower
    have hsame : c.methods.map (Stmt.lowerFunction (.alone c.scope.declared) ∘
        FunctionOf.resolve c.members) = c.methods.map (Stmt.lowerFunction c.scope) := by
      apply List.map_congr_left
      intro f hf
      have hagrees : ∀ s ∈ f.body, s.Agrees c.members := fun s hmem =>
        (hcode f hf s hmem).agrees (Stmt.spaced_of_mem (hs f hf) s hmem)
      obtain ⟨m, hm, hm'⟩ := Stmt.lowerFunction_agrees hagrees c.scope.declared
      rw [Function.comp_apply, hm', c.scope_eq_within]
      exact hm.symm
    refine ⟨⟨p.imported, items⟩, before, component, ?_, hitem, hlower, hmethods, ?_⟩
    · rw [Program.lower, hitems]
    · rw [List.map_map, hsame, hmethods]
  · intro declared name span hstate hmethod
    have hstate' : c.stateNames.contains name = false := by simpa using hstate
    have hdeclares : c.members.declares name = false := by
      simp only [Members.declares, ComponentOf.members, hstate', Bool.false_or]
      simpa using hmethod
    refine ⟨?_, fun properties => ?_, fun value => ?_⟩
    · rw [Expr.emit, Scope.instanceVar_within, hdeclares]
      rfl
    · rw [Expr.emit, Scope.instanceVar_within, hdeclares]
      rfl
    · rw [Stmt.lower]
      exact if_neg (Bool.eq_false_iff.1 hstate')

def boxSource : List Char :=
  ("component Box\n  state\n    n : number = 0\n  end\n  def bump(k)\n    @n = @n + k\n" ++
    "    @m = @m + @n.size\n    if @bump\n      k = \"#\x7b @n \x7d and #\x7b@k@n\x7d\"\n    end\n"
      ++
    "    def again()\n      @bump(@n)\n    end\n  end\nend\n").toList

def Stmt.isBox : Stmt → Bool
  | .component c => c.stateNames == ["n"] && c.methods.map FunctionOf.name == ["bump"] &&
    decide (∀ f ∈ c.methods, ∀ raw ∈ Stmt.allTemplates f.body, Spaced raw)
  | _ => false

theorem component_methods_resolved_box :
    ∃ p c, check "m" boxSource = .ok p ∧ .component c ∈ p.body ∧
      (∀ f ∈ c.methods, ∀ raw ∈ Stmt.allTemplates f.body, Spaced raw) ∧
      (∃ m component, p.lower = .ok m ∧ .component component ∈ m.items ∧
        (c.methods.map (FunctionOf.resolve c.members)).map
          (Stmt.lowerFunction (.alone c.scope.declared)) = component.methods.map .ok) ∧
      (Expr.instanceVar "m" .origin).emit c.scope = "this.m" := by
  obtain ⟨p, hp, htest⟩ : ∃ p, check "m" boxSource = .ok p ∧ p.body.any Stmt.isBox = true :=
    exists_check_ok (by decide +kernel)
  obtain ⟨s, hmem, hbox⟩ := List.any_eq_true.1 htest
  cases s with
  | component c =>
    simp only [Stmt.isBox, Bool.and_eq_true, beq_iff_eq, decide_eq_true_eq] at hbox
    obtain ⟨⟨hstate, hmethods⟩, hs⟩ := hbox
    obtain ⟨⟨m, _, component, hlower, hitem, _, _, hsame⟩, hscope, hfields⟩ :=
      component_methods_resolved hp hmem hs
    have hfield := (hfields c.scope.declared "m" .origin (by simp [hstate]) (by simp [hmethods])).1
    rw [← hscope] at hfield
    exact ⟨p, c, hp, hmem, hs, ⟨m, component, hlower, hitem, hsame⟩, hfield⟩
  | _ => cases hbox

end LayoutScript

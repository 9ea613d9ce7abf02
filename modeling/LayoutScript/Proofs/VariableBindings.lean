import Mathlib.Data.List.Forall2
import LayoutScript.Proofs.GeneratedNames
import LayoutScript.Proofs.LineSites
import LayoutScript.Proofs.Occurrences

/-! Where the variables of a function are declared. A variable is declared at its first assignment,
for the block of that assignment and the blocks inside it. So it has one declaration in its function
if all lines that use it later are in that block, and only then. -/
namespace LayoutScript

open LayoutScript.Script (Scope Statement Method)

/-! ### The functions of a program -/

namespace Stmt

mutual

/-- The functions and methods in a statement that become part of a script, each with the variables
that are known around it, in the order in which they are emitted. -/
def functions (outer : List String) : Stmt → List (List String × FunctionDecl)
  | .function f => functionsOf outer f
  | .classDecl ⟨_, _, methods, _⟩ => (constructorFirst (memberFunctions methods)).flatten
  | .component ⟨_, props, _, methods, _, _, _⟩ => methodFunctions (props.map Entry.name) methods
  | .branch _ body elsifs otherwise hasElse _ =>
    allFunctions outer body ++ elsifFunctions outer elsifs ++
      (if hasElse then allFunctions outer otherwise else [])
  | .assign .. | .assignProperty .. | .assignInstanceVar .. | .print .. | .give .. | .expr _ => []

def functionsOf (outer : List String) : FunctionOf Stmt → List (List String × FunctionDecl)
  | ⟨name, params, type, body, span⟩ =>
    (outer, ⟨name, params, type, body, span⟩) :: allFunctions (Param.names params ++ outer) body

def methodFunctions (outer : List String) :
    List (FunctionOf Stmt) → List (List String × FunctionDecl)
  | [] => []
  | f :: fs => functionsOf outer f ++ methodFunctions outer fs

/-- The methods of a class know nothing of what is around it. -/
def memberFunctions : List (FunctionOf Stmt) → List (Bool × List (List String × FunctionDecl))
  | [] => []
  | f :: fs => (f.isConstructor, functionsOf [] f) :: memberFunctions fs

def elsifFunctions (outer : List String) : List (ElsifOf Stmt) → List (List String × FunctionDecl)
  | [] => []
  | ⟨_, body⟩ :: es => allFunctions outer body ++ elsifFunctions outer es

def allFunctions (outer : List String) : List Stmt → List (List String × FunctionDecl)
  | [] => []
  | s :: ss => functions outer s ++ allFunctions (s.assigned ++ outer) ss

end

end Stmt

def Program.functions (p : Program) : List (List String × FunctionDecl) :=
  Stmt.allFunctions [] p.body

namespace Script

namespace Statement

mutual

def methods : Statement → List Method
  | .function m => methodsOf m
  | .classDecl _ members => allMethodsOf members
  | .branch ⟨_, body⟩ others otherwise =>
    allMethods body ++ branchMethods others ++ elseMethods otherwise
  | .letVar .. | .setVar .. | .setField .. | .eval _ | .give _ => []

def methodsOf : MethodOf Statement → List Method
  | ⟨name, params, body⟩ => ⟨name, params, body⟩ :: allMethods body

def allMethodsOf : List (MethodOf Statement) → List Method
  | [] => []
  | m :: ms => methodsOf m ++ allMethodsOf ms

def branchMethods : List (BranchOf Statement) → List Method
  | [] => []
  | ⟨_, body⟩ :: others => allMethods body ++ branchMethods others

def elseMethods : Option (List Statement) → List Method
  | none => []
  | some body => allMethods body

def allMethods : List Statement → List Method
  | [] => []
  | t :: ts => methods t ++ allMethods ts

end

end Statement

def Item.methods : Item → List Method
  | .statement s => s.methods
  | .component c => Statement.allMethodsOf c.methods

def Module.methods (m : Module) : List Method := m.items.flatMap Item.methods

end Script

/-- A function whose lines are lowered one by one, from a scope with the variables around it. -/
def EmittedAs (f : List String × FunctionDecl) (m : Method) : Prop :=
  ∃ scope : Scope, (∀ name, name ∈ scope.declared ↔ name ∈ f.1) ∧
      EmitsLines scope [] f.2.sites m.sites

namespace Stmt

def FunctionsEmitted (s : Stmt) : Prop :=
  ∀ {scope outer t after}, s.lower scope = .ok (t, after) →
    (∀ name, name ∈ scope.declared ↔ name ∈ outer) →
    List.Forall₂ EmittedAs (s.functions outer) t.methods

variable {scope : Scope} {outer : List String}

theorem mem_declared_after {s : Stmt} {t : Statement} {after : Scope}
    (h : s.lower scope = .ok (t, after)) (hscope : ∀ name, name ∈ scope.declared ↔ name ∈ outer)
    (name : String) :
    name ∈ after.declared ↔ name ∈ s.assigned ++ outer := by
  rw [(lower_emits h).declared, List.mem_append, List.mem_append, mem_lets h, hscope name]
  grind

theorem allFunctions_emitted {body : List Stmt} (hbody : ∀ s ∈ body, s.FunctionsEmitted)
    {ts : List Statement} (h : lowerAll scope body = .ok ts)
    (hscope : ∀ name, name ∈ scope.declared ↔ name ∈ outer) :
    List.Forall₂ EmittedAs (allFunctions outer body) (Statement.allMethods ts) := by
  induction body generalizing scope outer ts with
  | nil =>
    rw [lowerAll] at h
    cases h
    rw [allFunctions, Statement.allMethods]
    exact .nil
  | cons s body ih =>
    obtain ⟨t, after, rest, ht, hrest, rfl⟩ := lowerAll_cons h
    obtain ⟨hs, hbody⟩ := List.forall_mem_cons.1 hbody
    rw [allFunctions, Statement.allMethods]
    exact List.rel_append (hs ht hscope) (ih hbody hrest (mem_declared_after ht hscope))

theorem functionsOf_emitted {f : FunctionDecl} (hf : ∀ s ∈ f.body, s.Code)
    (hbody : ∀ s ∈ f.body, s.FunctionsEmitted) {m : Method}
    (hparams : m.params = Param.names f.params)
    (h : lowerAll (scope.declareAll (Param.names f.params)) f.body = .ok m.body)
    (hscope : ∀ name, name ∈ scope.declared ↔ name ∈ outer) :
    List.Forall₂ EmittedAs (functionsOf outer f) (Statement.methodsOf m) := by
  have hsites := lowerAll_sites hf h hparams
  obtain ⟨name, params, type, body, span⟩ := f
  obtain ⟨methodName, methodParams, ts⟩ := m
  rw [functionsOf, Statement.methodsOf]
  refine .cons ⟨scope, hscope, hsites⟩ (allFunctions_emitted hbody h fun name => ?_)
  rw [Script.Scope.Covered.mem_declareAll, List.mem_append, hscope name]

theorem lowerFunction_emitted {f : FunctionDecl} (hf : ∀ s ∈ f.body, s.Code)
    (hbody : ∀ s ∈ f.body, s.FunctionsEmitted) {m : Method} (h : lowerFunction scope f = .ok m)
    (hscope : ∀ name, name ∈ scope.declared ↔ name ∈ outer) :
    List.Forall₂ EmittedAs (functionsOf outer f) (Statement.methodsOf m) := by
  obtain ⟨hparams, hlower⟩ := lowerFunction_body h
  exact functionsOf_emitted hf hbody hparams hlower hscope

/-- Members in the same order, of which the same ones are constructors, keep the same ones first. -/
theorem constructorFirst_rel {R : α → β → Prop} {members : List (Bool × α)}
    {others : List (Bool × β)}
    (h : List.Forall₂ (fun a b => a.1 = b.1 ∧ R a.2 b.2) members others) :
    List.Forall₂ R (constructorFirst members) (constructorFirst others) := by
  have hfirst : List.Forall₂ (fun a b => a.1 = b.1 ∧ R a.2 b.2) (members.find? Prod.fst).toList
      (others.find? Prod.fst).toList := by
    induction h with
    | nil => exact .nil
    | @cons a b members others hab _ ih =>
      cases ha : a.1 with
      | true =>
        rw [List.find?_cons_of_pos ha, List.find?_cons_of_pos (hab.1 ▸ ha)]
        exact .cons hab .nil
      | false =>
        rw [List.find?_cons_of_neg (by simp [ha]), List.find?_cons_of_neg (by simp [← hab.1, ha])]
        exact ih
  have hrest : List.Forall₂ (fun a b => a.1 = b.1 ∧ R a.2 b.2) (members.filter fun m => !m.1)
      (others.filter fun m => !m.1) :=
    List.rel_filter (fun a b hab => by simp [hab.1]) h
  exact List.rel_map (fun _ _ hab => hab.2) (List.rel_append hfirst hrest)

def MemberEmitted (functions : List (List String × FunctionDecl))
    (r : Except UnknownNode Method) : Prop :=
  ∀ m, r = .ok m → List.Forall₂ EmittedAs functions (Statement.methodsOf m)

theorem memberFunctions_emitted {fs : List FunctionDecl} (hfs : ∀ f ∈ fs, ∀ s ∈ f.body, s.Code)
    (hbody : ∀ f ∈ fs, ∀ s ∈ f.body, s.FunctionsEmitted) :
    List.Forall₂
      (fun functions member => functions.1 = member.1 ∧ MemberEmitted functions.2 member.2)
      (memberFunctions fs) (lowerMembers fs) := by
  induction fs with
  | nil =>
    rw [memberFunctions, lowerMembers]
    exact .nil
  | cons f fs ih =>
    obtain ⟨hf, hrest⟩ := List.forall_mem_cons.1 hfs
    obtain ⟨hfBody, hrestBody⟩ := List.forall_mem_cons.1 hbody
    obtain ⟨name, params, type, body, span⟩ := f
    rw [memberFunctions, lowerMembers]
    refine .cons ⟨rfl, fun m hm => ?_⟩ (ih hrest hrestBody)
    dsimp only at hm
    split at hm
    · cases hm
    · next ts hts =>
      cases hm
      exact functionsOf_emitted hf hfBody rfl hts fun _ => Iff.rfl

theorem allMethodsOf_eq_flatten (ms : List Method) :
    Statement.allMethodsOf ms = (ms.map Statement.methodsOf).flatten := by
  induction ms with
  | nil => rw [Statement.allMethodsOf, List.map_nil, List.flatten_nil]
  | cons m ms ih => rw [Statement.allMethodsOf, List.map_cons, List.flatten_cons, ih]

theorem elsifFunctions_emitted {es : List Elsif} (hes : ∀ e ∈ es, ∀ s ∈ e.body, s.FunctionsEmitted)
    {bs : List (Script.BranchOf Statement)} (h : lowerElsifs scope es = .ok bs)
    (hscope : ∀ name, name ∈ scope.declared ↔ name ∈ outer) :
    List.Forall₂ EmittedAs (elsifFunctions outer es) (Statement.branchMethods bs) := by
  induction es generalizing bs with
  | nil =>
    rw [lowerElsifs] at h
    cases h
    rw [elsifFunctions, Statement.branchMethods]
    exact .nil
  | cons e es ih =>
    obtain ⟨hbody, hothers⟩ := List.forall_mem_cons.1 hes
    obtain ⟨ts, rest, hts, hrest, rfl⟩ := lowerElsifs_cons h
    obtain ⟨condition, body⟩ := e
    rw [elsifFunctions, Statement.branchMethods]
    exact List.rel_append (allFunctions_emitted hbody hts hscope) (ih hothers hrest)

theorem otherwiseFunctions_emitted {body : List Stmt} (hbody : ∀ s ∈ body, s.FunctionsEmitted)
    {hasElse : Bool} {ts : Option (List Statement)}
    (h : (if hasElse then (lowerAll scope body).map some else .ok none) = .ok ts)
    (hscope : ∀ name, name ∈ scope.declared ↔ name ∈ outer) :
    List.Forall₂ EmittedAs (if hasElse then allFunctions outer body else [])
      (Statement.elseMethods ts) := by
  cases lowerElse_eq h with
  | inl hnone =>
    obtain ⟨rfl, rfl⟩ := hnone
    exact .nil
  | inr hsome =>
    obtain ⟨ts, rfl, rfl, hts⟩ := hsome
    exact allFunctions_emitted hbody hts hscope

theorem functionsEmitted_of_isLine {s : Stmt} (hs : s.isLine = true) : s.FunctionsEmitted := by
  intro scope outer t after h _
  have ht := (lower_isLine hs h).1
  have hfunctions : s.functions outer = [] := by
    cases s <;> cases hs <;> rw [functions]
  have hmethods : t.methods = [] := by
    cases t <;> cases ht <;> rw [Statement.methods]
  rw [hfunctions, hmethods]
  exact .nil

theorem Code.functionsEmitted {s : Stmt} (h : s.Code) : s.FunctionsEmitted := by
  induction h with
  | function hf ih =>
    intro scope outer t after h hscope
    obtain ⟨m, hm, rfl, _⟩ := lower_function h
    rw [functions, Statement.methods]
    exact lowerFunction_emitted hf ih hm hscope
  | @classDecl c hc ih =>
    intro scope outer t after h _
    obtain ⟨members, hmembers, rfl, _⟩ := lower_classDecl h
    have hfirst := constructorFirst_rel (memberFunctions_emitted hc ih)
    rw [hmembers, List.forall₂_map_right_iff] at hfirst
    obtain ⟨name, properties, methods, span⟩ := c
    rw [functions, Statement.methods, allMethodsOf_eq_flatten]
    apply List.rel_flatten
    rw [List.forall₂_map_right_iff]
    exact hfirst.imp fun functions m hm => hm m rfl
  | branch _ _ _ ihb ihe iho =>
    intro scope outer t after h hscope
    obtain ⟨ts, bs, os, hts, hbs, hos, rfl, _⟩ := lower_branch h
    rw [functions, Statement.methods]
    exact List.rel_append (List.rel_append (allFunctions_emitted ihb hts hscope)
      (elsifFunctions_emitted ihe hbs hscope)) (otherwiseFunctions_emitted iho hos hscope)
  | assign | assignProperty | assignInstanceVar | print | give | expr =>
    exact functionsEmitted_of_isLine rfl

end Stmt

theorem Stmt.methodFunctions_emitted {scope : Scope} {outer : List String} {fs : List FunctionDecl}
    {ms : List Method} (h : List.Forall₂ (fun f m => lowerFunction scope f = .ok m) fs ms)
    (hfs : ∀ f ∈ fs, ∀ s ∈ f.body, s.Code) (hscope : ∀ name, name ∈ scope.declared ↔ name ∈ outer) :
    List.Forall₂ EmittedAs (methodFunctions outer fs) (Statement.allMethodsOf ms) := by
  induction h with
  | nil =>
    rw [methodFunctions, Statement.allMethodsOf]
    exact .nil
  | cons hm _ ih =>
    obtain ⟨hf, hfs⟩ := List.forall_mem_cons.1 hfs
    rw [methodFunctions, Statement.allMethodsOf]
    exact List.rel_append
      (lowerFunction_emitted hf (fun s hs => (hf s hs).functionsEmitted) hm hscope)
      (ih hfs)

@[simp] theorem ComponentOf.mem_scope_declared {c : ComponentDecl} (name : String) :
    name ∈ c.scope.declared ↔ name ∈ c.props.map Entry.name := by
  rw [scope, Script.Scope.Covered.mem_declareAll]
  simp [Scope.empty]

theorem Program.lowerItems_functions {body : List Stmt} (htop : ∀ s ∈ body, s.TopLevel)
    {styledCount before : Nat} {scope : Scope} {outer : List String} {items : List Script.Item}
    (h : lowerItems styledCount scope before body = .ok items)
    (hscope : ∀ name, name ∈ scope.declared ↔ name ∈ outer) :
    List.Forall₂ EmittedAs (Stmt.allFunctions outer body) (items.flatMap Script.Item.methods) := by
  induction body generalizing scope outer before items with
  | nil =>
    cases h
    rw [Stmt.allFunctions]
    exact .nil
  | cons s body ih =>
    obtain ⟨hs, hbody⟩ := List.forall_mem_cons.1 htop
    rw [Stmt.allFunctions]
    cases lowerItems_cons h with
    | inl hcomponent =>
      obtain ⟨c, component, rest, rfl, hc, hrest, rfl⟩ := hcomponent
      rw [List.flatMap_cons]
      refine List.rel_append ?_ (ih hbody hrest hscope)
      cases hs with
      | code hs => cases hs
      | component hcode =>
        have hmethods := Stmt.methodFunctions_emitted (ComponentOf.methods_lowered hc) hcode
          ComponentOf.mem_scope_declared
        obtain ⟨name, props, state, methods, render, style, span⟩ := c
        rw [Stmt.functions, Script.Item.methods]
        exact hmethods
    | inr hstatement =>
      obtain ⟨t, after, rest, hne, ht, hrest, rfl⟩ := hstatement
      rw [List.flatMap_cons]
      cases hs with
      | component => exact absurd rfl (hne _)
      | code hs =>
        exact List.rel_append (hs.functionsEmitted ht hscope)
          (ih hbody hrest (Stmt.mem_declared_after ht hscope))

/-! ### The lines that use a variable -/

namespace Script.Template

/-- The names in a slot that stand for variables: those that follow neither a sigil nor a dot. The
first `covered` characters belong to a name that has been read, and `before` is the character
before. -/
def variablesFrom : Char → Nat → List Char → List String
  | _, _, [] => []
  | before, covered + 1, _ :: cs => variablesFrom before covered cs
  | before, 0, c :: cs =>
    let name := leadingName (c :: cs)
    let others := variablesFrom c (name.length - 1) cs
    if name.isEmpty || isWordChar before || before == '@' || before == '.' then others
    else String.ofList name :: others

def Part.variables : Part → List String
  | .text _ => []
  | .slot cs => variablesFrom ' ' 0 cs

end Script.Template

/-- The variables that an expression reads itself, the expressions inside it aside. -/
def Expr.variables : Expr → List String
  | .identifier name _ | .construct name _ _ | .call name _ _ => [name]
  | .template raw _ => (Script.Template.parts raw.toList).flatMap Script.Template.Part.variables
  | .interpolation raw _ => Script.Template.variablesFrom ' ' 0 raw.toList
  | .string .. | .number .. | .boolean .. | .null _ | .instanceVar .. | .instanceVarAccess ..
  | .propertyAccess .. | .methodCall .. | .instanceMethodCall .. | .binary .. => []

namespace Piece

def expressions : Piece → List Expr
  | .condition e => e.parts
  | .line s => s.expressions
  | .header _ | .params _ | .classLine _ => []

def assigned : Piece → List String
  | .line s => s.assigned
  | .header _ | .params _ | .classLine _ | .condition _ => []

/-- The variables that a line reads or assigns. -/
def uses (s : Piece) : List String := s.assigned ++ s.expressions.flatMap Expr.variables

end Piece

def Script.Piece.lets : Piece → List String
  | .line t => t.lets
  | .header _ | .params _ | .classLine _ | .condition _ => []

abbrev LinePair := Site Piece × Site Script.Piece

/-- Whether a line is in no function inside the one whose lines are laid out. -/
def Site.isOwn (s : Site κ) : Bool := s.block.all fun step => !step.isFunction

def ownLines (f : FunctionDecl) (m : Method) : List LinePair :=
  (f.sites.zip m.sites).filter fun l => l.1.isOwn

/-- The place where `x` becomes a variable of a function that stands where the variables `outer` are
known: the function has no line before it that binds `x`, the one of its parameters included. -/
structure FirstAssigned (outer : List String) (lines : List LinePair) (x : String)
    (before : List LinePair) (first : LinePair) (later : List LinePair) : Prop where
  lines_eq : lines = before ++ first :: later
  assigned : x ∈ first.1.piece.assigned
  fresh : ∀ l ∈ before, x ∉ l.1.piece.binds
  inner : x ∉ outer

/-- The first assignment declares the variable, no later line does it again, and every later line
that uses it is in the block of the declaration. -/
structure OneBinding (x : String) (first : LinePair) (later : List LinePair) : Prop where
  declared : x ∈ first.2.piece.lets
  once : ∀ l ∈ later, x ∉ l.2.piece.lets
  inScope : ∀ l ∈ later, x ∈ l.1.piece.uses → first.2.block <:+ l.2.block

/-- What the lines of a source say about it: no line outside the block of the first assignment uses
the variable. -/
def StaysInside (x : String) (first : LinePair) (later : List LinePair) : Prop :=
  ∀ l ∈ later, x ∈ l.1.piece.uses → first.1.block <:+ l.1.block

namespace EmitsLines

variable {outer : Scope} {earlier : List (Site Script.Piece)} {ss : List (Site Piece)}
  {ts : List (Site Script.Piece)}

theorem split (h : EmitsLines outer earlier ss ts) {before later : List LinePair} {l : LinePair}
    (heq : ss.zip ts = before ++ l :: later) :
    EmitsLines outer earlier (before.map Prod.fst) (before.map Prod.snd) ∧ l.2.block = l.1.block ∧
      l.1.piece.lower (outer.seenAt (earlier ++ before.map Prod.snd) l.1.block) =
        .ok l.2.piece := by
  induction h generalizing before with
  | nil => cases before <;> cases heq
  | @cons earlier s piece ss ts hs _ ih =>
    cases before with
    | nil =>
      cases heq
      exact ⟨.nil, rfl, by simpa using hs⟩
    | cons first before =>
      obtain ⟨rfl, hrest⟩ := List.cons.inj heq
      obtain ⟨hbefore, hblock, hl⟩ := ih hrest
      exact ⟨.cons hs hbefore, hblock, by simpa using hl⟩

end EmitsLines

/-! ### Which assignments declare -/

theorem Site.isOwn_of_suffix {s s' : Site κ} (h : s.block <:+ s'.block) (hs : s'.isOwn = true) :
    s.isOwn = true := by
  rw [isOwn, List.all_eq_true] at hs ⊢
  exact fun step hstep => hs step (h.subset hstep)

theorem Piece.assigned_subset_binds (s : Piece) : s.assigned ⊆ s.binds := by
  cases s <;> simp [assigned, binds]

theorem Piece.mem_lets {s : Piece} {scope : Scope} {piece : Script.Piece} {x : String}
    (h : s.lower scope = .ok piece) : x ∈ piece.lets ↔ x ∈ s.assigned ∧ x ∉ scope.declared := by
  cases s with
  | line s =>
    obtain ⟨t, after, ht, rfl⟩ := lower_line h
    exact Stmt.mem_lets ht
  | header | params | classLine | condition =>
    cases h
    simp [Script.Piece.lets, assigned]

theorem exists_of_ownLines_eq {f : FunctionDecl} {m : Method} {before later : List LinePair}
    {l : LinePair} (h : ownLines f m = before ++ l :: later) :
    ∃ all rest, f.sites.zip m.sites = all ++ l :: rest ∧
      all.filter (fun l => l.1.isOwn) = before ∧ l.1.isOwn = true := by
  obtain ⟨all, rest, heq, hbefore, hrest⟩ := List.filter_eq_append_iff.1 h
  obtain ⟨skipped, rest, rfl, hskipped, hown, _⟩ := List.filter_eq_cons_iff.1 hrest
  refine ⟨all ++ skipped, rest, by rw [heq, List.append_assoc], ?_, hown⟩
  rw [List.filter_append, hbefore, List.filter_eq_nil_iff.2 hskipped, List.append_nil]

namespace EmittedAs

variable {f : List String × FunctionDecl} {m : Method} {before later : List LinePair}
  {l first : LinePair}
  {x : String}

/-- A line of a function knows the variables around the function, and those that earlier lines of
the function bind in the blocks around the line. -/
theorem line (h : EmittedAs f m) (heq : ownLines f.2 m = before ++ l :: later) :
    ∃ scope : Scope, l.2.block = l.1.block ∧ l.1.piece.lower scope = .ok l.2.piece ∧
      ∀ x, x ∈ scope.declared ↔ x ∈ f.1 ∨
        ∃ e ∈ before, e.1.block <:+ l.1.block ∧ x ∈ e.1.piece.binds := by
  obtain ⟨outer, houter, hlines⟩ := h
  obtain ⟨all, rest, hall, rfl, hown⟩ := exists_of_ownLines_eq heq
  obtain ⟨hearlier, hblock, hl⟩ := hlines.split hall
  refine ⟨_, hblock, hl, fun x => ?_⟩
  rw [hearlier.mem_seenAt]
  apply or_congr (houter x)
  constructor
  · rintro ⟨s, hs, hsuffix, hx⟩
    obtain ⟨e, he, rfl⟩ := List.mem_map.1 hs
    exact ⟨e, List.mem_filter.2 ⟨he, Site.isOwn_of_suffix hsuffix hown⟩, hsuffix, hx⟩
  · rintro ⟨e, he, hsuffix, hx⟩
    exact ⟨e.1, List.mem_map_of_mem (List.mem_of_mem_filter he), hsuffix, hx⟩

theorem blocks (h : EmittedAs f m) : m.sites.map Site.block = f.2.sites.map Site.block := by
  obtain ⟨outer, _, hlines⟩ := h
  exact hlines.blocks

theorem block_eq (h : EmittedAs f m) (hl : l ∈ ownLines f.2 m) : l.2.block = l.1.block := by
  obtain ⟨before, later, heq⟩ := List.append_of_mem hl
  obtain ⟨scope, hblock, _⟩ := h.line heq
  exact hblock

/-- An assignment declares its variable exactly if no line before it in a block around it binds
it. -/
theorem mem_lets (h : EmittedAs f m) (heq : ownLines f.2 m = before ++ l :: later) (hx : x ∉ f.1) :
    x ∈ l.2.piece.lets ↔ x ∈ l.1.piece.assigned ∧
      ∀ e ∈ before, x ∈ e.1.piece.binds → ¬ e.1.block <:+ l.1.block := by
  obtain ⟨scope, _, hl, hscope⟩ := h.line heq
  rw [Piece.mem_lets hl, hscope x]
  apply and_congr_right
  intro _
  constructor
  · intro hnot e he hbinds hsuffix
    exact hnot (.inr ⟨e, he, hsuffix, hbinds⟩)
  · rintro hnone (hmem | ⟨e, he, hsuffix, hbinds⟩)
    · exact hx hmem
    · exact hnone e he hbinds hsuffix

theorem oneBinding_iff (h : EmittedAs f m)
    (hfirst : FirstAssigned f.1 (ownLines f.2 m) x before first later) :
    OneBinding x first later ↔ StaysInside x first later := by
  have hblock : ∀ l ∈ first :: later, l.2.block = l.1.block := by
    intro l hl
    apply h.block_eq
    rw [hfirst.lines_eq]
    exact List.mem_append_right before hl
  obtain ⟨hfirstBlock, hlaterBlock⟩ := List.forall_mem_cons.1 hblock
  constructor
  · intro hone l hl huses
    rw [← hfirstBlock, ← hlaterBlock l hl]
    exact hone.inScope l hl huses
  · intro hstays
    refine ⟨(h.mem_lets hfirst.lines_eq hfirst.inner).2 ⟨hfirst.assigned, ?_⟩, ?_, ?_⟩
    · exact fun e he hbinds => absurd hbinds (hfirst.fresh e he)
    · intro l hl hlets
      -- The first assignment is one of the lines before `l`, in a block around it.
      obtain ⟨middle, rest, rfl⟩ := List.append_of_mem hl
      have heq : ownLines f.2 m = (before ++ first :: middle) ++ l :: rest := by
        rw [hfirst.lines_eq, List.append_assoc, List.cons_append]
      obtain ⟨hassigned, hnone⟩ := (h.mem_lets heq hfirst.inner).1 hlets
      refine hnone first (by simp) (Piece.assigned_subset_binds _ hfirst.assigned) ?_
      exact hstays l hl (List.mem_append_left _ hassigned)
    · intro l hl huses
      rw [hfirstBlock, hlaterBlock l hl]
      exact hstays l hl huses

end EmittedAs

structure BindsByBlock (outer : List String) (f : FunctionDecl) (m : Method) : Prop where
  blocks : m.sites.map Site.block = f.sites.map Site.block
  declares : ∀ {x before l later}, ownLines f m = before ++ l :: later → x ∉ outer →
    (x ∈ l.2.piece.lets ↔ x ∈ l.1.piece.assigned ∧
      ∀ e ∈ before, x ∈ e.1.piece.binds → ¬ e.1.block <:+ l.1.block)
  oneBinding : ∀ {x before first later}, FirstAssigned outer (ownLines f m) x before first later →
    (OneBinding x first later ↔ StaysInside x first later)

/-- In every function and method of an accepted program, a variable has one binding exactly if no
line outside the block of its first assignment uses it later. -/
theorem one_binding_iff_staysInside {source : String} {code : List Char} {p : Program}
    (hp : check source code = .ok p) : ∃ m, p.lower = .ok m ∧
      List.Forall₂ (fun f method => BindsByBlock f.1 f.2 method) p.functions m.methods := by
  have htop := check_topLevel hp
  obtain ⟨items, hitems⟩ := Program.lowerItems_eq_ok htop p.styledCount .empty 0
  refine ⟨⟨p.imported, items⟩, by rw [Program.lower, hitems], ?_⟩
  have hemitted := Program.lowerItems_functions htop hitems fun _ => Iff.rfl
  exact hemitted.imp fun f method h =>
    ⟨h.blocks, fun heq hx => h.mem_lets heq hx, fun hfirst => h.oneBinding_iff hfirst⟩

def firstAssigned? (outer : List String) (lines : List LinePair) (x : String) :
    Option (List LinePair × LinePair × List LinePair) :=
  (lines.dropWhile fun l => !l.1.piece.binds.contains x).head?.bind fun first =>
    if x ∈ first.1.piece.assigned ∧ x ∉ outer then
      some (lines.takeWhile fun l => !l.1.piece.binds.contains x, first,
        (lines.dropWhile fun l => !l.1.piece.binds.contains x).tail)
    else none

theorem firstAssigned_of_eq_some {outer : List String} {lines before later : List LinePair}
    {x : String} {first : LinePair}
    (h : firstAssigned? outer lines x = some (before, first, later)) :
    FirstAssigned outer lines x before first later := by
  obtain ⟨found, hfound, h⟩ := Option.bind_eq_some_iff.1 h
  split at h
  · next hx =>
    cases h
    refine ⟨?_, hx.1, fun l hl => ?_, hx.2⟩
    · rw [List.cons_head?_tail hfound, List.takeWhile_append_dropWhile]
    · simpa using List.all_eq_true.1 List.all_takeWhile l hl
  · cases h

def Program.anyFirst (p : Program) (x : String) (test : LinePair → List LinePair → Bool) : Bool :=
  p.lower.toOption.any fun m => (p.functions.zip m.methods).any fun f =>
    (firstAssigned? f.1.1 (ownLines f.1.2 f.2) x).any fun r => test r.2.1 r.2.2

theorem Program.exists_of_anyFirst {p : Program} {x : String}
    {test : LinePair → List LinePair → Bool} (h : p.anyFirst x test = true) :
    ∃ m f method before first later, p.lower = .ok m ∧
      (f, method) ∈ p.functions.zip m.methods ∧
      FirstAssigned f.1 (ownLines f.2 method) x before first later ∧ test first later = true := by
  obtain ⟨m, hm, h⟩ := exists_ok_of_any h
  obtain ⟨⟨f, method⟩, hmem, h⟩ := List.any_eq_true.1 h
  obtain ⟨⟨before, first, later⟩, hfirst, htest⟩ := (Option.any_eq_true _ _).1 h
  exact ⟨m, f, method, before, first, later, hm, hmem, firstAssigned_of_eq_some hfirst, htest⟩

def straightSource : List Char :=
  ("t = 0\ndef f(c)\n  x = 1\n  if c\n    x = x + t\n  end\n  return x\nend\n").toList

instance (x : String) (first : LinePair) (later : List LinePair) :
    Decidable (StaysInside x first later) := by
  unfold StaysInside
  infer_instance

theorem one_binding_straight : ∃ p m f method before first later, check "m" straightSource = .ok p ∧
    p.lower = .ok m ∧ (f, method) ∈ p.functions.zip m.methods ∧
    FirstAssigned f.1 (ownLines f.2 method) "x" before first later ∧
    OneBinding "x" first later := by
  obtain ⟨p, hp, htest⟩ : ∃ p, check "m" straightSource = .ok p ∧
      (p.anyFirst "x" fun first later => decide (StaysInside "x" first later)) = true :=
    exists_check_ok (by decide +kernel)
  obtain ⟨m, f, method, before, first, later, hm, hmem, hfirst, hstays⟩ :=
    Program.exists_of_anyFirst htest
  obtain ⟨m', hm', hall⟩ := one_binding_iff_staysInside hp
  obtain rfl : m = m' := Except.ok.inj (hm.symm.trans hm')
  have hbinds : BindsByBlock f.1 f.2 method := (List.forall₂_iff_zip.1 hall).2 hmem
  exact ⟨p, m, f, method, before, first, later, hp, hm, hmem, hfirst,
    (hbinds.oneBinding hfirst).2 (of_decide_eq_true hstays)⟩

def branchingSource : List Char :=
  ("def f(c)\n  if c\n    x = 1\n  else\n    x = 2\n  end\n  return x\nend\n").toList

/-- A function may declare a variable twice, and read it where no declaration is in scope. -/
theorem two_bindings : ∃ p m f method before first later, check "m" branchingSource = .ok p ∧
    p.lower = .ok m ∧ (f, method) ∈ p.functions.zip m.methods ∧
    FirstAssigned f.1 (ownLines f.2 method) "x" before first later ∧ "x" ∈ first.2.piece.lets ∧
    (∃ l ∈ later, "x" ∈ l.2.piece.lets) ∧
    ∃ l ∈ later, "x" ∈ l.1.piece.uses ∧
      ∀ d ∈ first :: later, "x" ∈ d.2.piece.lets → ¬ d.2.block <:+ l.2.block := by
  obtain ⟨p, hp, htest⟩ : ∃ p, check "m" branchingSource = .ok p ∧
      (p.anyFirst "x" fun first later => decide ("x" ∈ first.2.piece.lets ∧
        (∃ l ∈ later, "x" ∈ l.2.piece.lets) ∧ ∃ l ∈ later, "x" ∈ l.1.piece.uses ∧
          ∀ d ∈ first :: later, "x" ∈ d.2.piece.lets → ¬ d.2.block <:+ l.2.block)) = true :=
    exists_check_ok (by decide +kernel)
  obtain ⟨m, f, method, before, first, later, hm, hmem, hfirst, htest⟩ :=
    Program.exists_of_anyFirst htest
  exact ⟨p, m, f, method, before, first, later, hp, hm, hmem, hfirst, of_decide_eq_true htest⟩

end LayoutScript

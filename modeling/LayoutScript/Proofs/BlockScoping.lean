import LayoutScript.Proofs.Concatenation
import LayoutScript.Proofs.Lowering

/-! Blocks of a script and the variables that they declare. An assignment stands where its variable
is bound, and no block declares a variable twice. -/
namespace LayoutScript

namespace Script

inductive Binding where
  | letLine (name : String)
  | param (name : String)
  | prop (name : String)
  deriving DecidableEq, Repr

def Binding.name : Binding → String
  | .letLine name | .param name | .prop name => name

def Statement.lets : Statement → List String
  | .letVar name _ => [name]
  | .setVar .. | .setField .. | .eval _ | .give _ | .branch .. | .function _ | .classDecl .. => []

/-- The statements between two braces, or those of a whole script. -/
structure Block where
  visible : List Binding
  /-- The parameters of the function or method whose body the block is. -/
  params : List String
  body : List Statement

namespace Block

def lets (b : Block) : List String := b.body.flatMap Statement.lets

/-- Every assignment lies in the scope of a binding: one from outside or a declaration before it. No
variable is declared twice, and none is a parameter of the same function. -/
structure Sound (b : Block) : Prop where
  bound : ∀ before name value after, b.body = before ++ .setVar name value :: after →
    ∃ binding ∈ (before.flatMap Statement.lets).map .letLine ++ b.visible, binding.name = name
  distinct : b.lets.Nodup
  params : ∀ name ∈ b.params, name ∉ b.lets

end Block

namespace Statement

mutual

/-- The blocks in a statement, which see what is visible where it stands. -/
def blocks (visible : List Binding) : Statement → List Block
  | .letVar .. | .setVar .. | .setField .. | .eval _ | .give _ => []
  | .branch ⟨_, body⟩ others otherwise =>
    ⟨visible, [], body⟩ :: innerBlocks visible body ++ branchBlocks visible others ++
      elseBlocks visible otherwise
  | .function ⟨_, params, body⟩ =>
    ⟨params.map .param ++ visible, params, body⟩ :: innerBlocks (params.map .param ++ visible) body
  | .classDecl _ members => methodBlocks visible members

def branchBlocks (visible : List Binding) : List (BranchOf Statement) → List Block
  | [] => []
  | ⟨_, body⟩ :: others =>
    ⟨visible, [], body⟩ :: innerBlocks visible body ++ branchBlocks visible others

def elseBlocks (visible : List Binding) : Option (List Statement) → List Block
  | none => []
  | some body => ⟨visible, [], body⟩ :: innerBlocks visible body

def methodBlocks (visible : List Binding) : List (MethodOf Statement) → List Block
  | [] => []
  | ⟨_, params, body⟩ :: methods =>
    ⟨params.map .param ++ visible, params, body⟩ ::
      innerBlocks (params.map .param ++ visible) body ++
      methodBlocks visible methods

/-- The blocks inside a block. Each sees the declarations before it. -/
def innerBlocks (visible : List Binding) : List Statement → List Block
  | [] => []
  | s :: ss => s.blocks visible ++ innerBlocks (s.lets.map .letLine ++ visible) ss

end

end Statement

def Component.blocks (visible : List Binding) (c : Component) : List Block :=
  Statement.methodBlocks (c.props.map (fun entry => .prop entry.1) ++ visible) c.methods

def Item.statement? : Item → Option Statement
  | .statement s => some s
  | .component _ => none

def itemBlocks (visible : List Binding) : List Item → List Block
  | [] => []
  | .statement s :: items => s.blocks visible ++ itemBlocks (s.lets.map .letLine ++ visible) items
  | .component c :: items => c.blocks visible ++ itemBlocks visible items

def Module.blocks (m : Module) : List Block :=
  ⟨[], [], m.items.filterMap Item.statement?⟩ :: itemBlocks [] m.items

end Script

open LayoutScript.Script (Scope Statement Binding Block Method)

/-! ### What one statement declares -/

/-- A statement that is emitted in `scope`, and the scope after it. -/
structure Script.Scope.Emits (scope : Scope) (t : Statement) (after : Scope) : Prop where
  declared : after.declared = t.lets ++ scope.declared
  fresh : ∀ name ∈ t.lets, name ∉ scope.declared
  assigned : ∀ name value, t = .setVar name value → name ∈ scope.declared

theorem Script.Scope.Emits.silent {scope : Scope} {t : Statement} (hlets : t.lets = [])
    (hset : ∀ name value, t ≠ .setVar name value) : scope.Emits t scope where
  declared := by rw [hlets, List.nil_append]
  fresh := by simp [hlets]
  assigned name value h := absurd h (hset name value)

namespace Stmt

theorem lowerExpr_emits {e : Expr} {scope : Scope} {t : Statement}
    (h : lowerExpr scope e = .ok t) : scope.Emits t scope := by
  cases e <;> cases h <;> exact .silent rfl (by simp)

theorem lower_emits {s : Stmt} {scope after : Scope} {t : Statement}
    (h : s.lower scope = .ok (t, after)) : scope.Emits t after := by
  cases s with
  | function f =>
    rw [lower] at h
    split at h
    · cases h
    · cases h
      exact .silent rfl (by simp)
  | classDecl c =>
    obtain ⟨name, properties, methods, span⟩ := c
    rw [lower] at h
    split at h
    · cases h
    · cases h
      exact .silent rfl (by simp)
  | component c =>
    rw [lower] at h
    cases h
  | assign name value span =>
    rw [lower] at h
    split at h
    · next hd =>
      cases h
      refine ⟨rfl, by simp [Statement.lets], fun n v heq => ?_⟩
      cases heq
      simpa [Scope.isDeclared] using hd
    · next hd =>
      cases h
      refine ⟨rfl, fun n hn => ?_, by simp⟩
      rw [List.mem_singleton.1 hn]
      simpa [Scope.isDeclared] using hd
  | assignProperty object properties target value span =>
    rw [lower] at h
    cases h
    exact .silent rfl (by simp)
  | assignInstanceVar name value span =>
    rw [lower] at h
    split at h
    · cases h
      exact .silent rfl (by simp)
    · cases h
      exact .silent rfl (by simp)
  | print value span =>
    rw [lower] at h
    cases h
    exact .silent rfl (by simp)
  | give value span =>
    rw [lower] at h
    cases h
    exact .silent rfl (by simp)
  | branch condition body elsifs otherwise hasElse span =>
    rw [lower] at h
    split at h
    · cases h
    · split at h
      · cases h
      · split at h
        · cases h
        · cases h
          exact .silent rfl (by simp)
  | expr e =>
    rw [lower] at h
    split at h
    · cases h
    · next he =>
      cases h
      exact lowerExpr_emits he

end Stmt

/-! ### What a run of statements declares -/

inductive Script.Scope.EmitsAll : Scope → List Statement → Prop
  | nil {scope} : EmitsAll scope []
  | cons {scope after t ts} : scope.Emits t after → EmitsAll after ts → EmitsAll scope (t :: ts)

namespace Script.Scope.EmitsAll

variable {scope : Scope} {ts : List Statement}

theorem fresh (h : EmitsAll scope ts) :
    ∀ name ∈ ts.flatMap Statement.lets, name ∉ scope.declared := by
  induction h with
  | nil => simp
  | cons ht _ ih =>
    intro name hmem
    rw [List.flatMap_cons, List.mem_append] at hmem
    cases hmem with
    | inl hmem => exact ht.fresh name hmem
    | inr hmem =>
      intro hd
      apply ih name hmem
      rw [ht.declared]
      exact List.mem_append_right _ hd

theorem distinct (h : EmitsAll scope ts) : (ts.flatMap Statement.lets).Nodup := by
  induction h with
  | nil => simp
  | @cons scope after t ts ht hts ih =>
    rw [List.flatMap_cons, List.nodup_append]
    refine ⟨?_, ih, fun name hmem other hother heq => ?_⟩
    · cases t <;> simp [Statement.lets]
    · apply hts.fresh other hother
      rw [ht.declared, ← heq]
      exact List.mem_append_left _ hmem

/-- A variable is assigned after its declaration, or it was declared before the run. -/
theorem assigned (h : EmitsAll scope ts) {before after : List Statement} {name value : String}
    (hts : ts = before ++ .setVar name value :: after) :
    name ∈ before.flatMap Statement.lets ∨ name ∈ scope.declared := by
  induction h generalizing before with
  | nil => cases before <;> cases hts
  | @cons scope middle t ts ht _ ih =>
    cases before with
    | nil =>
      cases hts
      exact .inr (ht.assigned name value rfl)
    | cons s before =>
      cases hts
      rw [List.flatMap_cons, List.mem_append]
      cases ih rfl with
      | inl hbefore => exact .inl (.inr hbefore)
      | inr hd =>
        rw [ht.declared, List.mem_append] at hd
        cases hd with
        | inl hlets => exact .inl (.inl hlets)
        | inr hd => exact .inr hd

end Script.Scope.EmitsAll

theorem Script.exists_binding_append {names : List String} {make : String → Binding}
    (hmake : ∀ name, (make name).name = name) {visible : List Binding} {name : String}
    (h : name ∈ names ∨ ∃ binding ∈ visible, binding.name = name) :
    ∃ binding ∈ names.map make ++ visible, binding.name = name := by
  cases h with
  | inl hname => exact ⟨make name, List.mem_append_left _ (List.mem_map_of_mem hname), hmake name⟩
  | inr hbound =>
    obtain ⟨binding, hbinding, hname⟩ := hbound
    exact ⟨binding, List.mem_append_right _ hbinding, hname⟩

def Script.Scope.Covered (scope : Scope) (visible : List Binding) : Prop :=
  ∀ name ∈ scope.declared, ∃ binding ∈ visible, binding.name = name

namespace Script.Scope.Covered

variable {scope after : Scope} {visible : List Binding}

theorem emits {t : Statement} (h : scope.Covered visible) (ht : scope.Emits t after) :
    after.Covered (t.lets.map .letLine ++ visible) := by
  intro name hmem
  rw [ht.declared, List.mem_append] at hmem
  exact exists_binding_append (fun _ => rfl) (hmem.imp_right (h name))

@[simp] theorem mem_declareAll {names : List String} {name : String} :
    name ∈ (scope.declareAll names).declared ↔ name ∈ names ∨ name ∈ scope.declared := by
  rw [declareAll_eq, List.mem_append, List.mem_reverse]

theorem declareAll (h : scope.Covered visible) {names : List String} {make : String → Binding}
    (hmake : ∀ name, (make name).name = name) :
    (scope.declareAll names).Covered (names.map make ++ visible) := by
  intro name hmem
  exact exists_binding_append hmake ((mem_declareAll.1 hmem).imp_right (h name))

theorem empty (visible : List Binding) : Scope.empty.Covered visible := by
  intro name hmem
  cases hmem

end Script.Scope.Covered

theorem Script.Scope.EmitsAll.sound {scope : Scope} {ts : List Statement} {visible : List Binding}
    {params : List String} (h : EmitsAll scope ts) (hv : scope.Covered visible)
    (hparams : ∀ name ∈ params, name ∈ scope.declared) : Block.Sound ⟨visible, params, ts⟩ where
  bound _ name _ _ hts :=
    exists_binding_append (fun _ => rfl) ((h.assigned hts).imp_right (hv name))
  distinct := h.distinct
  params name hname hlets := h.fresh name hlets (hparams name hname)

/-! ### Blocks of lowered statements -/

namespace Stmt

def SoundBlocks (s : Stmt) : Prop :=
  ∀ scope t after, s.lower scope = .ok (t, after) → ∀ visible, scope.Covered visible →
    ∀ block ∈ t.blocks visible, block.Sound

theorem lowerAll_cons {s : Stmt} {body : List Stmt} {scope : Scope} {ts : List Statement}
    (h : lowerAll scope (s :: body) = .ok ts) : ∃ t after rest,
      s.lower scope = .ok (t, after) ∧ lowerAll after body = .ok rest ∧ ts = t :: rest := by
  rw [lowerAll] at h
  split at h
  · cases h
  · next t after ht =>
    split at h
    · cases h
    · next rest hrest =>
      cases h
      exact ⟨t, after, rest, ht, hrest, rfl⟩

theorem lowerAll_emitsAll {body : List Stmt} {scope : Scope} {ts : List Statement}
    (h : lowerAll scope body = .ok ts) : scope.EmitsAll ts := by
  induction body generalizing scope ts with
  | nil =>
    rw [lowerAll] at h
    cases h
    exact .nil
  | cons s body ih =>
    obtain ⟨t, after, rest, ht, hrest, rfl⟩ := lowerAll_cons h
    exact .cons (lower_emits ht) (ih hrest)

theorem lowerAll_innerBlocks {body : List Stmt} (hbody : ∀ s ∈ body, s.SoundBlocks) {scope : Scope}
    {ts : List Statement} (h : lowerAll scope body = .ok ts) {visible : List Binding}
    (hv : scope.Covered visible) : ∀ block ∈ Statement.innerBlocks visible ts, block.Sound := by
  induction body generalizing scope ts visible with
  | nil =>
    rw [lowerAll] at h
    cases h
    simp [Statement.innerBlocks]
  | cons s body ih =>
    obtain ⟨t, after, rest, ht, hrest, rfl⟩ := lowerAll_cons h
    rw [Statement.innerBlocks]
    refine List.forall_mem_append.2 ⟨hbody s List.mem_cons_self scope t after ht visible hv, ?_⟩
    exact ih (fun s hs => hbody s (List.mem_cons_of_mem _ hs)) hrest (hv.emits (lower_emits ht))

theorem lowerAll_sound {body : List Stmt} (hbody : ∀ s ∈ body, s.SoundBlocks) {scope : Scope}
    {ts : List Statement} (h : lowerAll scope body = .ok ts) {visible : List Binding}
    (hv : scope.Covered visible) {params : List String}
    (hparams : ∀ name ∈ params, name ∈ scope.declared) :
    ∀ block ∈ ⟨visible, params, ts⟩ :: Statement.innerBlocks visible ts, block.Sound :=
  List.forall_mem_cons.2
    ⟨(lowerAll_emitsAll h).sound hv hparams, lowerAll_innerBlocks hbody h hv⟩

theorem method_sound {params : List Param} {body : List Stmt} (hbody : ∀ s ∈ body, s.SoundBlocks)
    {scope : Scope} {ts : List Statement}
    (h : lowerAll (scope.declareAll (Param.names params)) body = .ok ts) {visible : List Binding}
    (hv : scope.Covered visible) (name : String) :
    ∀ block ∈ Statement.methodBlocks visible [⟨name, Param.names params, ts⟩], block.Sound := by
  rw [Statement.methodBlocks, Statement.methodBlocks, List.append_nil]
  exact lowerAll_sound hbody h (hv.declareAll fun _ => rfl)
    fun _ hname => Script.Scope.Covered.mem_declareAll.2 (.inl hname)

theorem methodBlocks_eq_flatMap (visible : List Binding) (methods : List Method) :
    Statement.methodBlocks visible methods =
      methods.flatMap fun m => Statement.methodBlocks visible [m] := by
  induction methods with
  | nil => rfl
  | cons m methods ih =>
    obtain ⟨name, params, body⟩ := m
    rw [List.flatMap_cons, ← ih]
    simp [Statement.methodBlocks]

theorem lowerFunction_sound {f : FunctionDecl} (hf : ∀ s ∈ f.body, s.SoundBlocks) {scope : Scope}
    {m : Method} (h : lowerFunction scope f = .ok m) {visible : List Binding}
    (hv : scope.Covered visible) :
    ∀ block ∈ Statement.methodBlocks visible [m], block.Sound := by
  obtain ⟨name, params, type, body, span⟩ := f
  rw [lowerFunction] at h
  split at h
  · cases h
  · next hts =>
    cases h
    exact method_sound hf hts hv name

/-- A method of a class sees no scope around it, and what is visible there may only be more. -/
theorem lowerMembers_sound {fs : List FunctionDecl} (hfs : ∀ f ∈ fs, ∀ s ∈ f.body, s.SoundBlocks)
    {isConstructor : Bool} {m : Method} (h : (isConstructor, .ok m) ∈ lowerMembers fs)
    (visible : List Binding) : ∀ block ∈ Statement.methodBlocks visible [m], block.Sound := by
  induction fs with
  | nil => cases h
  | cons f fs ih =>
    obtain ⟨name, params, type, body, span⟩ := f
    rw [lowerMembers] at h
    cases List.mem_cons.1 h with
    | inl heq =>
      obtain ⟨rfl, hm⟩ := Prod.mk.inj heq
      split at hm
      · cases hm
      · next hts =>
        cases hm
        exact method_sound (hfs _ List.mem_cons_self) hts (.empty visible) _
    | inr hmem => exact ih (fun f hf => hfs f (List.mem_cons_of_mem _ hf)) hmem

theorem lowerElsifs_sound {es : List Elsif} (hes : ∀ e ∈ es, ∀ s ∈ e.body, s.SoundBlocks)
    {scope : Scope} {bs : List (Script.BranchOf Statement)} (h : lowerElsifs scope es = .ok bs)
    {visible : List Binding} (hv : scope.Covered visible) :
    ∀ block ∈ Statement.branchBlocks visible bs, block.Sound := by
  induction es generalizing bs with
  | nil =>
    rw [lowerElsifs] at h
    cases h
    simp [Statement.branchBlocks]
  | cons e es ih =>
    obtain ⟨condition, body⟩ := e
    rw [lowerElsifs] at h
    split at h
    · cases h
    · next hts =>
      split at h
      · cases h
      · next hbs =>
        cases h
        rw [Statement.branchBlocks]
        refine List.forall_mem_append.2 ⟨?_, ?_⟩
        · exact lowerAll_sound (hes _ List.mem_cons_self) hts hv (by simp)
        · exact ih (fun e he => hes e (List.mem_cons_of_mem _ he)) hbs

theorem otherwise_sound {otherwise : List Stmt} (hbody : ∀ s ∈ otherwise, s.SoundBlocks)
    {scope : Scope} {hasElse : Bool} {body : Option (List Statement)}
    (h : (if hasElse then (lowerAll scope otherwise).map some else .ok none) = .ok body)
    {visible : List Binding} (hv : scope.Covered visible) :
    ∀ block ∈ Statement.elseBlocks visible body, block.Sound := by
  cases hasElse with
  | false =>
    cases h
    simp [Statement.elseBlocks]
  | true =>
    rw [if_pos rfl] at h
    cases hts : lowerAll scope otherwise with
    | error e =>
      rw [hts] at h
      cases h
    | ok ts =>
      rw [hts] at h
      cases h
      rw [Statement.elseBlocks]
      exact lowerAll_sound hbody hts hv (by simp)

/-- Every statement that can be emitted has sound blocks, by induction on how it is nested. -/
theorem Code.soundBlocks {s : Stmt} (h : s.Code) : s.SoundBlocks := by
  induction h with
  | @function f _ ih =>
    intro scope t after hlower visible hv
    rw [lower] at hlower
    split at hlower
    · cases hlower
    · next m hm =>
      cases hlower
      have hsound := lowerFunction_sound ih hm hv
      obtain ⟨name, params, body⟩ := m
      rw [Statement.methodBlocks, Statement.methodBlocks, List.append_nil] at hsound
      rw [Statement.blocks]
      exact hsound
  | @classDecl c _ ih =>
    intro scope t after hlower visible hv
    obtain ⟨name, properties, methods, span⟩ := c
    rw [lower] at hlower
    split at hlower
    · cases hlower
    · next ms hms =>
      cases hlower
      rw [Statement.blocks, methodBlocks_eq_flatMap]
      intro block hblock
      obtain ⟨m, hm, hblock⟩ := List.mem_flatMap.1 hblock
      have hmem : .ok m ∈ constructorFirst (lowerMembers methods) := by
        rw [eq_map_of_allOk hms]
        exact List.mem_map_of_mem hm
      obtain ⟨isConstructor, hmember⟩ := mem_of_mem_constructorFirst hmem
      exact lowerMembers_sound ih hmember visible block hblock
  | @branch condition body elsifs otherwise hasElse span _ _ _ ihb ihe iho =>
    intro scope t after hlower visible hv
    rw [lower] at hlower
    split at hlower
    · cases hlower
    · next hbody =>
      split at hlower
      · cases hlower
      · next helsifs =>
        split at hlower
        · cases hlower
        · next others hothers =>
          cases hlower
          rw [Statement.blocks]
          refine List.forall_mem_append.2 ⟨List.forall_mem_append.2 ⟨?_, ?_⟩, ?_⟩
          · exact lowerAll_sound ihb hbody hv (by simp)
          · exact lowerElsifs_sound ihe helsifs hv
          · exact otherwise_sound iho hothers hv
  | assign | assignInstanceVar =>
    intro scope t after hlower visible _
    rw [lower] at hlower
    split at hlower <;> cases hlower <;> simp [Statement.blocks]
  | assignProperty | print | give =>
    intro scope t after hlower visible _
    rw [lower] at hlower
    cases hlower
    simp [Statement.blocks]
  | @expr e _ =>
    intro scope t after hlower visible _
    rw [lower] at hlower
    split at hlower
    · cases hlower
    · next he =>
      cases hlower
      cases e <;> cases he <;> simp [Statement.blocks]

end Stmt

/-! ### Blocks of a script -/

theorem ComponentOf.lower_sound {c : ComponentDecl} (hc : ∀ f ∈ c.methods, ∀ s ∈ f.body, s.Code)
    {styledCount before : Nat} {component : Script.Component}
    (h : c.lower styledCount before = .ok component) (visible : List Binding) :
    ∀ block ∈ component.blocks visible, block.Sound := by
  rw [lower_eq] at h
  split at h
  · cases h
  · next methods hmethods =>
    cases h
    have hprops : c.scope.Covered ((c.props.map Entry.name).map .prop ++ visible) :=
      Script.Scope.Covered.declareAll (fun _ hmem => by cases hmem) fun _ => rfl
    intro block hblock
    rw [Script.Component.blocks, Stmt.methodBlocks_eq_flatMap] at hblock
    obtain ⟨m, hm, hblock⟩ := List.mem_flatMap.1 hblock
    have hmem : .ok m ∈ c.methods.map (Stmt.lowerFunction c.scope) := by
      rw [eq_map_of_allOk hmethods]
      exact List.mem_map_of_mem hm
    obtain ⟨f, hf, hlower⟩ := List.mem_map.1 hmem
    rw [List.map_map] at hprops hblock
    exact Stmt.lowerFunction_sound (fun s hs => (hc f hf s hs).soundBlocks) hlower hprops
      block hblock

namespace Program

theorem lowerItems_emitsAll {body : List Stmt} {styledCount before : Nat} {scope : Scope}
    {items : List Script.Item} (h : lowerItems styledCount scope before body = .ok items) :
    scope.EmitsAll (items.filterMap Script.Item.statement?) := by
  induction body generalizing scope before items with
  | nil =>
    cases h
    exact .nil
  | cons s body ih =>
    cases lowerItems_cons h with
    | inl hcomponent =>
      obtain ⟨c, component, rest, _, _, hrest, rfl⟩ := hcomponent
      have hitems := ih hrest
      exact hitems
    | inr hstatement =>
      obtain ⟨t, after, rest, _, ht, hrest, rfl⟩ := hstatement
      exact .cons (Stmt.lower_emits ht) (ih hrest)

theorem lowerItems_sound {body : List Stmt} (hbody : ∀ s ∈ body, s.TopLevel)
    {styledCount before : Nat} {scope : Scope} {items : List Script.Item}
    (h : lowerItems styledCount scope before body = .ok items) {visible : List Binding}
    (hv : scope.Covered visible) : ∀ block ∈ Script.itemBlocks visible items, block.Sound := by
  induction body generalizing scope before items visible with
  | nil =>
    cases h
    simp [Script.itemBlocks]
  | cons s body ih =>
    obtain ⟨htop, hrestTop⟩ := List.forall_mem_cons.1 hbody
    cases lowerItems_cons h with
    | inl hcomponent =>
      obtain ⟨c, component, rest, rfl, hc, hrest, rfl⟩ := hcomponent
      rw [Script.itemBlocks]
      refine List.forall_mem_append.2 ⟨?_, ih hrestTop hrest hv⟩
      cases htop with
      | component hcode => exact ComponentOf.lower_sound hcode hc visible
      | code hcode => cases hcode
    | inr hstatement =>
      obtain ⟨t, after, rest, hne, ht, hrest, rfl⟩ := hstatement
      rw [Script.itemBlocks]
      refine List.forall_mem_append.2 ⟨?_, ih hrestTop hrest (hv.emits (Stmt.lower_emits ht))⟩
      cases htop with
      | component _ => exact absurd rfl (hne _)
      | code hcode => exact hcode.soundBlocks scope t after ht visible hv

end Program

/-- In the script of an accepted program every block is sound: an assignment has a binding that it
can see, and a block declares each variable once and no parameter of its own function. -/
theorem lower_blocks_sound {source : String} {code : List Char} {p : Program}
    (hp : check source code = .ok p) :
    ∃ m, p.lower = .ok m ∧ ∀ block ∈ m.blocks, block.Sound := by
  have htop := check_topLevel hp
  obtain ⟨items, hitems⟩ := Program.lowerItems_eq_ok htop p.styledCount .empty 0
  refine ⟨⟨p.imported, items⟩, by rw [Program.lower, hitems], ?_⟩
  rw [Script.Module.blocks]
  refine List.forall_mem_cons.2 ⟨?_, ?_⟩
  · exact (Program.lowerItems_emitsAll hitems).sound (.empty []) (by simp)
  · exact Program.lowerItems_sound htop hitems (.empty [])

/-- Assignments to variables of outer blocks, parameters and a prop, beside declarations that hide
outer variables of the same name. -/
def nestedSource : List Char :=
  ("x = 1\ndef f(a)\n  a = 2\n  x = 3\n  y = a\n  if a\n    y = 5\n    z = 1\n  else\n    z = 2\n"
    ++
    "  end\nend\nclass K\n  def construct(a)\n    x = a\n  end\nend\ncomponent Box\n  props\n" ++
    "    size : number\n  end\n  def grow(k)\n    size = k\n    x = size\n  end\nend\n").toList

theorem lower_blocks_sound_nested : ∃ p m, check "m" nestedSource = .ok p ∧ p.lower = .ok m ∧
    m.blocks.map Block.lets = [["x"], ["y"], ["z"], ["z"], ["x"], ["x"]] ∧
    ∀ block ∈ m.blocks, block.Sound := by
  obtain ⟨p, hp, htest⟩ : ∃ p, check "m" nestedSource = .ok p ∧ (p.lower.toOption.any fun m =>
      m.blocks.map Block.lets == [["x"], ["y"], ["z"], ["z"], ["x"], ["x"]]) = true :=
    exists_check_ok (by decide +kernel)
  obtain ⟨m, hm, hsound⟩ := lower_blocks_sound hp
  rw [hm] at htest
  exact ⟨p, m, hp, hm, beq_iff_eq.1 htest, hsound⟩

end LayoutScript

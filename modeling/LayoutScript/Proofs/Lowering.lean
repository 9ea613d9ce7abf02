import LayoutScript.Proofs.MarkupLines
import LayoutScript.Proofs.TapeRuns

/-! Every program that is accepted has a script. What the grammar allows inside a function, a class
or a branch is `Stmt.Code`, and code can be lowered in every scope. -/
namespace LayoutScript

/-- The expressions that have a statement of their own. -/
def Expr.standsAlone : Expr → Bool
  | .propertyAccess .. | .call .. | .methodCall .. | .instanceMethodCall .. => true
  | _ => false

/-- Statements that may stand anywhere: no components, and only some expressions alone. -/
inductive Stmt.Code : Stmt → Prop
  | function {f : FunctionDecl} : (∀ s ∈ f.body, s.Code) → Code (.function f)
  | classDecl {c : ClassDecl} : (∀ f ∈ c.methods, ∀ s ∈ f.body, s.Code) → Code (.classDecl c)
  | assign {name value span} : Code (.assign name value span)
  | assignProperty {object properties target value span} :
    Code (.assignProperty object properties target value span)
  | assignInstanceVar {name value span} : Code (.assignInstanceVar name value span)
  | print {value span} : Code (.print value span)
  | give {value span} : Code (.give value span)
  | branch {condition body elsifs otherwise hasElse span} : (∀ s ∈ body, s.Code) →
    (∀ e ∈ elsifs, ∀ s ∈ e.body, s.Code) → (∀ s ∈ otherwise, s.Code) →
    Code (.branch condition body elsifs otherwise hasElse span)
  | expr {e} : e.standsAlone = true → Code (.expr e)

/-- What may stand at the top of a program. -/
inductive Stmt.TopLevel : Stmt → Prop
  | code {s} : s.Code → TopLevel s
  | component {c : ComponentDecl} : (∀ f ∈ c.methods, ∀ s ∈ f.body, s.Code) →
    TopLevel (.component c)

/-! ### What the grammar allows is code -/

namespace Expr

variable {E : Rule Expr} {ts us : List Token} {next t : Token}

theorem accessed_standsAlone {start last : Span} {base : Expr} {properties : List String}
    (hne : properties ≠ []) (hbase : ∀ name span, base ≠ .instanceVar name span) :
    (base.accessed start last properties).standsAlone = true := by
  unfold accessed
  split
  · exact absurd rfl hne
  · next name span _ => exact absurd rfl (hbase name span)
  · rfl

/-- A chain ends in something that stands alone if it starts so, or reads a property that is not one
of the instance. -/
theorem Chain.standsAlone {start last : Span} {base e : Expr} {properties : List String}
    (h : Chain E start last base properties ts next e)
    (hinv : (base.standsAlone = true ∨ properties ≠ []) ∧
      ∀ name span, base ≠ .instanceVar name span) : e.standsAlone = true := by
  induction h with
  | @stop _ base properties _ _ =>
    by_cases hp : properties = []
    · subst hp
      rcases hinv.1 with hb | hp
      · exact hb
      · exact absurd rfl hp
    · exact accessed_standsAlone hp hinv.2
  | property _ _ _ _ ih => exact ih ⟨.inr (by simp), hinv.2⟩
  | call _ _ _ _ ih => exact ih ⟨.inl rfl, by simp⟩

theorem Operand.standsAlone {name : String} {e : Expr} (h : Operand E (t :: us) next e)
    (ht : t.lexeme = .identifier name) (ho : (us.headD next).lexeme.opensAccess = true) :
    e.standsAlone = true := by
  generalize hts : t :: us = ts at h
  cases h with
  | atom ha =>
    obtain ⟨rfl, rfl⟩ := List.cons.inj hts
    rw [ht] at ha
    cases ha
  | chain hh hc =>
    cases hh with
    | identifier ht' hn =>
      obtain ⟨rfl, rfl⟩ := List.cons.inj hts
      cases hc with
      | stop hd => simp [Lexeme.opensAccess_eq_false hd hn] at ho
      | property _ _ _ hc => exact hc.standsAlone ⟨.inr (by simp), by simp⟩
      | call _ _ _ hc => exact hc.standsAlone ⟨.inl rfl, by simp⟩
    | call _ _ => exact hc.standsAlone ⟨.inl rfl, by simp⟩
    | instanceVar ht' _ =>
      obtain ⟨rfl, rfl⟩ := List.cons.inj hts
      rw [ht] at ht'
      cases ht'
    | instanceCall _ _ => exact hc.standsAlone ⟨.inl rfl, by simp⟩
  | new ht' _ _ | newWith ht' _ _ | group ht' _ _ | negative ht' _ _ =>
    obtain ⟨rfl, rfl⟩ := List.cons.inj hts
    rw [ht] at ht'
    cases ht'

theorem standsAlone_of_kind {e : Expr} (h : e.kind = .instanceMethodCall ∨ e.kind = .methodCall) :
    e.standsAlone = true := by
  cases e <;> first | rfl | simp [kind] at h

end Expr

theorem FunctionOf.giveCall_code {body : List Stmt} (h : ∀ s ∈ body, s.Code) :
    ∀ s ∈ giveCall body, s.Code := by
  unfold giveCall
  split
  · intro s hs
    rw [List.mem_singleton.1 hs]
    exact .give
  · exact h

section Code

variable {S : Place → Rule Stmt} {place : Place} {ts : List Token} {next : Token} {s : Stmt}

theorem FunctionLevel.code {f : FunctionDecl} (h : FunctionLevel S ts next f)
    (hS : ∀ {ts next s}, S .functionBody ts next s → s.Code) : ∀ s ∈ f.body, s.Code := by
  cases h with
  | mk _ _ _ _ hb _ => exact FunctionOf.giveCall_code (hb.forall_mem fun _ => hS)

theorem ClassLevel.code {c : ClassDecl} (h : ClassLevel S ts next c)
    (hS : ∀ {ts next s}, S .functionBody ts next s → s.Code) :
    ∀ f ∈ c.methods, ∀ s ∈ f.body, s.Code := by
  cases h with
  | mk _ _ hb _ =>
    refine hb.invariant (P := fun members => ∀ f ∈ members.2, ∀ s ∈ f.body, s.Code) ?_ (by simp)
    intro members members' ts next _ hm hs
    cases hm with
    | property _ _ _ _ => exact hs
    | method hf =>
      intro f hmem
      rcases List.mem_append.1 hmem with hmem | hmem
      · exact hs f hmem
      · rw [List.mem_singleton.1 hmem]
        exact hf.code hS

theorem ComponentLevel.code {c : ComponentDecl} (h : ComponentLevel S ts next c)
    (hS : ∀ {ts next s}, S .functionBody ts next s → s.Code) :
    ∀ f ∈ c.methods, ∀ s ∈ f.body, s.Code := by
  cases h with
  | mk _ _ hb _ =>
    refine hb.invariant (P := fun c => ∀ f ∈ c.methods, ∀ s ∈ f.body, s.Code) ?_ (by simp)
    intro c c' ts next _ hm hs
    cases hm with
    | method hf =>
      intro f hmem
      rcases List.mem_append.1 hmem with hmem | hmem
      · exact hs f hmem
      · rw [List.mem_singleton.1 hmem]
        exact hf.code hS
    | props _ | state _ | render _ _ | style _ _ => exact hs

theorem Elsifs.code {R : Rule Stmt} {elsifs : List Elsif} (h : Elsifs R ts next elsifs)
    (hR : ∀ {ts next s}, R ts next s → s.Code) : ∀ e ∈ elsifs, ∀ s ∈ e.body, s.Code := by
  induction h with
  | nil _ _ _ => simp
  | cons _ _ _ hb _ ih =>
    intro e hmem
    rcases List.mem_cons.1 hmem with rfl | hmem
    · exact hb.forall_mem fun _ => hR
    · exact ih e hmem

theorem BranchLevel.code {R : Rule Stmt} (h : BranchLevel R ts next s)
    (hR : ∀ {ts next s}, R ts next s → s.Code) : s.Code := by
  cases h with
  | mk _ _ hb hs ho _ =>
    refine .branch (hb.forall_mem fun _ => hR) (hs.code hR) ?_
    cases ho with
    | none _ => simp
    | some _ hb => exact hb.forall_mem fun _ => hR

theorem Access.code {t : Token} {us : List Token} {start : Span} {name : String}
    (h : Access place start (t :: us) next s) (ht : t.lexeme = .identifier name)
    (ho : (us.headD next).lexeme.opensAccess = true) : s.Code := by
  generalize hts : t :: us = ts at h
  cases h with
  | mk hop htail =>
    cases htail with
    | expr =>
      rw [List.append_nil] at hts
      subst hts
      exact .expr (hop.standsAlone ht ho)
    | assign _ hv => obtain ⟨_⟩ := hv; exact .assignProperty
    | give _ _ _ _ => exact .give

theorem Sentence.code (h : Sentence place ts next s) : s.Code := by
  cases h with
  | print _ hv => obtain ⟨_⟩ := hv; exact .print
  | give _ hv | text _ hv => obtain ⟨_⟩ := hv; exact .give
  | giveNothing _ | implicitGive _ _ _ _ _ => exact .give
  | assign _ _ hv => obtain ⟨_⟩ := hv; exact .assign
  | access ht ho ha => exact ha.code ht ho
  | bareCall _ _ => exact .expr rfl
  | assignInstanceVar _ _ hv => obtain ⟨_⟩ := hv; exact .assignInstanceVar
  | instanceCall _ _ _ hk => exact .expr (Expr.standsAlone_of_kind hk)
  | instanceProperty _ _ _ _ hv => obtain ⟨_⟩ := hv; exact .assignProperty

theorem StatementRule.topLevel (h : StatementRule place ts next s) :
    s.TopLevel ∧ (place.nested = true → s.Code) := by
  induction h with
  | of _ h ih =>
    cases h with
    | function hf =>
      have hcode := Stmt.Code.function (hf.code fun h => (ih h).2 rfl)
      exact ⟨.code hcode, fun _ => hcode⟩
    | classDecl hc =>
      have hcode := Stmt.Code.classDecl (hc.code fun h => (ih h).2 rfl)
      exact ⟨.code hcode, fun _ => hcode⟩
    | component hn hc =>
      exact ⟨.component (hc.code fun h => (ih h).2 rfl), fun hn' => by rw [hn] at hn'; cases hn'⟩
    | branch hb =>
      have hcode := hb.code fun h => (ih h).2 rfl
      exact ⟨.code hcode, fun _ => hcode⟩
    | sentence hl =>
      cases hl with
      | mk hs _ => exact ⟨.code hs.code, fun _ => hs.code⟩

theorem StatementRule.componentLevel {c : ComponentDecl}
    (h : StatementRule place ts next (.component c)) :
    ComponentLevel StatementRule ts next c := by
  generalize hs : Stmt.component c = s at h
  cases statementRule_iff_level.1 h with
  | function _ | classDecl _ => cases hs
  | component _ hc =>
    cases hs
    exact hc
  | branch hb => cases hb with | mk _ _ _ _ _ _ => cases hs
  | sentence hl =>
    cases hl with
    | mk hsentence _ =>
      subst hs
      cases hsentence.code

theorem Statements.rule_of_mem {body : List Stmt} (h : Statements ts next body) (hs : s ∈ body) :
    ∃ us next', us ⊆ ts ∧ StatementRule .top us next' s := by
  induction h with
  | nil _ => cases hs
  | cons hrule _ _ ih =>
    rcases List.mem_cons.1 hs with rfl | hs
    · exact ⟨_, _, fun t ht => by simp [ht], hrule⟩
    · obtain ⟨us, next', hsub, hrule⟩ := ih hs
      exact ⟨us, next', fun t ht => by simp [hsub ht], hrule⟩

theorem Statements.topLevel {body : List Stmt} (h : Statements ts next body) :
    ∀ s ∈ body, s.TopLevel := by
  intro s hs
  obtain ⟨us, next', _, hrule⟩ := h.rule_of_mem hs
  exact hrule.topLevel.1

end Code

/-! ### Code can be lowered -/

theorem allOk_eq_ok {rs : List (Except ε α)} (h : ∀ r ∈ rs, ∃ a, r = .ok a) :
    ∃ as, allOk rs = .ok as := by
  induction rs with
  | nil => exact ⟨[], rfl⟩
  | cons r rs ih =>
    obtain ⟨a, rfl⟩ := h r List.mem_cons_self
    obtain ⟨as, has⟩ := ih fun r hr => h r (List.mem_cons_of_mem _ hr)
    exact ⟨a :: as, by rw [allOk, has]⟩

theorem eq_map_of_allOk {rs : List (Except ε α)} {as : List α} (h : allOk rs = .ok as) :
    rs = as.map .ok := by
  fun_induction allOk rs generalizing as with
  | case1 =>
    cases h
    rfl
  | case2 => cases h
  | case3 => cases h
  | case4 a rest bs hrest ih =>
    cases h
    rw [List.map_cons, ih hrest]

theorem mem_of_mem_constructorFirst {members : List (Bool × α)} {a : α}
    (h : a ∈ constructorFirst members) : ∃ b, (b, a) ∈ members := by
  obtain ⟨⟨b, a⟩, hm, rfl⟩ := List.mem_map.1 h
  rcases List.mem_append.1 hm with hm | hm
  · exact ⟨b, List.mem_of_find?_eq_some (Option.mem_toList.1 hm)⟩
  · exact ⟨b, (List.mem_filter.1 hm).1⟩

theorem Script.Scope.declareAll_eq (scope : Script.Scope) (names : List String) :
    scope.declareAll names = { scope with declared := names.reverse ++ scope.declared } := by
  induction names generalizing scope with
  | nil => rfl
  | cons name names ih =>
    rw [List.reverse_cons, List.append_assoc]
    exact ih (scope.declare name)

namespace Stmt

def Lowers (s : Stmt) : Prop := ∀ scope, ∃ r, s.lower scope = .ok r

theorem lowerAll_eq_ok {body : List Stmt} (h : ∀ s ∈ body, s.Lowers) (scope : Script.Scope) :
    ∃ r, lowerAll scope body = .ok r := by
  induction body generalizing scope with
  | nil => exact ⟨[], by rw [lowerAll]⟩
  | cons s body ih =>
    obtain ⟨⟨r, scope'⟩, hr⟩ := h s List.mem_cons_self scope
    obtain ⟨rs, hrs⟩ := ih (fun s hs => h s (List.mem_cons_of_mem _ hs)) scope'
    exact ⟨r :: rs, by simp only [lowerAll, hr, hrs]⟩

theorem lowerFunction_eq_ok {f : FunctionDecl} (h : ∀ s ∈ f.body, s.Lowers) (scope : Script.Scope) :
    ∃ r, lowerFunction scope f = .ok r := by
  obtain ⟨name, params, type, body, span⟩ := f
  obtain ⟨r, hr⟩ := lowerAll_eq_ok h (scope.declareAll (Param.names params))
  exact ⟨_, by rw [lowerFunction, hr]⟩

theorem lowerMembers_eq_ok {fs : List FunctionDecl} (h : ∀ f ∈ fs, ∀ s ∈ f.body, s.Lowers) :
    ∀ m ∈ lowerMembers fs, ∃ r, m.2 = .ok r := by
  induction fs with
  | nil => simp [lowerMembers]
  | cons f fs ih =>
    obtain ⟨name, params, type, body, span⟩ := f
    intro m hm
    rw [lowerMembers] at hm
    rcases List.mem_cons.1 hm with rfl | hm
    · obtain ⟨r, hr⟩ := lowerAll_eq_ok (h _ List.mem_cons_self)
        (Script.Scope.empty.declareAll (Param.names params))
      exact ⟨_, by simp only [hr]; rfl⟩
    · exact ih (fun f hf => h f (List.mem_cons_of_mem _ hf)) m hm

theorem lowerElsifs_eq_ok {es : List Elsif} (h : ∀ e ∈ es, ∀ s ∈ e.body, s.Lowers)
    (scope : Script.Scope) : ∃ r, lowerElsifs scope es = .ok r := by
  induction es with
  | nil => exact ⟨[], by rw [lowerElsifs]⟩
  | cons e es ih =>
    obtain ⟨condition, body⟩ := e
    obtain ⟨r, hr⟩ := lowerAll_eq_ok (h _ List.mem_cons_self) scope
    obtain ⟨rs, hrs⟩ := ih fun e he => h e (List.mem_cons_of_mem _ he)
    exact ⟨_, by simp only [lowerElsifs, hr, hrs]; rfl⟩

theorem lowerExpr_eq_ok {e : Expr} (h : e.standsAlone = true) (scope : Script.Scope) :
    ∃ r, lowerExpr scope e = .ok r := by
  cases e <;> first | exact ⟨_, rfl⟩ | cases h

theorem Code.lowers {s : Stmt} (h : s.Code) : s.Lowers := by
  intro scope
  induction h generalizing scope with
  | function _ ih =>
    obtain ⟨r, hr⟩ := lowerFunction_eq_ok ih scope
    exact ⟨_, by rw [lower, hr]⟩
  | @classDecl c _ ih =>
    obtain ⟨name, properties, methods, span⟩ := c
    have hm := lowerMembers_eq_ok ih
    obtain ⟨ms, hms⟩ : ∃ ms, allOk (constructorFirst (lowerMembers methods)) = .ok ms := by
      refine allOk_eq_ok fun r hr => ?_
      obtain ⟨b, hb⟩ := mem_of_mem_constructorFirst hr
      exact hm _ hb
    exact ⟨_, by rw [lower, hms]⟩
  | assign =>
    rw [lower]
    split <;> exact ⟨_, rfl⟩
  | assignProperty => exact ⟨_, by rw [lower]⟩
  | assignInstanceVar =>
    rw [lower]
    split <;> exact ⟨_, rfl⟩
  | print => exact ⟨_, by rw [lower]⟩
  | give => exact ⟨_, by rw [lower]⟩
  | @branch condition body elsifs otherwise hasElse span _ _ _ ihb ihe iho =>
    obtain ⟨b, hb⟩ := lowerAll_eq_ok ihb scope
    obtain ⟨es, hes⟩ := lowerElsifs_eq_ok ihe scope
    obtain ⟨o, ho⟩ := lowerAll_eq_ok iho scope
    rw [lower, hb, hes, ho]
    cases hasElse <;> exact ⟨_, rfl⟩
  | expr he =>
    obtain ⟨r, hr⟩ := lowerExpr_eq_ok he scope
    exact ⟨_, by rw [lower, hr]⟩

end Stmt

theorem ComponentOf.lower_eq_ok {c : ComponentDecl} (h : ∀ f ∈ c.methods, ∀ s ∈ f.body, s.Code)
    (styledCount before : Nat) : ∃ r, c.lower styledCount before = .ok r := by
  obtain ⟨ms, hms⟩ : ∃ ms, allOk (c.methods.map (Stmt.lowerFunction c.scope)) = .ok ms := by
    refine allOk_eq_ok fun r hr => ?_
    obtain ⟨f, hf, rfl⟩ := List.mem_map.1 hr
    exact Stmt.lowerFunction_eq_ok (fun s hs => (h f hf s hs).lowers) c.scope
  exact ⟨_, by rw [lower_eq, hms]⟩

namespace Program

theorem lowerItems_eq_ok {body : List Stmt} (h : ∀ s ∈ body, s.TopLevel) (styledCount : Nat)
    (scope : Script.Scope) (before : Nat) :
    ∃ items, lowerItems styledCount scope before body = .ok items := by
  induction body generalizing scope before with
  | nil => exact ⟨[], rfl⟩
  | cons s body ih =>
    have hrest := ih fun s hs => h s (List.mem_cons_of_mem _ hs)
    cases h s List.mem_cons_self with
    | component hc =>
      obtain ⟨r, hr⟩ := ComponentOf.lower_eq_ok hc styledCount before
      obtain ⟨items, hi⟩ := hrest scope (before + 1)
      exact ⟨_, by rw [lowerItems, hr]; simp only [hi]; rfl⟩
    | code hs =>
      obtain ⟨⟨r, scope'⟩, hr⟩ := hs.lowers scope
      obtain ⟨items, hi⟩ := hrest scope' before
      have hne : ∀ c, s ≠ .component c := by
        rintro c rfl
        cases hs
      exact ⟨_, by rw [lowerItems, hr]; simp only [hi]; rfl; exact hne⟩

/-- The items of a program, one for each statement: a component has its own scope, and any other
statement gives the scope of those after it. -/
theorem lowerItems_cons {s : Stmt} {body : List Stmt} {styledCount before : Nat}
    {scope : Script.Scope} {items : List Script.Item}
    (h : lowerItems styledCount scope before (s :: body) = .ok items) :
    (∃ c component rest, s = .component c ∧ c.lower styledCount before = .ok component ∧
      lowerItems styledCount scope (before + 1) body = .ok rest ∧
      items = .component component :: rest) ∨
    ∃ t after rest, (∀ c, s ≠ .component c) ∧ s.lower scope = .ok (t, after) ∧
      lowerItems styledCount after before body = .ok rest ∧ items = .statement t :: rest := by
  by_cases hs : ∃ c, s = .component c
  · obtain ⟨c, rfl⟩ := hs
    rw [lowerItems] at h
    split at h
    · cases h
    · next component hc =>
      split at h
      · cases h
      · next rest hrest =>
        cases h
        exact .inl ⟨c, component, rest, rfl, hc, hrest, rfl⟩
  · have hne : ∀ c, s ≠ .component c := fun c hc => hs ⟨c, hc⟩
    rw [lowerItems] at h
    · split at h
      · cases h
      · next t after ht =>
        split at h
        · cases h
        · next rest hrest =>
          cases h
          exact .inr ⟨t, after, rest, hne, ht, hrest, rfl⟩
    · exact hne

theorem generate_eq_ok {p : Program} (h : ∀ s ∈ p.body, s.TopLevel) (options : Script.Options) :
    ∃ script, p.generate options = .ok script := by
  obtain ⟨items, hi⟩ := lowerItems_eq_ok h p.styledCount .empty 0
  exact ⟨_, by rw [generate, lower, hi]⟩

end Program

theorem check_topLevel {source : String} {code : List Char} {p : Program}
    (h : check source code = .ok p) : ∀ s ∈ p.body, s.TopLevel := by
  obtain ⟨ts, last, -, -, hr⟩ := check_eq_ok_iff.1 h
  cases hr with
  | mk _ hss => exact hss.topLevel

theorem compile_of_lower {source : String} {code : List Char} {p : Program} {m : Script.Module}
    (h : check source code = .ok p) (hm : p.lower = .ok m) (options : Script.Options) :
    compile options source code = .ok ⟨source, p, m.text options⟩ := by
  simp only [compile, h, Program.generate, hm]

/-- Compiling fails exactly where checking does and with the same fault; every program that is
accepted has a script. -/
theorem compile_fails_iff_check_fails (options : Script.Options) (source : String)
    (code : List Char) :
    (∀ e, compile options source code = .error e ↔ check source code = .error e) ∧
      ∀ p, check source code = .ok p ↔ ∃ script, p.generate options = .ok script ∧
        compile options source code = .ok ⟨source, p, script⟩ := by
  cases h : check source code with
  | error e =>
    have hcompile : compile options source code = .error e := by rw [compile, h]
    rw [hcompile]
    simp
  | ok p =>
    obtain ⟨script, hs⟩ := Program.generate_eq_ok (check_topLevel h) options
    have hcompile : compile options source code = .ok ⟨source, p, script⟩ := by
      simp only [compile, h, hs]
    rw [hcompile]
    refine ⟨by simp, fun q => ⟨?_, ?_⟩⟩
    · intro hq
      cases hq
      exact ⟨script, hs, rfl⟩
    · rintro ⟨script', _, hq⟩
      cases hq
      rfl

end LayoutScript

import LayoutScript.Proofs.LineTokens
import LayoutScript.Proofs.Lowering
import LayoutScript.Proofs.Printer

/-! What a text can say. Every expression and every statement that the grammar finds in the tokens
of a text is `Canonical`: names are words that are not reserved, an operator never has a bare
operator on its left, and only some expressions stand before a dot or alone. -/
namespace LayoutScript

def Lexeme.isName : Lexeme → Bool
  | .identifier _ | .instanceVar _ => true
  | _ => false

namespace Expr

inductive Role where
  | base
  | access
  | operand
  | whole

inductive Canonical : Role → Expr → Prop
  | identifier {name s} : (Lexeme.identifier name).WellFormed →
    Canonical .base (.identifier name s)
  | call {name args s} : (Lexeme.identifier name).WellFormed → (∀ a ∈ args, Canonical .whole a) →
    Canonical .base (.call name args s)
  | instanceVar {name s} : isWord name = true → Canonical .base (.instanceVar name s)
  | instanceCall {name args s} : isWord name = true → (∀ a ∈ args, Canonical .whole a) →
    Canonical .base (.instanceMethodCall name args s)
  | methodCall {object name args s} : Canonical .access object → isWord name = true →
    (∀ a ∈ args, Canonical .whole a) → Canonical .base (.methodCall object name args s)
  | access {base start last properties} : Canonical .base base →
    (∀ name ∈ properties, isWord name = true) →
    Canonical .access (base.accessed start last properties)
  | atom {l make s} : atom? l = some make → l.WellFormed → Canonical .operand (make s)
  | negative {raw s} : (Lexeme.number raw).WellFormed → Canonical .operand (.number ("-" ++ raw) s)
  | construct {name args s} : (Lexeme.identifier name).WellFormed →
    (∀ a ∈ args, Canonical .whole a) → Canonical .operand (.construct name args s)
  | group {left right s} {p : Punct} :
    Canonical .operand left → p.isBinary = true → Canonical .whole right →
    Canonical .operand (.binary left p.text right true s)
  | chain {e} : Canonical .access e → Canonical .operand e
  | operand {e} : Canonical .operand e → Canonical .whole e
  | binary {left right s} {p : Punct} : Canonical .operand left → p.isBinary = true →
    Canonical .whole right → Canonical .whole (.binary left p.text right false s)

def opening? : Expr → Option Lexeme
  | .identifier name _ | .call name _ _ => some (.identifier name)
  | .instanceVar name _ | .instanceVarAccess name _ _ | .instanceMethodCall name _ _ =>
    some (.instanceVar name)
  | .propertyAccess object _ _ | .methodCall object _ _ _ => object.opening?
  | _ => none

theorem opening?_accessed (start last : Span) (base : Expr) (properties : List String) :
    (base.accessed start last properties).opening? = base.opening? := by
  unfold accessed
  split <;> rfl

theorem Canonical.grouped {e : Expr} (h : e.Canonical .whole) : e.grouped.Canonical .operand := by
  cases h with
  | binary hl hp hr => exact .group hl hp hr
  | operand h =>
    cases h with
    | group hl hp hr => exact .group hl hp hr
    | @atom l make s ha hw =>
      have hself : (make s).grouped = make s := by
        unfold atom? at ha
        split at ha <;> cases ha <;> rfl
      rw [hself]
      exact .atom ha hw
    | negative hw => exact .negative hw
    | construct hw ha => exact .construct hw ha
    | chain h =>
      cases h with
      | @access base start last properties hb hp =>
        have hself : (base.accessed start last properties).grouped =
            base.accessed start last properties := by
          unfold accessed
          split
          · cases hb <;> rfl
          · rfl
          · rfl
        rw [hself]
        exact .chain (.access hb hp)

section Image

variable {E : Rule Expr} {ts : List Token} {next : Token}

theorem isWord_of_name? {l : Lexeme} {name : String} (hl : l.WellFormed)
    (h : l.name? = some name) : isWord name = true := by
  cases l <;> cases h
  · next k => cases k <;> decide
  · exact hl.1

theorem isName_of_atom? {l : Lexeme} {make : Span → Expr} (h : atom? l = some make) :
    l.isName = false := by
  unfold atom? at h
  split at h <;> first | rfl | cases h

theorem Arguments.forall_mem {P : Expr → Prop} {args : List Expr} {close : Span}
    (hE : ∀ {us next e}, us ⊆ ts → E us next e → P e) (h : Arguments E ts next (args, close)) :
    ∀ a ∈ args, P a := by
  cases h with
  | mk _ hs _ =>
    refine hs.forall_mem fun hsub => hE ?_
    exact List.subset_append_of_subset_left _ (List.subset_cons_of_subset _ hsub)

theorem Head.canonical {e : Expr} (hw : ∀ t ∈ ts, t.lexeme.WellFormed)
    (hE : ∀ {us next e}, us ⊆ ts → E us next e → e.Canonical .whole) (h : Head E ts next e) :
    e.Canonical .base ∧ e.opening? = some (ts.headD next).lexeme := by
  have hargs {t : Token} {us : List Token} {args : List Expr} {close : Span} (hts : ts = t :: us)
      (ha : Arguments E us next (args, close)) : ∀ a ∈ args, a.Canonical .whole := by
    refine ha.forall_mem fun hsub => hE ?_
    rw [hts]
    exact List.subset_cons_of_subset _ hsub
  cases h with
  | @identifier t _ _ ht _ =>
    have hl := hw t List.mem_cons_self
    rw [ht] at hl
    exact ⟨.identifier hl, by rw [List.headD_cons, ht]; rfl⟩
  | @call t _ _ _ _ _ ht ha =>
    have hl := hw t List.mem_cons_self
    rw [ht] at hl
    exact ⟨.call hl (hargs rfl ha), by rw [List.headD_cons, ht]; rfl⟩
  | @instanceVar t _ _ ht _ =>
    have hl := hw t List.mem_cons_self
    rw [ht] at hl
    exact ⟨.instanceVar hl, by rw [List.headD_cons, ht]; rfl⟩
  | @instanceCall t _ _ _ _ _ ht ha =>
    have hl := hw t List.mem_cons_self
    rw [ht] at hl
    exact ⟨.instanceCall hl (hargs rfl ha), by rw [List.headD_cons, ht]; rfl⟩

theorem Chain.canonical {start last : Span} {base e : Expr} {properties : List String}
    (hw : ∀ t ∈ ts, t.lexeme.WellFormed)
    (hE : ∀ {us next e}, us ⊆ ts → E us next e → e.Canonical .whole)
    (h : Chain E start last base properties ts next e) (hbase : base.Canonical .base)
    (hprops : ∀ name ∈ properties, isWord name = true) :
    e.Canonical .access ∧ e.opening? = base.opening? := by
  induction h with
  | stop _ => exact ⟨.access hbase hprops, opening?_accessed ..⟩
  | @property last base properties dot word name us next e hd hword _ _ ih =>
    have hname := isWord_of_name? (hw word (by simp)) hword
    refine ih (fun t ht => hw t (by simp [ht])) (fun hsub => hE ?_) hbase ?_
    · exact List.subset_cons_of_subset _ (List.subset_cons_of_subset _ hsub)
    · intro p hp
      rcases List.mem_append.1 hp with hp | hp
      · exact hprops p hp
      · rwa [List.mem_singleton.1 hp]
  | @call last base properties dot word name us vs next args close e hd hword ha _ ih =>
    have hname := isWord_of_name? (hw word (by simp)) hword
    have hargs : ∀ a ∈ args, a.Canonical .whole := ha.forall_mem fun hsub => hE <|
      List.subset_append_of_subset_left _ (List.subset_cons_of_subset _
        (List.subset_cons_of_subset _ hsub))
    obtain ⟨he, ho⟩ := ih (fun t ht => hw t (by simp [ht]))
      (fun hsub => hE (List.subset_append_of_subset_right _ hsub))
      (.methodCall (.access hbase hprops) hname hargs) (by simp)
    exact ⟨he, ho.trans (opening?_accessed ..)⟩

theorem Operand.canonical {e : Expr} (hw : ∀ t ∈ ts, t.lexeme.WellFormed)
    (hE : ∀ {us next e}, us ⊆ ts → E us next e → e.Canonical .whole) (h : Operand E ts next e) :
    e.Canonical .operand ∧ ((ts.headD next).lexeme.isName = true →
      e.Canonical .access ∧ e.opening? = some (ts.headD next).lexeme) := by
  have hno {l : Lexeme} {P : Prop} (hl : l.isName = false) (h : l.isName = true) : P := by
    rw [hl] at h
    cases h
  cases h with
  | @atom t make _ ha =>
    refine ⟨.atom ha (hw t List.mem_cons_self), hno ?_⟩
    rw [List.headD_cons]
    exact isName_of_atom? ha
  | @chain us vs _ base _ hh hc =>
    obtain ⟨hbase, hopen⟩ := hh.canonical (fun t ht => hw t (List.mem_append_left _ ht))
      (fun hsub => hE (List.subset_append_of_subset_left _ hsub))
    obtain ⟨he, ho⟩ := hc.canonical (fun t ht => hw t (List.mem_append_right _ ht))
      (fun hsub => hE (List.subset_append_of_subset_right _ hsub)) hbase (by simp)
    refine ⟨.chain he, fun _ => ⟨he, ?_⟩⟩
    rw [ho, hopen, headD_append]
  | @new t word name _ ht hword _ =>
    have hl := hw word (by simp)
    rw [hword] at hl
    refine ⟨.construct hl (by simp), hno ?_⟩
    rw [List.headD_cons, ht]
    rfl
  | @newWith t word name us _ args close ht hword ha =>
    have hl := hw word (by simp)
    rw [hword] at hl
    refine ⟨.construct hl (ha.forall_mem fun hsub => hE ?_), hno ?_⟩
    · exact List.subset_cons_of_subset _ (List.subset_cons_of_subset _ hsub)
    · rw [List.headD_cons, ht]
      rfl
  | @group o us close _ e ho he _ =>
    refine ⟨(hE ?_ he).grouped, hno ?_⟩
    · exact List.subset_append_of_subset_left _ (List.subset_cons_self _ _)
    · rw [List.cons_append, List.headD_cons, ho]
      rfl
  | @negative minus t raw _ hm ht _ =>
    have hl := hw t (by simp)
    rw [ht] at hl
    refine ⟨.negative hl, hno ?_⟩
    rw [List.headD_cons, hm]
    rfl

theorem Expression.canonical {e : Expr} (h : Expression ts next e)
    (hw : ∀ t ∈ ts, t.lexeme.WellFormed) : e.Canonical .whole := by
  induction h with
  | of _ h ih =>
    cases h with
    | operand ho _ =>
      exact .operand (ho.canonical hw fun hsub he => ih he fun t ht => hw t (hsub ht)).1
    | @binary us op p vs _ left right ho hop hp hr =>
      have hleft : left.Canonical .operand :=
        (ho.canonical (fun t ht => hw t (List.mem_append_left _ ht)) fun hsub he =>
          ih he fun t ht => hw t (List.mem_append_left _ (hsub ht))).1
      exact .binary hleft hp (ih hr fun t ht => hw t (by simp [ht]))

end Image

end Expr


def Param.WellFormed (p : Param) : Prop :=
  (Lexeme.identifier p.name).WellFormed ∧ ∀ type ∈ p.type, (Lexeme.identifier type).WellFormed

def Property.WellFormed (p : Property) : Prop :=
  (Lexeme.identifier p.name).WellFormed ∧ (Lexeme.identifier p.type).WellFormed

structure FunctionOf.WellFormed (f : FunctionDecl) : Prop where
  name : ∃ l : Lexeme, l.WellFormed ∧ l.functionName? = some f.name
  params : ∀ p ∈ f.params, p.WellFormed
  returnType : ∀ type ∈ f.returnType, (Lexeme.identifier type).WellFormed
  /-- A call that is the whole body has become the value of the function. -/
  body : giveCall f.body = f.body

namespace Stmt

inductive Canonical : Stmt → Prop
  | function {f : FunctionDecl} : f.WellFormed → (∀ s ∈ f.body, s.Canonical) →
    Canonical (.function f)
  | classDecl {c : ClassDecl} : (Lexeme.identifier c.name).WellFormed →
    (∀ p ∈ c.properties, p.WellFormed) → (∀ f ∈ c.methods, f.WellFormed) →
    (∀ f ∈ c.methods, ∀ s ∈ f.body, s.Canonical) → Canonical (.classDecl c)
  | assign {name value span} : (Lexeme.identifier name).WellFormed → value.Canonical .whole →
    Canonical (.assign name value span)
  | assignProperty {object properties target value span name} : object.Canonical .base →
    properties ≠ [] → (∀ p ∈ properties, isWord p = true) →
    object.opening? = some (.identifier name) → value.Canonical .whole →
    Canonical (.assignProperty object properties target value span)
  | assignInstanceProperty {name s properties target value span} : isWord name = true →
    properties ≠ [] → (∀ p ∈ properties, isWord p = true) → value.Canonical .whole →
    Canonical (.assignProperty (.instanceVar name s) properties target value span)
  | assignInstanceVar {name value span} : isWord name = true → value.Canonical .whole →
    Canonical (.assignInstanceVar name value span)
  | print {value span} : value.Canonical .whole → Canonical (.print value span)
  | give {value span} : value.Canonical .whole → Canonical (.give (some value) span)
  | giveNothing {span} : Canonical (.give none span)
  | branch {condition body elsifs otherwise hasElse span} : condition.Canonical .whole →
    (∀ s ∈ body, s.Canonical) → (∀ e ∈ elsifs, e.condition.Canonical .whole) →
    (∀ e ∈ elsifs, ∀ s ∈ e.body, s.Canonical) → (hasElse = false → otherwise = []) →
    (∀ s ∈ otherwise, s.Canonical) →
    Canonical (.branch condition body elsifs otherwise hasElse span)
  | access {e name} : e.Canonical .access → e.opening? = some (.identifier name) →
    e.standsAlone = true → Canonical (.expr e)
  | instanceCall {e name} : e.Canonical .access → e.opening? = some (.instanceVar name) →
    (e.kind = .instanceMethodCall ∨ e.kind = .methodCall) → Canonical (.expr e)

end Stmt

namespace Expr.Canonical

variable {e : Expr}

theorem bare (h : e.Canonical .base) : e.Canonical .access :=
  @Canonical.access e .origin .origin [] h (by simp)

theorem of_propertyAccess {object : Expr} {properties : List String} {s : Span}
    (h : (Expr.propertyAccess object properties s).Canonical .access) :
    object.Canonical .base ∧ properties ≠ [] ∧ ∀ p ∈ properties, isWord p = true := by
  generalize he : Expr.propertyAccess object properties s = e at h
  cases h with
  | access hb hp =>
    unfold accessed at he
    split at he
    · subst he
      cases hb
    · cases he
    · next hne _ =>
      cases he
      exact ⟨hb, fun h => hne h, hp⟩

theorem of_instanceVarAccess {name : String} {properties : List String} {s : Span}
    (h : (Expr.instanceVarAccess name properties s).Canonical .access) :
    isWord name = true ∧ properties ≠ [] ∧ ∀ p ∈ properties, isWord p = true := by
  generalize he : Expr.instanceVarAccess name properties s = e at h
  cases h with
  | access hb hp =>
    unfold accessed at he
    split at he
    · subst he
      cases hb
    · next hne =>
      cases he
      cases hb with
      | instanceVar hw => exact ⟨hw, fun h => hne h, hp⟩
    · cases he

end Expr.Canonical

theorem FunctionOf.giveCall_giveCall (body : List Stmt) :
    giveCall (giveCall body) = giveCall body := by
  fun_cases giveCall body with
  | case1 => rfl
  | case2 =>
    rw [giveCall]
    assumption

theorem FunctionOf.giveCall_canonical {body : List Stmt} (h : ∀ s ∈ body, s.Canonical) :
    ∀ s ∈ giveCall body, s.Canonical := by
  unfold giveCall
  split
  · next callee args span =>
    intro s hs
    rw [List.mem_singleton.1 hs]
    cases h _ (List.mem_singleton.2 rfl) with
    | access he _ _ | instanceCall he _ _ => exact .give (.operand (.chain he))
  · exact h


section Image

open LayoutScript.Expr (Expression)

variable {S : Place → Rule Stmt} {place : Place} {ts us : List Token} {next t : Token} {s : Stmt}

theorem OptionalType.wellFormed {type : Option String} (hw : ∀ t ∈ ts, t.lexeme.WellFormed)
    (h : OptionalType ts next type) : ∀ name ∈ type, (Lexeme.identifier name).WellFormed := by
  cases h with
  | none _ => simp
  | @some colon u _ type _ hu =>
    have hl := hw u (by simp)
    rw [hu] at hl
    simpa using hl

theorem ParamRule.wellFormed {p : Param} (hw : ∀ t ∈ ts, t.lexeme.WellFormed)
    (h : ParamRule ts next p) : p.WellFormed := by
  cases h with
  | @mk t us _ name type ht htype =>
    have hl := hw t (by simp)
    rw [ht] at hl
    exact ⟨hl, htype.wellFormed fun t ht => hw t (List.mem_cons_of_mem _ ht)⟩

theorem ParamList.wellFormed {params : List Param} (hw : ∀ t ∈ ts, t.lexeme.WellFormed)
    (h : ParamList ts next params) : ∀ p ∈ params, p.WellFormed := by
  cases h with
  | none _ => simp
  | some _ hs _ =>
    exact hs.forall_mem fun hsub hp => hp.wellFormed fun t ht => hw t (by simp [hsub ht])

theorem FunctionLevel.canonical {f : FunctionDecl} (hw : ∀ t ∈ ts, t.lexeme.WellFormed)
    (hS : ∀ {us next s}, us ⊆ ts → S .functionBody us next s → s.Canonical)
    (h : FunctionLevel S ts next f) : f.WellFormed ∧ ∀ s ∈ f.body, s.Canonical := by
  cases h with
  | @mk d t us vs ws xs _ name params type body span hd ht hp hr hb hc =>
    refine ⟨⟨⟨t.lexeme, hw t (by simp), ht⟩, hp.wellFormed fun u hu => hw u (by simp [hu]),
      hr.wellFormed fun u hu => hw u (by simp [hu]), FunctionOf.giveCall_giveCall body⟩, ?_⟩
    refine FunctionOf.giveCall_canonical (hb.forall_mem fun hsub => hS fun u hu => ?_)
    simp [hsub hu]

theorem ClassLevel.canonical {c : ClassDecl} (hw : ∀ t ∈ ts, t.lexeme.WellFormed)
    (hS : ∀ {us next s}, us ⊆ ts → S .functionBody us next s → s.Canonical)
    (h : ClassLevel S ts next c) : (Stmt.classDecl c).Canonical := by
  cases h with
  | @mk k t us vs _ name members span hk ht hb _ =>
    have hl := hw t (by simp)
    rw [ht] at hl
    have hmembers : (∀ p ∈ members.1, p.WellFormed) ∧
        ∀ f ∈ members.2, f.WellFormed ∧ ∀ s ∈ f.body, s.Canonical := by
      refine hb.invariant (P := fun members => (∀ p ∈ members.1, p.WellFormed) ∧
        ∀ f ∈ members.2, f.WellFormed ∧ ∀ s ∈ f.body, s.Canonical) ?_ (by simp)
      intro members members' ws next hsub hm hs
      have hws : ∀ u ∈ ws, u.lexeme.WellFormed := fun u hu => hw u (by simp [hsub hu])
      cases hm with
      | @property t colon u le _ name type ht _ hu _ =>
        have hname := hws t (by simp)
        have htype := hws u (by simp)
        rw [ht] at hname
        rw [hu] at htype
        refine ⟨fun p hp => ?_, hs.2⟩
        rcases List.mem_append.1 hp with hp | hp
        · exact hs.1 p hp
        · rw [List.mem_singleton.1 hp]
          exact ⟨hname, htype⟩
      | method hf =>
        refine ⟨hs.1, fun f hf' => ?_⟩
        rcases List.mem_append.1 hf' with hf' | hf'
        · exact hs.2 f hf'
        · rw [List.mem_singleton.1 hf']
          exact hf.canonical hws fun hsub' => hS fun u hu => by simp [hsub (hsub' hu)]
    exact .classDecl hl hmembers.1 (fun f hf => (hmembers.2 f hf).1) fun f hf => (hmembers.2 f hf).2

theorem Elsifs.canonical {R : Rule Stmt} {elsifs : List Elsif} (hw : ∀ t ∈ ts, t.lexeme.WellFormed)
    (hR : ∀ {us next s}, us ⊆ ts → R us next s → s.Canonical) (h : Elsifs R ts next elsifs) :
    ∀ e ∈ elsifs, e.condition.Canonical .whole ∧ ∀ s ∈ e.body, s.Canonical := by
  induction h with
  | nil _ _ _ => simp
  | @cons ns t us vs ws _ condition body elsifs _ _ he hb _ ih =>
    intro e hmem
    rcases List.mem_cons.1 hmem with rfl | hmem
    · refine ⟨he.canonical fun u hu => hw u (by simp [hu]),
        hb.forall_mem fun hsub => hR fun u hu => ?_⟩
      simp [hsub hu]
    · exact ih (fun u hu => hw u (by simp [hu]))
        (fun hsub => hR fun u hu => by simp [hsub hu]) e hmem

theorem BranchLevel.canonical {R : Rule Stmt} (hw : ∀ t ∈ ts, t.lexeme.WellFormed)
    (hR : ∀ {us next s}, us ⊆ ts → R us next s → s.Canonical) (h : BranchLevel R ts next s) :
    s.Canonical := by
  cases h with
  | @mk t us vs ws xs ys _ condition body elsifs otherwise hasElse span _ he hb hs ho _ =>
    have helsifs := hs.canonical (fun u hu => hw u (by simp [hu]))
      fun hsub => hR fun u hu => by simp [hsub hu]
    refine .branch (he.canonical fun u hu => hw u (by simp [hu]))
      (hb.forall_mem fun hsub => hR fun u hu => by simp [hsub hu])
      (fun e he => (helsifs e he).1) (fun e he => (helsifs e he).2) ?_ ?_
    · cases ho with
      | none _ => exact fun _ => rfl
      | some _ _ => simp
    · cases ho with
      | none _ => simp
      | some _ hb => exact hb.forall_mem fun hsub => hR fun u hu => by simp [hsub hu]

theorem Valued.canonical {start : Span} {make : Expr → Span → Stmt}
    (hw : ∀ t ∈ ts, t.lexeme.WellFormed) (h : Valued start make ts next s) :
    ∃ e span, s = make e span ∧ e.Canonical .whole := by
  cases h with
  | mk he => exact ⟨_, _, rfl, he.canonical hw⟩

theorem Access.canonical {start : Span} {name : String} (hw : ∀ u ∈ t :: us, u.lexeme.WellFormed)
    (h : Access place start (t :: us) next s) (ht : t.lexeme = .identifier name)
    (ho : (us.headD next).lexeme.opensAccess = true) : s.Canonical := by
  generalize hts : t :: us = ts at h
  cases h with
  | @mk vs ws _ target _ hop htail =>
    obtain ⟨v, vs, rfl, _⟩ := hop.starts
    obtain ⟨rfl, rfl⟩ := List.cons.inj (hts.trans (List.cons_append ..))
    obtain ⟨hoperand, haccess⟩ := hop.canonical (fun u hu => hw u (by
      rw [← List.cons_append]
      exact List.mem_append_left _ hu)) fun hsub he => he.canonical fun u hu => hw u (by
        rw [← List.cons_append]
        exact List.mem_append_left _ (hsub hu))
    rw [List.headD_cons, ht] at haccess
    obtain ⟨hcanonical, hopening⟩ := haccess rfl
    cases htail with
    | expr =>
      rw [List.append_nil] at ho
      exact .access hcanonical hopening (hop.standsAlone ht ho)
    | assign _ hv =>
      obtain ⟨e, span, rfl, he⟩ := hv.canonical fun u hu => hw u (by simp [hu])
      obtain ⟨hobject, hne, hnames⟩ := hcanonical.of_propertyAccess
      exact .assignProperty hobject hne hnames hopening he
    | give _ _ hp he =>
      exact .give (.binary hoperand hp (he.canonical fun u hu => hw u (by simp [hu])))

theorem Sentence.canonical (hw : ∀ t ∈ ts, t.lexeme.WellFormed) (h : Sentence place ts next s) :
    s.Canonical := by
  have hcanonical {us : List Token} {next : Token} {e : Expr} (hsub : us ⊆ ts)
      (he : Expression us next e) : e.Canonical .whole := he.canonical fun t ht => hw t (hsub ht)
  cases h with
  | print _ hv =>
    obtain ⟨e, span, rfl, he⟩ := hv.canonical fun u hu => hw u (by simp [hu])
    exact .print he
  | give _ hv =>
    obtain ⟨e, span, rfl, he⟩ := hv.canonical fun u hu => hw u (by simp [hu])
    exact .give he
  | giveNothing _ => exact .giveNothing
  | text _ hv =>
    obtain ⟨e, span, rfl, he⟩ := hv.canonical hw
    exact .give he
  | @assign t _ _ _ name _ ht _ hv =>
    have hl := hw t (by simp)
    rw [ht] at hl
    obtain ⟨e, span, rfl, he⟩ := hv.canonical fun u hu => hw u (by simp [hu])
    exact .assign hl he
  | access ht ho ha => exact ha.canonical hw ht ho
  | implicitGive _ _ _ _ he => exact .give (he.canonical hw)
  | @bareCall t _ name _ ht =>
    have hl := hw t (by simp)
    rw [ht] at hl
    exact .access (Expr.Canonical.call hl (by simp)).bare rfl rfl
  | @assignInstanceVar t _ _ _ name _ ht _ hv =>
    have hl := hw t (by simp)
    rw [ht] at hl
    obtain ⟨e, span, rfl, he⟩ := hv.canonical fun u hu => hw u (by simp [hu])
    exact .assignInstanceVar hl he
  | instanceCall ht _ hop hk =>
    obtain ⟨_, haccess⟩ := hop.canonical hw hcanonical
    rw [List.headD_cons, ht] at haccess
    obtain ⟨he, hopening⟩ := haccess rfl
    exact .instanceCall he hopening hk
  | @instanceProperty t us equal vs _ name name' properties target _ ht _ hop _ hv =>
    obtain ⟨_, haccess⟩ := hop.canonical (fun u hu => hw u (List.mem_append_left _ hu))
      fun hsub => hcanonical fun u hu => List.mem_append_left _ (hsub hu)
    rw [List.headD_cons, ht] at haccess
    obtain ⟨hname, hne, hnames⟩ := (haccess rfl).1.of_instanceVarAccess
    obtain ⟨e, span, rfl, he⟩ := hv.canonical fun u hu => hw u (by simp [hu])
    exact .assignInstanceProperty hname hne hnames he

theorem StatementRule.canonical (h : StatementRule place ts next s)
    (hw : ∀ t ∈ ts, t.lexeme.WellFormed) (hs : place.nested = true ∨ ∀ c, s ≠ .component c) :
    s.Canonical := by
  induction h with
  | @of inner place ts next s _ h ih =>
    have hbody {place : Place} (hplace : place.nested = true) {us : List Token} {next : Token}
        {s : Stmt} (hsub : us ⊆ ts) (h : inner place us next s) : s.Canonical :=
      ih h (fun t ht => hw t (hsub ht)) (.inl hplace)
    cases h with
    | function hf =>
      obtain ⟨hf, hcode⟩ := hf.canonical hw (hbody rfl)
      exact .function hf hcode
    | classDecl hc => exact hc.canonical hw (hbody rfl)
    | component hplace hc =>
      rcases hs with hs | hs
      · rw [hs] at hplace
        cases hplace
      · exact absurd rfl (hs _)
    | branch hb => exact hb.canonical hw (hbody rfl)
    | sentence hl =>
      cases hl with
      | mk hsentence _ => exact hsentence.canonical fun t ht => hw t (List.mem_append_left _ ht)

theorem Statements.canonical {body : List Stmt} (h : Statements ts next body)
    (hw : ∀ t ∈ ts, t.lexeme.WellFormed) (hs : ∀ s ∈ body, ∀ c, s ≠ .component c) :
    ∀ s ∈ body, s.Canonical := by
  intro s hmem
  obtain ⟨us, next', hsub, hrule⟩ := h.rule_of_mem hmem
  exact hrule.canonical (fun t ht => hw t (hsub ht)) (.inr (hs s hmem))

end Image

theorem check_tokens {source : String} {code : List Char} {p : Program}
    (h : check source code = .ok p) :
    ∃ tokens ts next, Token.ofText source code = .ok tokens ∧ ts ⊆ tokens ∧
      Statements ts next p.body := by
  obtain ⟨ts, last, htokens, -, hr⟩ := check_eq_ok_iff.1 h
  cases hr with
  | mk _ hss => exact ⟨_, _, last, htokens, fun t ht => by simp [ht], hss⟩

theorem check_statements {source : String} {code : List Char} {p : Program}
    (h : check source code = .ok p) :
    ∃ ts next, (∀ t ∈ ts, t.lexeme.WellFormed) ∧ Statements ts next p.body := by
  obtain ⟨tokens, ts, next, htokens, hsub, hss⟩ := check_tokens h
  exact ⟨ts, next, fun t ht => Token.ofText_wellFormed htokens t (hsub ht), hss⟩

theorem check_canonical {source : String} {code : List Char} {p : Program}
    (h : check source code = .ok p) (hp : ∀ c, .component c ∉ p.body) :
    ∀ s ∈ p.body, s.Canonical := by
  obtain ⟨ts, next, hw, hss⟩ := check_statements h
  exact hss.canonical hw fun s hs c hc => hp c (hc ▸ hs)

end LayoutScript

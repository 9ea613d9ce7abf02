import LayoutScript.Proofs.MarkupGrammar
import LayoutScript.Syntax.Program

/-! The grammar of statements and declarations. Rules for forms with statements inside take the rule
for these, as the parsers do. -/
namespace LayoutScript

open LayoutScript.Expr (Expression Operand)

inductive LineOf (rule : Rule α) : Rule α
  | mk {us le next a} : rule us (le.headD next) a → LineEnd le next → LineOf rule (us ++ le) next a

def Lexeme.functionName? : Lexeme → Option String
  | .identifier name => some name
  | .keyword .construct => some Keyword.construct.text
  | .keyword .print => some Keyword.print.text
  | _ => none

def Lexeme.opensAccess : Lexeme → Bool
  | .punct .dot | .punct .openParen => true
  | _ => false

theorem Lexeme.opensAccess_eq_false {l : Lexeme} (hdot : l ≠ .punct .dot)
    (hopen : l ≠ .punct .openParen) : l.opensAccess = false := by
  unfold opensAccess
  split
  · exact absurd rfl hdot
  · exact absurd rfl hopen
  · rfl

def Lexeme.isText : Lexeme → Bool
  | .string _ | .template _ => true
  | _ => false

inductive OptionalType : Rule (Option String)
  | none {next} : next.lexeme ≠ .punct .colon → OptionalType [] next none
  | some {colon t next type} : colon.lexeme = .punct .colon → t.lexeme = .identifier type →
    OptionalType [colon, t] next (some type)

inductive ParamRule : Rule Param
  | mk {t us next name type} : t.lexeme = .identifier name → OptionalType us next type →
    ParamRule (t :: us) next ⟨name, type⟩

inductive ParamList : Rule (List Param)
  | none {next} : next.lexeme ≠ .punct .openParen → ParamList [] next []
  | some {o us close next params} :
    o.lexeme = .punct .openParen → Separated ParamRule us close params →
    close.lexeme = .punct .closeParen → ParamList (o :: us ++ [close]) next params

inductive FunctionLevel (statement : Place → Rule Stmt) : Rule FunctionDecl
  | mk {d t us vs ws xs next name params type body span} : d.lexeme = .keyword .defWord →
    t.lexeme.functionName? = some name → ParamList us ((vs ++ ws ++ xs).headD next) params →
    OptionalType vs ((ws ++ xs).headD next) type →
    Block (Appends (statement .functionBody)) [] ws (xs.headD next) body →
    Closing d.span xs next span →
    FunctionLevel statement (d :: t :: us ++ vs ++ ws ++ xs) next
      ⟨name, params, type, FunctionOf.giveCall body, span⟩

inductive ClassMember (statement : Place → Rule Stmt) :
    List Property × List FunctionDecl → Rule (List Property × List FunctionDecl)
  | property {members t colon u le next name type} : t.lexeme = .identifier name →
    colon.lexeme = .punct .colon → u.lexeme = .identifier type → LineEnd le next →
    ClassMember statement members (t :: colon :: u :: le) next
      (members.1 ++ [⟨name, type⟩], members.2)
  | method {members ts next f} : FunctionLevel statement ts next f →
    ClassMember statement members ts next (members.1, members.2 ++ [f])

inductive ClassLevel (statement : Place → Rule Stmt) : Rule ClassDecl
  | mk {k t us vs next name members span} : k.lexeme = .keyword .classWord →
    t.lexeme = .identifier name →
    Block (ClassMember statement) ([], []) us (vs.headD next) members →
    Closing k.span vs next span →
    ClassLevel statement (k :: t :: us ++ vs) next ⟨name, members.1, members.2, span⟩

inductive OptionalValue : Rule (Option Expr)
  | none {next} : next.lexeme ≠ .punct .equal → OptionalValue [] next none
  | some {equal us next e} : equal.lexeme = .punct .equal → Expression us next e →
    OptionalValue (equal :: us) next (some e)

inductive EntryRule : Rule Entry
  | mk {t colon u vs le next name type value} : t.lexeme = .identifier name →
    colon.lexeme = .punct .colon → u.lexeme = .identifier type →
    OptionalValue vs (le.headD next) value → LineEnd le next →
    EntryRule (t :: colon :: u :: vs ++ le) next
      ⟨name, type, value, t.span.join (vs.getLastD u).span⟩

inductive EntryBlock (k : Keyword) : Rule (List Entry)
  | mk {t us vs next entries span} : t.lexeme = .keyword k →
    Block (Appends EntryRule) [] us (vs.headD next) entries → Closing t.span vs next span →
    EntryBlock k (t :: us ++ vs) next entries

inductive ComponentMember (statement : Place → Rule Stmt) : ComponentDecl → Rule ComponentDecl
  | props {c ts next entries} : EntryBlock .props ts next entries →
    ComponentMember statement c ts next { c with props := c.props ++ entries }
  | state {c ts next entries} : EntryBlock .state ts next entries →
    ComponentMember statement c ts next { c with state := c.state ++ entries }
  | method {c ts next f} : FunctionLevel statement ts next f →
    ComponentMember statement c ts next { c with methods := c.methods ++ [f] }
  | render {c ts next r} : c.render = none → RenderRule ts next r →
    ComponentMember statement c ts next { c with render := some r }
  | style {c ts next s} : c.style = none → StyleBlockRule ts next s →
    ComponentMember statement c ts next { c with style := some s }

inductive ComponentLevel (statement : Place → Rule Stmt) : Rule ComponentDecl
  | mk {k t us vs next name c span} : k.lexeme = .keyword .component →
    t.lexeme = .identifier name →
    Block (ComponentMember statement) ⟨name, [], [], [], none, none, k.span⟩ us (vs.headD next) c →
    Closing k.span vs next span →
    ComponentLevel statement (k :: t :: us ++ vs) next { c with span := span }

inductive Elsifs (statement : Rule Stmt) : Rule (List Elsif)
  | nil {ns next} : Newlines ns → next.lexeme ≠ .newline → next.lexeme ≠ .keyword .elsif →
    Elsifs statement ns next []
  | cons {ns t us vs ws next condition body elsifs} : Newlines ns → t.lexeme = .keyword .elsif →
    Expression us ((vs ++ ws).headD next) condition →
    Block (Appends statement) [] vs (ws.headD next) body → Elsifs statement ws next elsifs →
    Elsifs statement (ns ++ t :: us ++ vs ++ ws) next (⟨condition, body⟩ :: elsifs)

inductive Otherwise (statement : Rule Stmt) : Rule (Bool × List Stmt)
  | none {next} : next.lexeme ≠ .keyword .elseWord → Otherwise statement [] next (false, [])
  | some {t us next body} : t.lexeme = .keyword .elseWord →
    Block (Appends statement) [] us next body → Otherwise statement (t :: us) next (true, body)

inductive BranchLevel (statement : Rule Stmt) : Rule Stmt
  | mk {t us vs ws xs ys next condition body elsifs otherwise hasElse span} :
    t.lexeme = .keyword .ifWord →
    Expression us ((vs ++ ws ++ xs ++ ys).headD next) condition →
    Block (Appends statement) [] vs ((ws ++ xs ++ ys).headD next) body →
    Elsifs statement ws ((xs ++ ys).headD next) elsifs →
    Otherwise statement xs (ys.headD next) (hasElse, otherwise) → Closing t.span ys next span →
    BranchLevel statement (t :: us ++ vs ++ ws ++ xs ++ ys) next
      (.branch condition body elsifs otherwise hasElse span)

inductive Valued (start : Span) (make : Expr → Span → Stmt) : Rule Stmt
  | mk {ts next e} : Expression ts next e → Valued start make ts next (make e (start.join e.span))

inductive AccessTail (place : Place) (start : Span) : Expr → Rule Stmt
  | expr {target next} : AccessTail place start target [] next (.expr target)
  | assign {equal us next object properties target s} : equal.lexeme = .punct .equal →
    Valued start (.assignProperty object properties target) us next s →
    AccessTail place start (.propertyAccess object properties target) (equal :: us) next s
  | give {op p us next left right} : place.inFunction = true → op.lexeme = .punct p →
    p.isBinary = true → Expression us next right →
    AccessTail place start left (op :: us) next
      (.give (some (.binary left p.text right false (left.span.join right.span)))
        (left.span.join right.span))

inductive Access (place : Place) (start : Span) : Rule Stmt
  | mk {us vs next target s} : Operand Expression us (vs.headD next) target →
    AccessTail place start target vs next s → Access place start (us ++ vs) next s

inductive Sentence (place : Place) : Rule Stmt
  | print {t us next s} : t.lexeme = .keyword .print → Valued t.span .print us next s →
    Sentence place (t :: us) next s
  | give {t us next s} : t.lexeme = .keyword .returnWord →
    Valued t.span (fun e => .give (some e)) us next s → Sentence place (t :: us) next s
  | giveNothing {t next} : t.lexeme = .keyword .returnWord →
    Sentence place [t] next (.give none t.span)
  | text {t us next s} : t.lexeme.isText = true →
    Valued t.span (fun e => .give (some e)) (t :: us) next s → Sentence place (t :: us) next s
  | assign {t equal us next name s} : t.lexeme = .identifier name → equal.lexeme = .punct .equal →
    Valued t.span (.assign name) us next s → Sentence place (t :: equal :: us) next s
  | access {t us next name s} : t.lexeme = .identifier name →
    (us.headD next).lexeme.opensAccess = true → Access place t.span (t :: us) next s →
    Sentence place (t :: us) next s
  | implicitGive {t us next name e} : place.inFunction = true → t.lexeme = .identifier name →
    (us.headD next).lexeme ≠ .punct .equal → (us.headD next).lexeme.opensAccess = false →
    Expression (t :: us) next e → Sentence place (t :: us) next (.give (some e) e.span)
  | bareCall {t next name} : place.inFunction = false → t.lexeme = .identifier name →
    Sentence place [t] next (.expr (.call name [] t.span))
  | assignInstanceVar {t equal us next name s} : t.lexeme = .instanceVar name →
    equal.lexeme = .punct .equal → Valued t.span (.assignInstanceVar name) us next s →
    Sentence place (t :: equal :: us) next s
  | instanceCall {t us next name target} : t.lexeme = .instanceVar name →
    (us.headD next).lexeme.opensAccess = true → Operand Expression (t :: us) next target →
    (target.kind = .instanceMethodCall ∨ target.kind = .methodCall) →
    Sentence place (t :: us) next (.expr target)
  | instanceProperty {t us equal vs next name name' properties target s} :
    t.lexeme = .instanceVar name → (us.headD equal).lexeme.opensAccess = true →
    Operand Expression (t :: us) equal (.instanceVarAccess name' properties target) →
    equal.lexeme = .punct .equal →
    Valued t.span (.assignProperty (.instanceVar name' t.span) properties target) vs next s →
    Sentence place (t :: us ++ equal :: vs) next s

inductive StatementLevel (statement : Place → Rule Stmt) (place : Place) : Rule Stmt
  | function {ts next f} : FunctionLevel statement ts next f →
    StatementLevel statement place ts next (.function f)
  | classDecl {ts next c} : ClassLevel statement ts next c →
    StatementLevel statement place ts next (.classDecl c)
  | component {ts next c} : place.nested = false → ComponentLevel statement ts next c →
    StatementLevel statement place ts next (.component c)
  | branch {ts next s} : BranchLevel (statement place.block) ts next s →
    StatementLevel statement place ts next s
  | sentence {ts next s} : LineOf (Sentence place) ts next s →
    StatementLevel statement place ts next s

inductive StatementRule : Place → Rule Stmt
  | of {inner : Place → Rule Stmt} {place ts next s} :
    (∀ {place ts next s}, inner place ts next s → StatementRule place ts next s) →
    StatementLevel inner place ts next s → StatementRule place ts next s

inductive Statements : Rule (List Stmt)
  | nil {next} : next.lexeme = .eof → Statements [] next []
  | cons {us ns vs next s body} : StatementRule .top us ((ns ++ vs).headD next) s → Newlines ns →
    Statements vs next body → Statements (us ++ ns ++ vs) next (s :: body)

inductive ProgramRule : Rule Program
  | mk {ns us next body} : Newlines ns → Statements us next body →
  ProgramRule (ns ++ us) next ⟨body⟩

theorem ProgramRule.next_eof {ts : List Token} {next : Token} {p : Program}
    (h : ProgramRule ts next p) : next.lexeme = .eof := by
  cases h with
  | mk _ hss => induction hss with
    | nil heof => exact heof
    | cons _ _ _ ih => exact ih

section Mono

variable {S S' : Place → Rule Stmt} {place : Place} {ts : List Token} {next : Token}

theorem FunctionLevel.mono {f : FunctionDecl}
    (h : ∀ {place ts next s}, S place ts next s → S' place ts next s)
    (hf : FunctionLevel S ts next f) : FunctionLevel S' ts next f := by
  cases hf with
  | mk hd ht hp hr hb hc => exact .mk hd ht hp hr (hb.mono fun ha => ha.mono h) hc

theorem ClassMember.mono {members members' : List Property × List FunctionDecl}
    (h : ∀ {place ts next s}, S place ts next s → S' place ts next s)
    (hm : ClassMember S members ts next members') : ClassMember S' members ts next members' := by
  cases hm with
  | property ht hc hu hle => exact .property ht hc hu hle
  | method hf => exact .method (hf.mono h)

theorem ClassLevel.mono {c : ClassDecl}
    (h : ∀ {place ts next s}, S place ts next s → S' place ts next s)
    (hc : ClassLevel S ts next c) : ClassLevel S' ts next c := by
  cases hc with
  | mk hk ht hb hc => exact .mk hk ht (hb.mono fun hm => hm.mono h) hc

theorem ComponentMember.mono {c c' : ComponentDecl}
    (h : ∀ {place ts next s}, S place ts next s → S' place ts next s)
    (hm : ComponentMember S c ts next c') : ComponentMember S' c ts next c' := by
  cases hm with
  | props he => exact .props he
  | state he => exact .state he
  | method hf => exact .method (hf.mono h)
  | render hn hr => exact .render hn hr
  | style hn hs => exact .style hn hs

theorem ComponentLevel.mono {c : ComponentDecl}
    (h : ∀ {place ts next s}, S place ts next s → S' place ts next s)
    (hc : ComponentLevel S ts next c) : ComponentLevel S' ts next c := by
  cases hc with
  | mk hk ht hb hc => exact .mk hk ht (hb.mono fun hm => hm.mono h) hc

theorem Elsifs.mono {R R' : Rule Stmt} {elsifs : List Elsif}
    (h : ∀ {ts next s}, R ts next s → R' ts next s) (he : Elsifs R ts next elsifs) :
    Elsifs R' ts next elsifs := by
  induction he with
  | nil hns hn he => exact .nil hns hn he
  | cons hns ht he hb _ ih => exact .cons hns ht he (hb.mono fun ha => ha.mono h) ih

theorem Otherwise.mono {R R' : Rule Stmt} {r : Bool × List Stmt}
    (h : ∀ {ts next s}, R ts next s → R' ts next s) (ho : Otherwise R ts next r) :
    Otherwise R' ts next r := by
  cases ho with
  | none hn => exact .none hn
  | some ht hb => exact .some ht (hb.mono fun ha => ha.mono h)

theorem BranchLevel.mono {R R' : Rule Stmt} {s : Stmt}
    (h : ∀ {ts next s}, R ts next s → R' ts next s) (hb : BranchLevel R ts next s) :
    BranchLevel R' ts next s := by
  cases hb with
  | mk ht he hb hs ho hc => exact .mk ht he (hb.mono fun ha => ha.mono h) (hs.mono h) (ho.mono h) hc

theorem StatementLevel.mono {s : Stmt}
    (h : ∀ {place ts next s}, S place ts next s → S' place ts next s)
    (hs : StatementLevel S place ts next s) : StatementLevel S' place ts next s := by
  cases hs with
  | function hf => exact .function (hf.mono h)
  | classDecl hc => exact .classDecl (hc.mono h)
  | component hn hc => exact .component hn (hc.mono h)
  | branch hb => exact .branch (hb.mono h)
  | sentence hl => exact .sentence hl

theorem statementRule_iff_level {s : Stmt} :
    StatementRule place ts next s ↔ StatementLevel StatementRule place ts next s := by
  constructor
  · rintro ⟨sub, h⟩
    exact h.mono sub
  · exact .of id

end Mono

def Lexeme.startsStatement : Lexeme → Bool
  | .keyword .defWord | .keyword .classWord | .keyword .component | .keyword .print => true
  | .keyword .returnWord | .keyword .ifWord => true
  | .identifier _ | .instanceVar _ | .string _ | .template _ => true
  | _ => false

section Starts

variable {S : Place → Rule Stmt} {place : Place} {ts : List Token} {next : Token}

theorem FunctionLevel.starts {f : FunctionDecl} (h : FunctionLevel S ts next f) :
    StartsWith Lexeme.startsStatement ts := by
  cases h with
  | mk hd _ _ _ _ _ => exact ⟨_, _, rfl, by rw [hd]; rfl⟩

theorem Access.ne_nil {start : Span} {s : Stmt} (h : Access place start ts next s) : ts ≠ [] := by
  cases h with
  | mk ho _ => exact (ho.starts.append _).ne_nil

theorem Sentence.starts {s : Stmt} (h : Sentence place ts next s) :
    StartsWith Lexeme.startsStatement ts := by
  have htext {l : Lexeme} (h : l.isText = true) : l.startsStatement = true := by
    cases l <;> first | rfl | cases h
  cases h with
  | print ht _ | give ht _ | giveNothing ht | assign ht _ _ | access ht _ _
  | implicitGive _ ht _ _ _
  | bareCall _ ht | assignInstanceVar ht _ _ | instanceCall ht _ _ _
  | instanceProperty ht _ _ _ _ => exact ⟨_, _, rfl, by rw [ht]; rfl⟩
  | text ht _ => exact ⟨_, _, rfl, htext ht⟩

theorem StatementLevel.starts {s : Stmt} (h : StatementLevel S place ts next s) :
    StartsWith Lexeme.startsStatement ts := by
  cases h with
  | function hf => exact hf.starts
  | classDecl hc => cases hc with | mk hk _ _ _ => exact ⟨_, _, rfl, by rw [hk]; rfl⟩
  | component _ hc => cases hc with | mk hk _ _ _ => exact ⟨_, _, rfl, by rw [hk]; rfl⟩
  | branch hb => cases hb with | mk ht _ _ _ _ _ => exact ⟨_, _, rfl, by rw [ht]; rfl⟩
  | sentence hl => cases hl with | mk hs _ => exact hs.starts.append _

theorem StatementRule.starts {s : Stmt} (h : StatementRule place ts next s) :
    StartsWith Lexeme.startsStatement ts :=
  (statementRule_iff_level.1 h).starts

theorem Statements.ne_newline {body : List Stmt} (h : Statements ts next body) :
    (ts.headD next).lexeme ≠ .newline := by
  cases h with
  | nil heof =>
    rw [List.headD_nil, heof]
    simp
  | cons hs _ _ =>
    rw [List.append_assoc]
    exact (hs.starts.append _).lexeme_ne rfl

end Starts

end LayoutScript

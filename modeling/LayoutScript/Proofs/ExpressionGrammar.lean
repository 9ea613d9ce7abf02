import LayoutScript.Proofs.Blocks
import LayoutScript.Syntax.Expression

/-! The grammar of expressions, and that the parser reads exactly this grammar. A rule for one form
takes the rule for the expressions inside it, as the parser for the form does. -/
namespace LayoutScript

def Lexeme.isBinary : Lexeme → Bool
  | .punct p => p.isBinary
  | _ => false

def Lexeme.startsOperand : Lexeme → Bool
  | .string _ | .template _ | .number _ | .identifier _ | .instanceVar _ => true
  | .keyword .trueWord | .keyword .falseWord | .keyword .null | .keyword .new => true
  | .punct .openParen | .punct .minus => true
  | _ => false

namespace Expr

def atom? : Lexeme → Option (Span → Expr)
  | .string raw => some (.string raw)
  | .template raw => some (.template raw)
  | .number raw => some (.number raw)
  | .keyword .trueWord => some (.boolean true)
  | .keyword .falseWord => some (.boolean false)
  | .keyword .null => some .null
  | _ => none

/-- Reads `properties` from `base`, up to a token with the span `last`. -/
def accessed (start last : Span) (base : Expr) (properties : List String) : Expr :=
  match properties, base with
  | [], _ => base
  | _, .instanceVar name _ => .instanceVarAccess name properties (start.join last)
  | _, _ => .propertyAccess base properties (start.join last)

inductive Arguments (expression : Rule Expr) : Rule (List Expr × Span)
  | mk {o us close next args} : o.lexeme = .punct .openParen → Separated expression us close args →
    close.lexeme = .punct .closeParen →
    Arguments expression (o :: us ++ [close]) next (args, close.span)

inductive Head (expression : Rule Expr) : Rule Expr
  | identifier {t name next} : t.lexeme = .identifier name → next.lexeme ≠ .punct .openParen →
    Head expression [t] next (.identifier name t.span)
  | call {t name us next args close} : t.lexeme = .identifier name →
    Arguments expression us next (args, close) →
    Head expression (t :: us) next (.call name args (t.span.join close))
  | instanceVar {t name next} : t.lexeme = .instanceVar name → next.lexeme ≠ .punct .openParen →
    Head expression [t] next (.instanceVar name t.span)
  | instanceCall {t name us next args close} : t.lexeme = .instanceVar name →
    Arguments expression us next (args, close) →
    Head expression (t :: us) next (.instanceMethodCall name args (t.span.join close))

/-- Properties and method calls after `base`, given the properties that stand before them and the
span of the token before. -/
inductive Chain (expression : Rule Expr) (start : Span) : Span → Expr → List String → Rule Expr
  | stop {last base properties next} : next.lexeme ≠ .punct .dot →
    Chain expression start last base properties [] next (base.accessed start last properties)
  | property {last base properties dot word name us next e} : dot.lexeme = .punct .dot →
    word.lexeme.name? = some name → (us.headD next).lexeme ≠ .punct .openParen →
    Chain expression start word.span base (properties ++ [name]) us next e →
    Chain expression start last base properties (dot :: word :: us) next e
  | call {last base properties dot word name us vs next args close e} : dot.lexeme = .punct .dot →
    word.lexeme.name? = some name → Arguments expression us (vs.headD next) (args, close) →
    Chain expression start close
      (.methodCall (base.accessed start word.span properties) name args (start.join close)) []
      vs next e →
    Chain expression start last base properties (dot :: word :: us ++ vs) next e

inductive Operand (expression : Rule Expr) : Rule Expr
  | atom {t make next} : atom? t.lexeme = some make → Operand expression [t] next (make t.span)
  | chain {us vs next base e} : Head expression us (vs.headD next) base →
    Chain expression base.span base.span base [] vs next e → Operand expression (us ++ vs) next e
  | new {t word name next} : t.lexeme = .keyword .new → word.lexeme = .identifier name →
    next.lexeme ≠ .punct .openParen →
    Operand expression [t, word] next (.construct name [] (t.span.join word.span))
  | newWith {t word name us next args close} : t.lexeme = .keyword .new →
    word.lexeme = .identifier name → Arguments expression us next (args, close) →
    Operand expression (t :: word :: us) next (.construct name args (t.span.join close))
  | group {o us close next e} : o.lexeme = .punct .openParen → expression us close e →
    close.lexeme = .punct .closeParen → Operand expression (o :: us ++ [close]) next e.grouped
  | negative {minus t raw next} : minus.lexeme = .punct .minus → t.lexeme = .number raw →
    t.follows minus = true →
    Operand expression [minus, t] next (.number ("-" ++ raw) (minus.span.join t.span))

inductive Level (expression : Rule Expr) : Rule Expr
  | operand {ts next e} : Operand expression ts next e → next.lexeme.isBinary = false →
    Level expression ts next e
  | binary {ts op p us next left right} : Operand expression ts op left → op.lexeme = .punct p →
    p.isBinary = true → expression us next right →
    Level expression (ts ++ op :: us) next
      (.binary left p.text right false (left.span.join right.span))

inductive Expression : Rule Expr
  | of {inner : Rule Expr} {ts next e} : (∀ {ts next e}, inner ts next e → Expression ts next e) →
    Level inner ts next e → Expression ts next e

section Mono

variable {E E' : Rule Expr} {ts : List Token} {next : Token} {e : Expr}

theorem Arguments.mono {r : List Expr × Span} (h : ∀ {ts next e}, E ts next e → E' ts next e)
    (ha : Arguments E ts next r) : Arguments E' ts next r := by
  cases ha with
  | mk ho hs hc => exact .mk ho (hs.mono h) hc

theorem Head.mono (h : ∀ {ts next e}, E ts next e → E' ts next e) (hh : Head E ts next e) :
    Head E' ts next e := by
  cases hh with
  | identifier ht hn => exact .identifier ht hn
  | call ht ha => exact .call ht (ha.mono h)
  | instanceVar ht hn => exact .instanceVar ht hn
  | instanceCall ht ha => exact .instanceCall ht (ha.mono h)

theorem Chain.mono {start last : Span} {base : Expr} {properties : List String}
    (h : ∀ {ts next e}, E ts next e → E' ts next e)
    (hc : Chain E start last base properties ts next e) :
    Chain E' start last base properties ts next e := by
  induction hc with
  | stop hn => exact .stop hn
  | property hd hw hn _ ih => exact .property hd hw hn ih
  | call hd hw ha _ ih => exact .call hd hw (ha.mono h) ih

theorem Operand.mono (h : ∀ {ts next e}, E ts next e → E' ts next e) (ho : Operand E ts next e) :
    Operand E' ts next e := by
  cases ho with
  | atom ht => exact .atom ht
  | chain hh hc => exact .chain (hh.mono h) (hc.mono h)
  | new ht hw hn => exact .new ht hw hn
  | newWith ht hw ha => exact .newWith ht hw (ha.mono h)
  | group ho he hc => exact .group ho (h he) hc
  | negative hm ht hf => exact .negative hm ht hf

theorem Level.mono (h : ∀ {ts next e}, E ts next e → E' ts next e) (hl : Level E ts next e) :
    Level E' ts next e := by
  cases hl with
  | operand ho hn => exact .operand (ho.mono h) hn
  | binary ho hp hb he => exact .binary (ho.mono h) hp hb (h he)

theorem expression_iff_level : Expression ts next e ↔ Level Expression ts next e := by
  constructor
  · rintro ⟨sub, h⟩
    exact h.mono sub
  · exact .of id

end Mono

abbrev Starts (ts : List Token) : Prop := StartsWith Lexeme.startsOperand ts

section Starts

variable {E : Rule Expr} {ts us : List Token} {next : Token} {e : Expr}

theorem Head.starts (h : Head E ts next e) : Starts ts := by
  cases h with
  | identifier ht _ => exact ⟨_, _, rfl, by rw [ht]; rfl⟩
  | call ht _ => exact ⟨_, _, rfl, by rw [ht]; rfl⟩
  | instanceVar ht _ => exact ⟨_, _, rfl, by rw [ht]; rfl⟩
  | instanceCall ht _ => exact ⟨_, _, rfl, by rw [ht]; rfl⟩

theorem startsOperand_of_atom? {lexeme : Lexeme} {make : Span → Expr}
    (h : atom? lexeme = some make) : lexeme.startsOperand = true := by
  unfold atom? at h
  split at h <;> first | rfl | cases h

theorem Operand.starts (h : Operand E ts next e) : Starts ts := by
  cases h with
  | atom ht => exact ⟨_, _, rfl, startsOperand_of_atom? ht⟩
  | chain hh _ => exact hh.starts.append _
  | new ht _ _ => exact ⟨_, _, rfl, by rw [ht]; rfl⟩
  | newWith ht _ _ => exact ⟨_, _, rfl, by rw [ht]; rfl⟩
  | group ho _ _ => exact ⟨_, _, rfl, by rw [ho]; rfl⟩
  | negative hm _ _ => exact ⟨_, _, rfl, by rw [hm]; rfl⟩

theorem Level.starts (h : Level E ts next e) : Starts ts := by
  cases h with
  | operand ho _ => exact ho.starts
  | binary ho _ _ _ => exact ho.starts.append _

theorem Expression.starts (h : Expression ts next e) : Starts ts :=
  (expression_iff_level.1 h).starts

end Starts

section Reading

open LayoutScript.Parser

variable {n : Nat} {expression : Parser Expr} {E : Rule Expr}

theorem run_withProperties (start : Span) (base : Expr) (properties : List String) (c : Cursor) :
    (base.withProperties start properties).run c =
      .ok (base.accessed start c.prev.span properties, c) := by
  cases properties with
  | nil => cases base <;> rfl
  | cons name names => cases base <;> rfl

theorem withProperties_reads (start : Span) (base : Expr) (properties : List String) :
    (base.withProperties start properties).ReadsWithin n fun prev ts _ e =>
      ts = [] ∧ e = base.accessed start prev.span properties :=
  look_reads (fun prev _ => base.accessed start prev.span properties)
    (run_withProperties start base properties)

theorem Arguments.last {ts : List Token} {next : Token} {args : List Expr} {close : Span}
    (h : Arguments E ts next (args, close)) (prev : Token) : (ts.getLastD prev).span = close := by
  cases h with
  | mk _ _ _ => rw [getLastD_append]; rfl

theorem Arguments.opens {ts : List Token} {next next' : Token} {r : List Expr × Span}
    (h : Arguments E ts next r) : (ts.headD next').lexeme = .punct .openParen := by
  cases h with
  | mk ho _ _ => exact ho

theorem Arguments.ne_nil {ts : List Token} {next : Token} {r : List Expr × Span}
    (h : Arguments E ts next r) : ts ≠ [] := by
  cases h with
  | mk _ _ _ => exact List.cons_ne_nil _ _

theorem arguments_reads (hE : expression.ReadsWithin n fun _ => E)
    (hstart : ∀ {ts next e}, E ts next e → Starts ts) :
    (arguments expression).ReadsWithin (n + 1) fun _ ts next args =>
      ∃ close, Arguments E ts next (args, close) := by
  refine ((expectPunct_reads .openParen).token_bind (fun _ => commaSeparated_reads (by simp)
    (fun h => (hstart h).lexeme_ne rfl) hE) (Nat.le_refl _)).congr fun prev ts next args => ?_
  constructor
  · rintro ⟨o, _, _, rfl, ho, us, close, rfl, hc, hs⟩
    exact ⟨close.span, .mk ho hs hc⟩
  · rintro ⟨_, h⟩
    cases h with
    | mk ho hs hc => exact ⟨_, _, (), rfl, ho, _, _, rfl, hc, hs⟩

theorem arguments_bind {f : List Expr → Span → Parser β} {rule : List Expr → Span → Rule β}
    (hE : expression.ReadsWithin n fun _ => E) (hstart : ∀ {ts next e}, E ts next e → Starts ts)
    (hf : ∀ args close, (f args close).ReadsWithin n fun _ => rule args close) :
    (do f (← arguments expression) (← prevSpan)).ReadsWithin (n + 1) fun _ ts next b =>
      ∃ us vs args close, ts = us ++ vs ∧ Arguments E us (vs.headD next) (args, close) ∧
        rule args close vs next b := by
  have hne {ts next args} (h : ∃ close, Arguments E ts next (args, close)) : n + 1 ≤ n +
      ts.length := by
    obtain ⟨_, h⟩ := h
    have := List.length_pos_iff.2 h.ne_nil
    omega
  refine ((arguments_reads hE hstart).bind_within hne fun args =>
    prevSpan_bind fun close => hf args close).congr fun prev ts next b => ?_
  constructor
  · rintro ⟨us, vs, args, rfl, ⟨close, ha⟩, hr⟩
    rw [ha.last] at hr
    exact ⟨us, vs, args, close, rfl, ha, hr⟩
  · rintro ⟨us, vs, args, close, rfl, ha, hr⟩
    refine ⟨us, vs, args, rfl, ⟨close, ha⟩, ?_⟩
    show rule args (us.getLastD prev).span vs next b
    rwa [ha.last]

inductive ChainTurn (expression : Rule Expr) (start : Span) (s : Expr × List String) :
    Token → Rule ((Expr × List String) × Bool)
  | stop {prev next} : next.lexeme ≠ .punct .dot →
    ChainTurn expression start s prev [] next (s, false)
  | property {prev dot word name next} : dot.lexeme = .punct .dot →
    word.lexeme.name? = some name → next.lexeme ≠ .punct .openParen →
    ChainTurn expression start s prev [dot, word] next ((s.1, s.2 ++ [name]), true)
  | call {prev dot word name us next args close} : dot.lexeme = .punct .dot →
    word.lexeme.name? = some name → Arguments expression us next (args, close) →
    ChainTurn expression start s prev (dot :: word :: us) next
      ((.methodCall (s.1.accessed start word.span s.2) name args (start.join close), []), true)

theorem chainTurn_reads (hE : expression.ReadsWithin n fun _ => E)
    (hstart : ∀ {ts next e}, E ts next e → Starts ts) (start : Span) (base : Expr)
    (properties : List String) :
    (nextAccess expression start (base, properties)).ReadsWithin (n + 1)
      (ChainTurn E start (base, properties)) := by
  refine (accept_bind (by simp) fun b => .ite (b := !b)
    (fun _ => pure_reads ((base, properties), false)) fun _ =>
    expectName_reads.token_bind (fun name => seesPunct_bind fun b => .ite
      (fun _ => .look_bind (fun prev _ => base.accessed start prev.span properties)
        (run_withProperties start base properties) fun object =>
        arguments_bind hE hstart fun args close =>
          pure_reads ((Expr.methodCall object name args (start.join close), []), true))
      fun _ => pure_reads ((base, properties ++ [name]), true))
      (Nat.le_succ _)).congr fun prev ts next r => ?_
  simp only [beq_iff_eq]
  constructor
  · rintro (⟨dot, _, rfl, hd, word, us, name, rfl, hw, h⟩ | ⟨hd, rfl, rfl⟩)
    · split at h
      · obtain ⟨vs, _, args, close, rfl, ha, rfl, rfl⟩ := h
        rw [List.append_nil]
        exact .call hd hw ha
      · next hn =>
        obtain ⟨rfl, rfl⟩ := h
        exact .property hd hw hn
    · exact .stop hd
  · intro h
    cases h with
    | stop hd => exact .inr ⟨hd, rfl, rfl⟩
    | property hd hw hn =>
      refine .inl ⟨_, _, rfl, hd, _, _, _, rfl, hw, ?_⟩
      rw [if_neg (by exact hn)]
      exact ⟨rfl, rfl⟩
    | call hd hw ha =>
      have ho : (List.headD _ next).lexeme = .punct .openParen := ha.opens
      refine .inl ⟨_, _, rfl, hd, _, _, _, rfl, hw, ?_⟩
      rw [if_pos ho]
      exact ⟨_, [], _, _, (List.append_nil _).symm, ha, rfl, rfl⟩

theorem loop_chainTurn_iff {start : Span} {s : Expr × List String} {prev next : Token}
    {ts : List Token} {e : Expr} :
    (∃ s', Loop (ChainTurn E start) s prev ts next s' ∧
      e = s'.1.accessed start (ts.getLastD prev).span s'.2) ↔
      Chain E start prev.span s.1 s.2 ts next e := by
  constructor
  · rintro ⟨s', h, rfl⟩
    induction h with
    | stop ht =>
      cases ht with
      | stop hn => exact .stop hn
    | more ht _ ih =>
      rw [getLastD_append]
      cases ht with
      | property hd hw hn => exact .property hd hw hn ih
      | call hd hw ha =>
        have hlast := ha.last
        rw [List.getLastD_cons, List.getLastD_cons] at ih ⊢
        rw [hlast] at ih
        exact .call hd hw ha ih
  · intro h
    generalize hlast : prev.span = last at h
    obtain ⟨base, properties⟩ := s
    dsimp only at h
    induction h generalizing prev with
    | stop hn => exact ⟨_, .stop (.stop hn), by rw [← hlast]; rfl⟩
    | @property _ base properties dot word _ us _ _ hd hw hn _ ih =>
      obtain ⟨s', hl, he⟩ := @ih word rfl
      have hmore : Loop (ChainTurn E start) (base, properties) prev ([dot, word] ++ us) _ s' :=
        .more (.property hd hw hn) hl
      refine ⟨s', hmore, ?_⟩
      rw [he, List.getLastD_cons, List.getLastD_cons]
    | @call _ base properties dot word _ us vs _ _ _ _ hd hw ha _ ih =>
      obtain ⟨s', hl, he⟩ := ih (ha.last word)
      have hlast : (dot :: word :: us).getLastD prev = us.getLastD word := by
        rw [List.getLastD_cons, List.getLastD_cons]
      rw [← hlast] at hl he
      refine ⟨s', .more (.call hd hw ha) hl, ?_⟩
      rw [he, getLastD_append]

/-- The token before does not matter while there are no properties. -/
theorem Chain.change_last {start last : Span} {base e : Expr} {ts : List Token} {next : Token}
    (h : Chain E start last base [] ts next e) (last' : Span) :
    Chain E start last' base [] ts next e := by
  cases h with
  | stop hn => exact .stop hn
  | property hd hw hn h => exact .property hd hw hn h
  | call hd hw ha h => exact .call hd hw ha h

theorem accessChain_reads (hE : expression.ReadsWithin n fun _ => E)
    (hstart : ∀ {ts next e}, E ts next e → Starts ts) (base : Expr) :
    (accessChain expression base).ReadsWithin (n + 1) fun _ =>
      Chain E base.span base.span base [] := by
  have hstep (s : Expr × List String) : ReadsWithin (n + 1) _ (ChainTurn E base.span s) :=
    chainTurn_reads hE hstart base.span s.1 s.2
  have hloop := loop_reads hstep (fun h => by cases h <;> exact List.cons_ne_nil _ _) (base, [])
  refine (hloop.bind fun s => withProperties_reads base.span s.1 s.2).congr
    fun prev ts next e => ?_
  constructor
  · rintro ⟨us, _, s, rfl, hl, rfl, rfl⟩
    rw [List.append_nil]
    exact (loop_chainTurn_iff.1 ⟨s, hl, rfl⟩).change_last _
  · intro h
    have h' : Chain E base.span prev.span (base, ([] : List String)).1 _ ts next e :=
      h.change_last prev.span
    obtain ⟨s, hl, he⟩ := loop_chainTurn_iff.2 h'
    exact ⟨ts, [], s, (List.append_nil _).symm, hl, rfl, he⟩

theorem headTail_reads (hE : expression.ReadsWithin n fun _ => E)
    (hstart : ∀ {ts next e}, E ts next e → Starts ts) (start : Span) (plain : Expr)
    (call : List Expr → Span → Expr) :
    (do
      if ← seesPunct .openParen then
        let args ← arguments expression
        accessChain expression (call args (start.join (← prevSpan)))
      else accessChain expression plain : Parser Expr).ReadsWithin n fun _ ts next e =>
        (∃ us vs base, ts = us ++ vs ∧
          (∃ args close, Arguments E us (vs.headD next) (args, close) ∧
            base = call args (start.join close)) ∧
          Chain E base.span base.span base [] vs next e) ∨
        ((ts.headD next).lexeme ≠ .punct .openParen ∧
          Chain E plain.span plain.span plain [] ts next e) := by
  have hchain (base : Expr) := (accessChain_reads hE hstart base).mono (Nat.le_succ n)
  have hcall := (arguments_bind hE hstart fun args close =>
    hchain (call args (start.join close))).mono (Nat.le_succ n)
  refine (seesPunct_bind fun b => .ite (fun _ => hcall) fun _ => hchain plain).congr
    fun prev ts next e => ?_
  simp only [beq_iff_eq]
  constructor
  · intro h
    split at h
    · obtain ⟨us, vs, args, close, rfl, ha, hc⟩ := h
      exact .inl ⟨us, vs, _, rfl, ⟨args, close, ha, rfl⟩, hc⟩
    · next hn => exact .inr ⟨hn, h⟩
  · rintro (⟨us, vs, _, rfl, ⟨args, close, ha, rfl⟩, hc⟩ | ⟨hn, hc⟩)
    · rw [headD_append, if_pos ha.opens]
      exact ⟨us, vs, args, close, rfl, ha, hc⟩
    · rw [if_neg hn]
      exact hc

theorem newInstance_reads (hE : expression.ReadsWithin n fun _ => E)
    (hstart : ∀ {ts next e}, E ts next e → Starts ts) :
    (newInstance expression).ReadsWithin (n + 1) fun _ ts next e =>
      ∃ t word us name, ts = t :: word :: us ∧ t.lexeme = .keyword .new ∧
        word.lexeme = .identifier name ∧
        ((∃ args close, Arguments E us next (args, close) ∧
            e = .construct name args (t.span.join close)) ∨
          (us = [] ∧ next.lexeme ≠ .punct .openParen ∧
            e = .construct name [] (t.span.join word.span))) := by
  have hcall (name : String) (start : Span) := (arguments_bind hE hstart fun args close =>
    pure_reads (Expr.construct name args (start.join close))).mono (Nat.le_succ n)
  refine (here_bind fun start => (expectKeyword_reads .new).token_bind (fun _ =>
    expectIdentifier_reads.token_bind (fun name => seesPunct_bind fun b => .ite
      (fun _ => hcall name start) fun _ => (pure_reads []).bind fun args =>
        prevSpan_bind fun close => pure_reads (Expr.construct name args (start.join close)))
      (Nat.le_succ n)) (Nat.le_refl _)).congr fun prev ts next e => ?_
  simp only [beq_iff_eq]
  constructor
  · rintro ⟨t, _, _, rfl, ht, word, us, name, rfl, hw, h⟩
    refine ⟨t, word, us, name, rfl, ht, hw, ?_⟩
    split at h
    · obtain ⟨vs, _, args, close, rfl, ha, rfl, rfl⟩ := h
      rw [List.append_nil]
      exact .inl ⟨args, close, ha, rfl⟩
    · next hn =>
      obtain ⟨_, _, _, rfl, ⟨rfl, rfl⟩, rfl, rfl⟩ := h
      exact .inr ⟨rfl, hn, rfl⟩
  · rintro ⟨t, word, us, name, rfl, ht, hw, h⟩
    refine ⟨t, _, (), rfl, ht, word, us, name, rfl, hw, ?_⟩
    rcases h with ⟨args, close, ha, rfl⟩ | ⟨rfl, hn, rfl⟩
    · rw [if_pos ha.opens]
      exact ⟨us, [], args, close, (List.append_nil _).symm, ha, rfl, rfl⟩
    · rw [if_neg (by exact hn)]
      exact ⟨[], [], [], rfl, ⟨rfl, rfl⟩, rfl, rfl⟩

theorem atom_run_iff {make : Span → Expr} {c c' : Cursor} {e : Expr} (hc : c.Closed)
    (hl : c.ahead.length < n + 1) (ht : atom? c.cur.lexeme = some make) :
    (do advance; return make c.cur.span : Parser Expr).run c = .ok (e, c') ↔
      c.Passes [c.cur] c' ∧ e = make c.cur.span := by
  have hne : c.cur.lexeme ≠ .eof := by
    intro h
    rw [h] at ht
    cases ht
  rw [advance_bind_iff (pure_reads _) hc hl hne]
  constructor
  · rintro ⟨_, hp, rfl, rfl⟩
    exact ⟨hp, rfl⟩
  · rintro ⟨hp, rfl⟩
    exact ⟨[], hp, rfl, rfl⟩

theorem operand_sound (hE : expression.ReadsWithin n fun _ => E)
    (hstart : ∀ {ts next e}, E ts next e → Starts ts) {c c' : Cursor} {e : Expr} (hc : c.Closed)
    (hl : c.ahead.length < n + 1) (h : (operand expression).run c = .ok (e, c')) :
    ∃ ts, c.Passes ts c' ∧ Operand E ts c'.cur e := by
  rw [operand, run_bind_ok (run_current c)] at h
  have atom {make : Span → Expr} (ht : atom? c.cur.lexeme = some make)
      (h : (do advance; return make c.cur.span : Parser Expr).run c = .ok (e, c')) :
      ∃ ts, c.Passes ts c' ∧ Operand E ts c'.cur e := by
    obtain ⟨hp, rfl⟩ := (atom_run_iff hc hl ht).1 h
    exact ⟨_, hp, .atom ht⟩
  split at h
  · next raw ht => exact atom (by rw [ht]; rfl) h
  · next raw ht => exact atom (by rw [ht]; rfl) h
  · next raw ht => exact atom (by rw [ht]; rfl) h
  · next name ht =>
    obtain ⟨us, hp, hr⟩ := (advance_bind_iff (headTail_reads hE hstart c.cur.span
      (.identifier name c.cur.span) (.call name)) hc hl (by simp [ht])).1 h
    rcases hr with ⟨vs, ws, _, rfl, ⟨args, close, ha, rfl⟩, hchain⟩ | ⟨hn, hchain⟩
    · exact ⟨_, hp, .chain (.call ht ha) hchain⟩
    · exact ⟨_, hp, .chain (.identifier ht hn) hchain⟩
  · next name ht =>
    obtain ⟨us, hp, hr⟩ := (advance_bind_iff (headTail_reads hE hstart c.cur.span
      (.instanceVar name c.cur.span) (.instanceMethodCall name)) hc hl (by simp [ht])).1 h
    rcases hr with ⟨vs, ws, _, rfl, ⟨args, close, ha, rfl⟩, hchain⟩ | ⟨hn, hchain⟩
    · exact ⟨_, hp, .chain (.instanceCall ht ha) hchain⟩
    · exact ⟨_, hp, .chain (.instanceVar ht hn) hchain⟩
  · next ht => exact atom (by rw [ht]; rfl) h
  · next ht => exact atom (by rw [ht]; rfl) h
  · next ht => exact atom (by rw [ht]; rfl) h
  · next ht =>
    obtain ⟨_, hp, t, word, us, name, rfl, ht, hw, hr⟩ := (newInstance_reads hE hstart hc hl).1 h
    rcases hr with ⟨args, close, ha, rfl⟩ | ⟨rfl, hn, rfl⟩
    · exact ⟨_, hp, .newWith ht hw ha⟩
    · exact ⟨_, hp, .new ht hw hn⟩
  · next ht =>
    have hgroup := hE.bind fun inner =>
      (expectPunct_reads .closeParen).token_bind (fun _ => pure_reads inner.grouped) (Nat.le_succ n)
    obtain ⟨_, hp, us, _, inner, rfl, he, close, _, _, rfl, hclose, rfl, rfl⟩ :=
      (advance_bind_iff hgroup hc hl (by simp [ht])).1 h
    exact ⟨_, hp, .group ht he hclose⟩
  · next ht =>
    rw [run_bind_ok (run_peek c)] at h
    split at h
    · next raw hraw hf =>
      have hminus := hc.passes_advance (by simp [ht])
      have hcur := hc.cur_advance (by simp [ht])
      have hnumber := (hminus.closed hc).passes_advance (by simp [hcur, hraw])
      rw [run_bind_ok (run_advance hminus.ahead_ne_nil),
        run_bind_ok (run_advance hnumber.ahead_ne_nil)] at h
      cases h
      rw [hcur] at hnumber
      exact ⟨_, hminus.trans hnumber, .negative ht hraw hf⟩
    · cases h
  · cases h

theorem operand_complete (hE : expression.ReadsWithin n fun _ => E)
    (hstart : ∀ {ts next e}, E ts next e → Starts ts) {c c' : Cursor} {ts : List Token} {e : Expr}
    (hc : c.Closed) (hl : c.ahead.length < n + 1) (hp : c.Passes ts c')
    (h : Operand E ts c'.cur e) : (operand expression).run c = .ok (e, c') := by
  rw [operand, run_bind_ok (run_current c)]
  cases h with
  | atom ht =>
    obtain rfl := hp.cur_cons
    have hrun := (atom_run_iff hc hl ht).2 ⟨hp, rfl⟩
    rw [← hrun]
    unfold atom? at ht
    split at ht <;> cases ht <;> next hlex => simp only [hlex]
  | chain hh hchain =>
    cases hh with
    | identifier ht hn =>
      obtain rfl := hp.cur_cons
      simp only [ht]
      exact (advance_bind_iff (headTail_reads hE hstart _ _ (.call _)) hc hl (by simp [ht])).2
        ⟨_, hp, .inr ⟨hn, hchain⟩⟩
    | call ht ha =>
      obtain rfl := hp.cur_cons
      simp only [ht]
      exact (advance_bind_iff (headTail_reads hE hstart _ _ (.call _)) hc hl (by simp [ht])).2
        ⟨_, hp, .inl ⟨_, _, _, rfl, ⟨_, _, ha, rfl⟩, hchain⟩⟩
    | instanceVar ht hn =>
      obtain rfl := hp.cur_cons
      simp only [ht]
      exact (advance_bind_iff (headTail_reads hE hstart _ _ (.instanceMethodCall _)) hc hl
        (by simp [ht])).2 ⟨_, hp, .inr ⟨hn, hchain⟩⟩
    | instanceCall ht ha =>
      obtain rfl := hp.cur_cons
      simp only [ht]
      exact (advance_bind_iff (headTail_reads hE hstart _ _ (.instanceMethodCall _)) hc hl
        (by simp [ht])).2 ⟨_, hp, .inl ⟨_, _, _, rfl, ⟨_, _, ha, rfl⟩, hchain⟩⟩
  | new ht hw hn =>
    obtain rfl := hp.cur_cons
    simp only [ht]
    exact (newInstance_reads hE hstart hc hl).2
      ⟨_, hp, _, _, _, _, rfl, ht, hw, .inr ⟨rfl, hn, rfl⟩⟩
  | newWith ht hw ha =>
    obtain rfl := hp.cur_cons
    simp only [ht]
    exact (newInstance_reads hE hstart hc hl).2
      ⟨_, hp, _, _, _, _, rfl, ht, hw, .inl ⟨_, _, ha, rfl⟩⟩
  | group ho he hclose =>
    obtain rfl := hp.cur_cons
    simp only [ho]
    have hgroup := hE.bind fun inner =>
      (expectPunct_reads .closeParen).token_bind (fun _ => pure_reads inner.grouped) (Nat.le_succ n)
    exact (advance_bind_iff hgroup hc hl (by simp [ho])).2
      ⟨_, hp, _, _, _, rfl, he, _, _, (), rfl, hclose, rfl, rfl⟩
  | negative hm ht hf =>
    obtain rfl := hp.cur_cons
    have hpeek := hp.peek
    rw [List.headD_cons] at hpeek
    simp only [hm]
    rw [run_bind_ok (run_peek c), hpeek]
    simp only [ht, hf]
    rw [run_bind_ok (run_advance hp.ahead_ne_nil),
      run_bind_ok (run_advance hp.advance.ahead_ne_nil), hp.advance.step]
    rfl

theorem operand_reads (hE : expression.ReadsWithin n fun _ => E)
    (hstart : ∀ {ts next e}, E ts next e → Starts ts) :
    (operand expression).ReadsWithin (n + 1) fun _ => Operand E := by
  intro c c' e hc hl
  constructor
  · exact operand_sound hE hstart hc hl
  · rintro ⟨ts, hp, h⟩
    exact operand_complete hE hstart hc hl hp h

inductive Rest (expression : Rule Expr) (left : Expr) : Rule Expr
  | none {next} : next.lexeme.isBinary = false → Rest expression left [] next left
  | binary {op p us next right} : op.lexeme = .punct p → p.isBinary = true →
    expression us next right →
    Rest expression left (op :: us) next
      (.binary left p.text right false (left.span.join right.span))

theorem binaryRest_reads (hE : expression.ReadsWithin n fun _ => E) (left : Expr) :
    (binaryRest expression left).ReadsWithin (n + 1) fun _ => Rest E left := by
  intro c c' e hc hl
  rw [binaryRest, run_bind_ok (run_current c)]
  have hright (p : Punct) := hE.bind fun right =>
    pure_reads (Expr.binary left p.text right false (left.span.join right.span))
  constructor
  · intro h
    split at h
    · next p ht =>
      split at h
      · next hb =>
        obtain ⟨us, hp, vs, _, right, rfl, he, rfl, rfl⟩ :=
          (advance_bind_iff (hright p) hc hl (by simp [ht])).1 h
        rw [List.append_nil] at hp
        exact ⟨_, hp, .binary ht hb he⟩
      · next hb =>
        cases h
        exact ⟨[], .refl c, .none (by simpa [ht, Lexeme.isBinary] using hb)⟩
    · next ht =>
      cases h
      refine ⟨[], .refl c, .none ?_⟩
      unfold Lexeme.isBinary
      split
      · next p hp => exact absurd hp (ht p)
      · rfl
  · rintro ⟨ts, hp, h⟩
    cases h with
    | none hn =>
      obtain rfl := hp.eq
      split
      · next p ht =>
        have hb : p.isBinary = false := by simpa [ht, Lexeme.isBinary] using hn
        simp only [hb, Bool.false_eq_true, if_false]
        rfl
      · rfl
    | binary ht hb he =>
      obtain rfl := hp.cur_cons
      simp only [ht, hb, if_true]
      exact (advance_bind_iff (hright _) hc hl (by simp [ht])).2
        ⟨_, hp, _, [], _, (List.append_nil _).symm, he, rfl, rfl⟩

theorem expression_iff_rest {ts : List Token} {next : Token} {e : Expr} :
    Expression ts next e ↔ ∃ us vs left, ts = us ++ vs ∧
      Operand Expression us (vs.headD next) left ∧ Rest Expression left vs next e := by
  rw [expression_iff_level]
  constructor
  · intro h
    cases h with
    | operand ho hn => exact ⟨ts, [], e, (List.append_nil _).symm, ho, .none hn⟩
    | binary ho hp hb he => exact ⟨_, _ :: _, _, rfl, ho, .binary hp hb he⟩
  · rintro ⟨us, vs, left, rfl, ho, hr⟩
    cases hr with
    | none hn =>
      rw [List.append_nil]
      exact .operand ho hn
    | binary hp hb he => exact .binary ho hp hb he

theorem parseWithin_reads (n : Nat) : (parseWithin n).ReadsWithin n fun _ => Expression := by
  induction n with
  | zero => exact fun _ _ _ _ hl => absurd hl (Nat.not_lt_zero _)
  | succ n ih =>
    have hlevel := (operand_reads ih Expression.starts).bind fun left => binaryRest_reads ih left
    exact hlevel.congr fun prev ts next e => expression_iff_rest.symm

theorem parse_reads : parse.ReadsWithin n fun _ => Expression :=
  bounded_reads parseWithin_reads

theorem parseOperand_reads : parseOperand.ReadsWithin n fun _ => Operand Expression :=
  (operand_reads parse_reads Expression.starts).mono (Nat.le_succ n)

theorem parseRest_reads (left : Expr) : (parseRest left).ReadsWithin n fun _ =>
    Rest Expression left :=
  (binaryRest_reads parse_reads left).mono (Nat.le_succ n)

end Reading

end Expr

end LayoutScript

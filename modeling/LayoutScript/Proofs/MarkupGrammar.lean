import LayoutScript.Proofs.ExpressionGrammar
import LayoutScript.Syntax.Markup

/-! The grammar of render and style blocks, and that the parser reads exactly this grammar. -/
namespace LayoutScript

open LayoutScript.Parser
open LayoutScript.Expr (Expression)

namespace Markup

/-- A text in front of some content: one that starts the content goes on with it. -/
def addText (value : String) (span : Span) : List Markup → List Markup
  | .text value' span' :: ms => .text (value ++ " " ++ value') (span.join span') :: ms
  | ms => .text value span :: ms

/-- The content of a line: interpolations stand alone, and the other tokens of a run make one
text, with a blank between them. -/
def ofTokens : List Token → List Markup
  | [] => []
  | t :: ts =>
    match t.lexeme with
    | .interpolation raw => .interpolation raw t.span :: ofTokens ts
    | _ => addText t.text t.span (ofTokens ts)

def endsLine (t : Token) : Bool := t.lexeme == .newline || t.lexeme == .eof

end Markup

inductive Optional (lexeme : Lexeme) : List Token → Token → Prop
  | none {next} : next.lexeme ≠ lexeme → Optional lexeme [] next
  | some {t next} : t.lexeme = lexeme → Optional lexeme [t] next

structure RestOfLine (ts : List Token) (next : Token) : Prop where
  inside : ∀ t ∈ ts, Markup.endsLine t = false
  stop : Markup.endsLine next = true

inductive AttributeName : Rule String
  | plain {ts next name} : DashedName ts next name → ¬Touches .colon (ts.getLastD next) next →
    AttributeName ts next name
  | event {us colon vs next name event} : DashedName us colon name →
    Touches .colon (us.getLastD colon) colon → DashedName vs next event →
    AttributeName (us ++ colon :: vs) next (name ++ ":" ++ event)

inductive AttributeRule : Rule Attribute
  | mk {us equal vs ws next name value} : AttributeName us equal name →
    equal.lexeme = .punct .equal → Expression vs (ws.headD next) value →
    Optional (.punct .comma) ws next →
    AttributeRule (us ++ equal :: vs ++ ws) next ⟨name, value⟩

inductive AttributeItems : Rule (List Attribute)
  | nil {close} : AttributeItems [] close []
  | cons {ts us close a as} : AttributeRule ts (us.headD close) a → AttributeItems us close as →
    AttributeItems (ts ++ us) close (a :: as)

inductive AttributeList : Token → Rule (List Attribute)
  | none {prev next} : ¬Touches .openParen prev next → AttributeList prev [] next []
  | some {prev o us close next as} : Touches .openParen prev o → AttributeItems us close as →
    close.lexeme = .punct .closeParen → AttributeList prev (o :: us ++ [close]) next as

inductive ClassList : Token → Rule (List String)
  | nil {prev next} : ¬Touches .dot prev next → ClassList prev [] next []
  | cons {prev dot us vs next name names} : Touches .dot prev dot →
    DashedName us (vs.headD next) name → ClassList (us.getLastD dot) vs next names →
    ClassList prev (dot :: us ++ vs) next (name :: names)

inductive ElementLevel (element : Rule Element) : Rule Element
  | mk {t tag us vs ws xs next names attributes children} : t.lexeme = .identifier tag →
    ClassList t us ((vs ++ ws ++ xs).headD next) names →
    AttributeList (us.getLastD t) vs ((ws ++ xs).headD next) attributes →
    RestOfLine ws (xs.headD next) → Block (Appends element) [] xs next children →
    ElementLevel element (t :: us ++ vs ++ ws ++ xs) next
      ⟨tag, " ".intercalate names, attributes, Markup.ofTokens ws ++ children.map .element,
        t.span.join ((us ++ vs ++ ws).getLastD t).span⟩

inductive ElementRule : Rule Element
  | of {inner : Rule Element} {ts next e} :
    (∀ {ts next e}, inner ts next e → ElementRule ts next e) → ElementLevel inner ts next e →
    ElementRule ts next e

inductive RenderRule : Rule RenderBlock
  | mk {t us vs next elements span} : t.lexeme = .keyword .render →
    Block (Appends ElementRule) [] us (vs.headD next) elements → Closing t.span vs next span →
    RenderRule (t :: us ++ vs) next ⟨elements, span⟩

inductive StyleDeclarationRule : Rule StyleDeclaration
  | mk {us colon vs le next property value} : DashedName us colon property →
    colon.lexeme = .punct .colon → Expression vs (le.headD next) value → LineEnd le next →
    StyleDeclarationRule (us ++ colon :: vs ++ le) next ⟨property, value⟩

inductive StyleRuleRule : Rule StyleRule
  | mk {dot us vs next selector declarations} : Optional (.punct .dot) dot ((us ++ vs).headD next) →
    DashedName us (vs.headD next) selector →
    Block (Appends StyleDeclarationRule) [] vs next declarations →
    StyleRuleRule (dot ++ us ++ vs) next ⟨selector, declarations⟩

inductive StyleBlockRule : Rule StyleBlock
  | mk {t us vs next rules span} : t.lexeme = .keyword .style →
    Block (Appends StyleRuleRule) [] us (vs.headD next) rules → Closing t.span vs next span →
    StyleBlockRule (t :: us ++ vs) next ⟨rules, span⟩

theorem ElementLevel.mono {E E' : Rule Element} {ts : List Token} {next : Token} {e : Element}
    (h : ∀ {ts next e}, E ts next e → E' ts next e) (he : ElementLevel E ts next e) :
    ElementLevel E' ts next e := by
  cases he with
  | mk ht hc ha hr hb => exact .mk ht hc ha hr (hb.mono fun hx => hx.mono h)

theorem elementRule_iff_level {ts : List Token} {next : Token} {e : Element} :
    ElementRule ts next e ↔ ElementLevel ElementRule ts next e := by
  constructor
  · rintro ⟨sub, h⟩
    exact h.mono sub
  · exact .of id

theorem ElementRule.ne_nil {ts : List Token} {next : Token} {e : Element}
    (h : ElementRule ts next e) : ts ≠ [] := by
  cases elementRule_iff_level.1 h with
  | mk _ _ _ _ _ => simp

abbrev StartsWord (ts : List Token) : Prop := StartsWith (fun lexeme => lexeme.name?.isSome) ts

section StartsWord

variable {ts : List Token} {next : Token}

theorem DashedName.startsWord {name : String} (h : DashedName ts next name) : StartsWord ts := by
  cases h with
  | mk ht _ => exact ⟨_, _, rfl, Option.isSome_of_eq_some ht⟩

theorem AttributeName.startsWord {name : String} (h : AttributeName ts next name) :
    StartsWord ts := by
  cases h with
  | plain hd _ => exact hd.startsWord
  | event hd _ _ => exact hd.startsWord.append _

theorem AttributeRule.startsWord {a : Attribute} (h : AttributeRule ts next a) : StartsWord ts := by
  cases h with
  | mk hn _ _ _ =>
    rw [List.append_assoc]
    exact hn.startsWord.append _

end StartsWord

section Reading

variable {n : Nat}

theorem optional_bind {lexeme : Lexeme} {f : Parser β} {rule : Token → Rule β}
    (heof : lexeme ≠ .eof) (hf : f.ReadsWithin n rule) :
    (do let _ ← accept lexeme; f).ReadsWithin n fun prev ts next b =>
      ∃ us vs, ts = us ++ vs ∧ Optional lexeme us (vs.headD next) ∧
        rule (us.getLastD prev) vs next b := by
  refine (accept_bind heof fun _ => hf).congr fun prev ts next b => ?_
  constructor
  · rintro (⟨t, us, rfl, ht, hr⟩ | ⟨hn, hr⟩)
    · exact ⟨[t], us, rfl, .some ht, hr⟩
    · exact ⟨[], ts, rfl, .none hn, hr⟩
  · rintro ⟨us, vs, rfl, ho, hr⟩
    cases ho with
    | none hn => exact .inr ⟨hn, hr⟩
    | some ht => exact .inl ⟨_, vs, rfl, ht, hr⟩

theorem Markup.addText_addText (value value' : String) (span span' : Span) (ms : List Markup) :
    addText value span (addText value' span' ms) =
      addText (value ++ " " ++ value') (span.join span') ms := by
  cases ms with
  | nil => rfl
  | cons m ms => cases m <;> simp only [addText, String.append_assoc, Span.join]

namespace Inline

def feed (s : Inline) (t : Token) : Inline :=
  match t.lexeme with
  | .interpolation raw => s.addInterpolation raw t.span
  | _ => s.addWord t

/-- All the content of a line, where `ms` is what the tokens that are left make. -/
def finish (s : Inline) (ms : List Markup) : List Markup :=
  if s.words.isEmpty then s.content ++ ms
  else s.content ++ Markup.addText (" ".intercalate s.words) s.span ms

theorem content_flush (s : Inline) : s.flush.content = s.finish [] := by
  rw [flush, finish]
  split
  · rw [List.append_nil]
  · rfl

theorem finish_addInterpolation (s : Inline) (raw : String) (span : Span) (ms : List Markup) :
    (s.addInterpolation raw span).finish ms = s.finish (.interpolation raw span :: ms) := by
  rw [addInterpolation, content_flush, finish, finish, finish, flush]
  cases hw : s.words.isEmpty with
  | true => simp [hw]
  | false => simp [Markup.addText]

theorem finish_addWord (s : Inline) (t : Token) (ms : List Markup) :
    (s.addWord t).finish ms = s.finish (Markup.addText t.text t.span ms) := by
  have hne : (s.words ++ [t.text]).isEmpty = false := by simp
  cases hw : s.words.isEmpty with
  | true =>
    rw [addWord, finish, finish, hne, hw]
    simp [List.isEmpty_iff.1 hw]
  | false =>
    have hwords : " ".intercalate (s.words ++ [t.text]) =
        " ".intercalate s.words ++ " " ++ t.text := by
      rw [String.intercalate_append_of_ne_nil (by simpa using hw) (by simp),
        String.intercalate_singleton]
    rw [addWord, finish, finish, hne, hw]
    simp only [Bool.false_eq_true, if_false]
    rw [hwords, Markup.addText_addText]

/-- The loop gives what the fold from the right gives. -/
theorem content_flush_foldl (ts : List Token) (s : Inline) :
    (ts.foldl feed s).flush.content = s.finish (Markup.ofTokens ts) := by
  induction ts generalizing s with
  | nil => exact content_flush s
  | cons t ts ih =>
    rw [List.foldl_cons, ih, feed, Markup.ofTokens]
    split
    · exact finish_addInterpolation s _ _ _
    · exact finish_addWord s t _

theorem run_parseNext (s : Inline) {c : Cursor}
    (ha : Markup.endsLine c.cur = false → c.ahead ≠ []) :
    (parseNext s).run c =
      if Markup.endsLine c.cur then
        .ok ((s, false), c) else .ok ((s.feed c.cur, true), c.advance) := by
  rw [parseNext, run_bind_ok (run_current c), feed]
  unfold Markup.endsLine at ha ⊢
  cases hl : c.cur.lexeme with
  | newline => rfl
  | eof => rfl
  | _ =>
    rw [hl] at ha
    exact run_bind_ok (run_advance (ha rfl))

theorem parseNext_reads (s : Inline) :
    (parseNext s).ReadsWithin n fun _ ts next r =>
      (∃ t, ts = [t] ∧ Markup.endsLine t = false ∧ r = (s.feed t, true)) ∨
        (ts = [] ∧ Markup.endsLine next = true ∧ r = (s, false)) := by
  intro c c' r hc _
  have hne (h : Markup.endsLine c.cur = false) : c.cur.lexeme ≠ .eof := by
    intro he
    simp [Markup.endsLine, he] at h
  rw [run_parseNext s fun h => hc.ahead_ne_nil (hne h)]
  cases hl : Markup.endsLine c.cur with
  | true =>
    constructor
    · rintro ⟨⟩
      exact ⟨[], .refl c, .inr ⟨rfl, hl, rfl⟩⟩
    · rintro ⟨_, hp, ⟨t, rfl, ht, -⟩ | ⟨rfl, -, rfl⟩⟩
      · rw [hp.cur_cons, ht] at hl
        cases hl
      · rw [hp.eq]
        rfl
  | false =>
    constructor
    · rintro ⟨⟩
      exact ⟨_, hc.passes_advance (hne hl), .inl ⟨_, rfl, hl, rfl⟩⟩
    · rintro ⟨_, hp, ⟨t, rfl, -, rfl⟩ | ⟨rfl, hn, -⟩⟩
      · rw [hp.cur_cons, hp.step]
        rfl
      · rw [hp.eq, hl] at hn
        cases hn

end Inline

theorem Markup.parseInline_reads :
    Markup.parseInline.ReadsWithin n fun _ ts next content =>
      RestOfLine ts next ∧ content = Markup.ofTokens ts := by
  refine ((loop_reads Inline.parseNext_reads ?_ .empty).result fun s => s.flush.content).congr
    fun prev ts next content => ⟨?_, ?_⟩
  · rintro s s' prev ts next (⟨t, rfl, -⟩ | ⟨-, -, h⟩)
    · exact List.cons_ne_nil _ _
    · cases h
  · rintro ⟨s', hloop, rfl⟩
    have hfold : RestOfLine ts next ∧ s' = ts.foldl Inline.feed .empty := by
      generalize Inline.empty = s at hloop ⊢
      induction hloop with
      | stop h =>
        obtain ⟨_, _, _, h⟩ | ⟨rfl, hn, h⟩ := h
        · cases h
        · cases h
          exact ⟨⟨fun _ h => absurd h List.not_mem_nil, hn⟩, rfl⟩
      | more h _ ih =>
        obtain ⟨t, rfl, ht, h⟩ | ⟨_, _, h⟩ := h
        · cases h
          exact ⟨⟨List.forall_mem_cons.2 ⟨ht, ih.1.inside⟩, ih.1.stop⟩, ih.2⟩
        · cases h
    exact ⟨hfold.1, by rw [hfold.2]; exact Inline.content_flush_foldl ts .empty⟩
  · rintro ⟨⟨hin, hstop⟩, rfl⟩
    refine ⟨ts.foldl Inline.feed .empty, ?_, (Inline.content_flush_foldl ts .empty).symm⟩
    generalize Inline.empty = s
    induction ts generalizing prev s with
    | nil => exact .stop (.inr ⟨rfl, hstop, rfl⟩)
    | cons t ts ih =>
      obtain ⟨ht, hts⟩ := List.forall_mem_cons.1 hin
      have hmore : Loop _ s prev ([t] ++ ts) next _ :=
        .more (.inl ⟨t, rfl, ht, rfl⟩) (ih t hts (s.feed t))
      exact hmore

namespace Attribute

theorem parseName_reads : parseName.ReadsWithin n fun _ => AttributeName := by
  refine (dashedName_reads.bind fun name => touching_advance
    (dashedName_reads.bind fun event => pure_reads (name ++ ":" ++ event))
    (pure_reads name)).congr fun prev ts next name => ?_
  constructor
  · rintro ⟨us, _, name, rfl, hd, ⟨colon, _, rfl, ht, vs, _, event, rfl, he, rfl, rfl⟩ |
      ⟨hn, rfl, rfl⟩⟩
    · rw [getLastD_of_ne_nil hd.startsWord.ne_nil prev colon] at ht
      rw [List.append_nil]
      exact .event hd ht he
    · rw [getLastD_of_ne_nil hd.startsWord.ne_nil prev next] at hn
      rw [List.append_nil]
      exact .plain hd hn
  · intro h
    cases h with
    | plain hd hn =>
      rw [getLastD_of_ne_nil hd.startsWord.ne_nil next prev] at hn
      exact ⟨ts, [], _, (List.append_nil _).symm, hd, .inr ⟨hn, rfl, rfl⟩⟩
    | event hd ht he =>
      rw [getLastD_of_ne_nil hd.startsWord.ne_nil _ prev] at ht
      exact ⟨_, _ :: _, _, rfl, hd, .inl ⟨_, _, rfl, ht, _, [], _, (List.append_nil _).symm, he,
        rfl, rfl⟩⟩

theorem parse_reads : parse.ReadsWithin n fun _ => AttributeRule := by
  refine (parseName_reads.bind fun name => (expectPunct_reads .equal).token_bind (fun _ =>
    Expr.parse_reads.bind fun value => optional_bind (by simp)
      (pure_reads (Attribute.mk name value))) (Nat.le_succ n)).congr fun prev ts next a => ?_
  constructor
  · rintro ⟨us, _, name, rfl, hn, equal, _, _, rfl, he, vs, _, value, rfl, hv, ws, _, rfl, ho, rfl,
      rfl⟩
    rw [List.append_nil] at *
    rw [← List.cons_append, ← List.append_assoc]
    exact .mk hn he hv ho
  · intro h
    cases h with
    | mk hn he hv ho =>
      refine ⟨_, _, _, List.append_assoc .., hn, _, _, (), rfl, he, _, _, _, rfl, hv, _, [],
        (List.append_nil _).symm, ho, rfl, rfl⟩

inductive Turn (attributes : List Attribute) : Token → Rule (List Attribute × Bool)
  | close {prev next} : next.lexeme = .punct .closeParen →
    Turn attributes prev [] next (attributes, false)
  | more {prev ts next a} : AttributeRule ts next a →
    (ts.headD next).lexeme ≠ .punct .closeParen →
    Turn attributes prev ts next (attributes ++ [a], true)

theorem turn_reads (attributes : List Attribute) :
    (parseNext attributes).ReadsWithin n (Turn attributes) := by
  refine (seesPunct_bind fun b => .ite (fun _ => pure_reads (attributes, false)) fun _ =>
    parse_reads.bind fun a => pure_reads (attributes ++ [a], true)).congr fun prev ts next r => ?_
  simp only [beq_iff_eq]
  constructor
  · intro h
    split at h
    · next hclose =>
      obtain ⟨rfl, rfl⟩ := h
      exact .close hclose
    · next hclose =>
      obtain ⟨us, _, a, rfl, ha, rfl, rfl⟩ := h
      rw [List.append_nil] at hclose ⊢
      exact .more ha hclose
  · intro h
    cases h with
    | close hclose =>
      rw [if_pos (by exact hclose)]
      exact ⟨rfl, rfl⟩
    | more ha hclose =>
      rw [if_neg hclose]
      exact ⟨ts, [], _, (List.append_nil _).symm, ha, rfl, rfl⟩

theorem loop_turn_iff {attributes attributes' : List Attribute} {prev next : Token}
    {ts : List Token} (hnext : next.lexeme = .punct .closeParen) :
    Loop Turn attributes prev ts next attributes' ↔
      ∃ as, attributes' = attributes ++ as ∧ AttributeItems ts next as := by
  constructor
  · intro h
    induction h with
    | stop ht =>
      cases ht with
      | close _ => exact ⟨[], (List.append_nil _).symm, .nil⟩
    | more ht _ ih =>
      cases ht with
      | more ha _ =>
        obtain ⟨as, rfl, hs⟩ := ih hnext
        exact ⟨_ :: as, by rw [List.append_assoc]; rfl, .cons ha hs⟩
  · rintro ⟨as, rfl, h⟩
    induction h generalizing attributes prev with
    | nil =>
      rw [List.append_nil]
      exact .stop (.close hnext)
    | cons ha _ ih =>
      have hmore : Loop Turn attributes prev _ _ _ :=
        .more (.more ha (ha.startsWord.lexeme_ne rfl)) (ih hnext)
      rwa [List.append_assoc] at hmore

theorem parseAll_reads :
    parseAll.ReadsWithin n fun _ ts _ as => ∃ o us close, ts = o :: us ++ [close] ∧
      o.lexeme = .punct .openParen ∧ AttributeItems us close as ∧
      close.lexeme = .punct .closeParen := by
  have hloop := loop_reads (n := n) turn_reads
    (fun h => by cases h with | more ha _ => exact ha.startsWord.ne_nil) []
  refine ((expectPunct_reads .openParen).token_bind (fun _ => hloop.bind fun as =>
    (expectPunct_reads .closeParen).token_bind (fun _ => pure_reads as) (Nat.le_succ n))
    (Nat.le_succ n)).congr fun prev ts next as => ?_
  constructor
  · rintro ⟨o, _, _, rfl, ho, us, _, as, rfl, hl, close, _, _, rfl, hc, rfl, rfl⟩
    obtain ⟨_, rfl, hi⟩ := (loop_turn_iff hc).1 hl
    exact ⟨o, us, close, rfl, ho, hi, hc⟩
  · rintro ⟨o, us, close, rfl, ho, hi, hc⟩
    exact ⟨o, _, (), rfl, ho, us, [close], as, rfl, (loop_turn_iff hc).2 ⟨as, rfl, hi⟩, close, [],
      (), rfl, hc, rfl, rfl⟩

theorem attributeList_bind {f : List Attribute → Parser β}
    {second : List Attribute → Token → Rule β} (hf : ∀ as, (f as).ReadsWithin n (second as)) :
    (do
      let as ← if (← seesPunct .openParen) && (← adjacent) then parseAll else pure []
      f as : Parser β).ReadsWithin n (Then AttributeList second) := by
  refine (touching_bind (parseAll_reads.bind hf) ((pure_reads []).bind hf)).congr
    fun prev ts next b => ?_
  constructor
  · rintro (⟨ht, _, vs, as, rfl, ⟨o, us, close, rfl, -, hi, hc⟩, hs⟩ | ⟨hn, _, vs, _, rfl,
      ⟨rfl, rfl⟩, hs⟩)
    · exact ⟨_, vs, as, rfl, .some ht hi hc, hs⟩
    · exact ⟨[], vs, [], rfl, .none hn, hs⟩
  · rintro ⟨us, vs, as, rfl, ha, hs⟩
    cases ha with
    | none hn => exact .inr ⟨hn, [], vs, [], rfl, ⟨rfl, rfl⟩, hs⟩
    | some ht hi hc => exact .inl ⟨ht, _, vs, as, rfl, ⟨_, _, _, rfl, ht.1, hi, hc⟩, hs⟩

end Attribute

namespace ElementOf

inductive ClassTurn (classes : List String) : Token → Rule (List String × Bool)
  | stop {prev next} : ¬Touches .dot prev next → ClassTurn classes prev [] next (classes, false)
  | more {prev dot us next name} : Touches .dot prev dot → DashedName us next name →
    ClassTurn classes prev (dot :: us) next (classes ++ [name], true)

theorem classTurn_reads (classes : List String) :
    (nextClass classes).ReadsWithin n (ClassTurn classes) := by
  refine (touching_advance (dashedName_reads.bind fun name => pure_reads (classes ++ [name], true))
    (pure_reads (classes, false))).congr fun prev ts next r => ?_
  constructor
  · rintro (⟨dot, _, rfl, ht, us, _, name, rfl, hd, rfl, rfl⟩ | ⟨hn, rfl, rfl⟩)
    · rw [List.append_nil]
      exact .more ht hd
    · exact .stop hn
  · intro h
    cases h with
    | stop hn => exact .inr ⟨hn, rfl, rfl⟩
    | more ht hd => exact .inl ⟨_, _, rfl, ht, _, [], _, (List.append_nil _).symm, hd, rfl, rfl⟩

theorem loop_classTurn_iff {classes classes' : List String} {prev next : Token}
    {ts : List Token} :
    Loop ClassTurn classes prev ts next classes' ↔
      ∃ names, classes' = classes ++ names ∧ ClassList prev ts next names := by
  constructor
  · intro h
    induction h with
    | stop ht =>
      cases ht with
      | stop hn => exact ⟨[], (List.append_nil _).symm, .nil hn⟩
    | more ht _ ih =>
      cases ht with
      | more ht hd =>
        obtain ⟨names, rfl, hs⟩ := ih
        rw [List.getLastD_cons] at hs
        exact ⟨_ :: names, by rw [List.append_assoc]; rfl, .cons ht hd hs⟩
  · rintro ⟨names, rfl, h⟩
    induction h generalizing classes with
    | nil hn =>
      rw [List.append_nil]
      exact .stop (.stop hn)
    | @cons prev dot us vs next name names ht hd _ ih =>
      have hrest := @ih (classes ++ [name])
      rw [← List.getLastD_cons, List.append_assoc] at hrest
      exact .more (.more ht hd) hrest

theorem parseClasses_reads : parseClasses.ReadsWithin n ClassList := by
  refine (loop_reads (n := n) classTurn_reads
    (fun h => by cases h; exact List.cons_ne_nil _ _) []).congr fun prev ts next names => ?_
  rw [loop_classTurn_iff]
  simp

inductive Content (element : Rule Element) (start : Span) (prev : Token) :
    Rule (List Markup × List Element × Span)
  | mk {ws xs next children} : RestOfLine ws (xs.headD next) →
    Block (Appends element) [] xs next children →
    Content element start prev (ws ++ xs) next
      (Markup.ofTokens ws, children, start.join (ws.getLastD prev).span)

theorem content_reads {element : Parser Element} {E : Rule Element}
    (hE : element.ReadsWithin n fun _ => E) (hne : ∀ {ts next e}, E ts next e → ts ≠ [])
    (start : Span) (make : List Markup → List Element → Span → β) :
    (do
      let content ← Markup.parseInline
      let span := start.join (← prevSpan)
      let children ← indented element
      return make content children span : Parser β).ReadsWithin n fun prev ts next b =>
        ∃ content children span, Content E start prev ts next (content, children, span) ∧
          b = make content children span := by
  refine (Markup.parseInline_reads.bind fun content => prevSpan_bind fun last =>
    (indented_reads hne hE).bind fun children =>
      pure_reads (make content children (start.join last))).congr fun prev ts next b => ?_
  constructor
  · rintro ⟨ws, _, _, rfl, ⟨hr, rfl⟩, xs, _, children, rfl, hb, rfl, rfl⟩
    rw [List.append_nil] at *
    exact ⟨_, _, _, .mk hr hb, rfl⟩
  · rintro ⟨content, children, span, h, rfl⟩
    cases h with
    | mk hr hb => exact ⟨_, _, _, rfl, ⟨hr, rfl⟩, _, [], _, (List.append_nil _).symm, hb, rfl, rfl⟩

theorem parseWith_reads {element : Parser Element} {E : Rule Element}
    (hE : element.ReadsWithin n fun _ => E) (hne : ∀ {ts next e}, E ts next e → ts ≠ []) :
    (parseWith element).ReadsWithin (n + 1) fun _ => ElementLevel E := by
  have hrest (start : Span) (tag : String) (classes : List String) (attributes : List Attribute) :=
    content_reads hE hne start fun content children span => (⟨tag, " ".intercalate classes,
      attributes, content ++ children.map .element, span⟩ : Element)
  refine (here_bind fun start => expectIdentifier_reads.token_bind (fun tag =>
    parseClasses_reads.bind fun classes => Attribute.attributeList_bind fun attributes =>
      hrest start tag classes attributes) (Nat.le_refl _)).congr fun prev ts next e => ?_
  constructor
  · rintro ⟨t, _, tag, rfl, ht, us, _, names, rfl, hc, vs, _, as, rfl, ha, _, children, _, h, rfl⟩
    cases h with
    | @mk ws xs _ _ hr hb =>
      rw [← List.append_assoc] at hc
      have he := ElementLevel.mk ht hc ha hr hb
      simp only [getLastD_append, List.cons_append, List.append_assoc] at he ⊢
      exact he
  · intro h
    cases h with
    | @mk t tag us vs ws xs _ names attributes children ht hc ha hr hb =>
      rw [List.append_assoc] at hc
      refine ⟨t, us ++ (vs ++ (ws ++ xs)), tag, by simp only [List.cons_append, List.append_assoc],
        ht, us, _, names, rfl, hc, vs, _, attributes, rfl, ha, _, children, _, .mk hr hb, ?_⟩
      simp only [getLastD_append, List.cons_append, List.headD_cons]

theorem parseWithin_reads (n : Nat) : (parseWithin n).ReadsWithin n fun _ => ElementRule := by
  induction n with
  | zero => exact fun _ _ _ _ hl => absurd hl (Nat.not_lt_zero _)
  | succ n ih =>
    exact (parseWith_reads ih ElementRule.ne_nil).congr fun _ _ _ _ => elementRule_iff_level.symm

theorem parse_reads : parse.ReadsWithin n fun _ => ElementRule :=
  bounded_reads parseWithin_reads

end ElementOf

theorem RenderBlock.parse_reads : RenderBlock.parse.ReadsWithin n fun _ => RenderRule := by
  refine (keywordBlock_reads .render ElementRule.ne_nil ElementOf.parse_reads RenderBlock.mk).congr
    fun prev ts next r => ⟨?_, fun h => ?_⟩
  · rintro ⟨t, us, vs, items, span, rfl, ht, hb, hc, rfl⟩
    exact .mk ht hb hc
  · cases h with
    | mk ht hb hc => exact ⟨_, _, _, _, _, rfl, ht, hb, hc, rfl⟩

theorem StyleDeclarationRule.ne_nil {ts : List Token} {next : Token} {d : StyleDeclaration}
    (h : StyleDeclarationRule ts next d) : ts ≠ [] := by
  cases h with
  | mk _ _ _ _ => simp

theorem StyleDeclaration.parse_reads :
    StyleDeclaration.parse.ReadsWithin n fun _ => StyleDeclarationRule := by
  refine (dashedName_reads.bind fun property => (expectPunct_reads .colon).token_bind (fun _ =>
    Expr.parse_reads.bind fun value => expectNewline_reads.bind fun _ =>
      pure_reads (StyleDeclaration.mk property value)) (Nat.le_succ n)).congr
      fun prev ts next d => ?_
  constructor
  · rintro ⟨us, _, property, rfl, hd, colon, _, _, rfl, hc, vs, _, value, rfl, hv, le, _, _, rfl,
      hle, rfl, rfl⟩
    rw [List.append_nil] at *
    rw [← List.cons_append, ← List.append_assoc]
    exact .mk hd hc hv hle
  · intro h
    cases h with
    | mk hd hc hv hle =>
      exact ⟨_, _, _, List.append_assoc .., hd, _, _, (), rfl, hc, _, _, _, rfl, hv, _, [], (),
        (List.append_nil _).symm, hle, rfl, rfl⟩

theorem StyleRuleRule.ne_nil {ts : List Token} {next : Token} {r : StyleRule}
    (h : StyleRuleRule ts next r) : ts ≠ [] := by
  cases h with
  | mk _ hd _ => simp [hd.startsWord.ne_nil]

theorem StyleRule.parse_reads : StyleRule.parse.ReadsWithin n fun _ => StyleRuleRule := by
  have hrule := dashedName_reads.bind fun selector =>
    (indented_reads StyleDeclarationRule.ne_nil StyleDeclaration.parse_reads).bind
      fun declarations => pure_reads (n := n) (StyleRule.mk selector declarations)
  refine (optional_bind (by simp) hrule).congr fun prev ts next r => ?_
  constructor
  · rintro ⟨dot, _, rfl, ho, us, _, selector, rfl, hd, vs, _, declarations, rfl, hb, rfl, rfl⟩
    rw [List.append_nil] at *
    rw [← List.append_assoc]
    exact .mk ho hd hb
  · intro h
    cases h with
    | mk ho hd hb =>
      exact ⟨_, _, List.append_assoc .., ho, _, _, _, rfl, hd, _, [], _, (List.append_nil _).symm,
        hb, rfl, rfl⟩

theorem StyleBlock.parse_reads : StyleBlock.parse.ReadsWithin n fun _ => StyleBlockRule := by
  refine (keywordBlock_reads .style StyleRuleRule.ne_nil StyleRule.parse_reads StyleBlock.mk).congr
    fun prev ts next r => ⟨?_, fun h => ?_⟩
  · rintro ⟨t, us, vs, items, span, rfl, ht, hb, hc, rfl⟩
    exact .mk ht hb hc
  · cases h with
    | mk ht hb hc => exact ⟨_, _, _, _, _, rfl, ht, hb, hc, rfl⟩

end Reading

end LayoutScript

import LayoutScript.Proofs.Pairing
import LayoutScript.Syntax.Program

/-! Every parser comes to the same from cursors that a pairing relates. Each parser is followed by
the lemma that says so. -/
namespace LayoutScript

open LayoutScript.Parser

open LayoutScript.Pairing (plain loop_pairs)

variable {P : Pairing} {n : Nat}

/-! ### Expressions -/

namespace Expr

variable {f : Span → Span} {e object : Expr} {name : String} {properties : List String}
  {args : List Expr} {s : Span}

theorem eq_instanceVar_of_mapSpan (h : e.mapSpan f = .instanceVar name s) :
    ∃ s', e = .instanceVar name s' := by
  cases e <;> simp only [mapSpan, reduceCtorEq, instanceVar.injEq] at h
  exact ⟨_, by rw [h.1]⟩

theorem eq_instanceVarAccess_of_mapSpan (h : e.mapSpan f = .instanceVarAccess name properties s) :
    ∃ s', e = .instanceVarAccess name properties s' ∧ f s' = s := by
  cases e <;> simp only [mapSpan, reduceCtorEq, instanceVarAccess.injEq] at h
  exact ⟨_, by rw [h.1, h.2.1], h.2.2⟩

theorem eq_propertyAccess_of_mapSpan (h : e.mapSpan f = .propertyAccess object properties s) :
    ∃ object' s', e = .propertyAccess object' properties s' ∧ object'.mapSpan f = object ∧
      f s' = s := by
  cases e <;> simp only [mapSpan, reduceCtorEq, propertyAccess.injEq] at h
  exact ⟨_, _, by rw [h.2.1], h.1, h.2.2⟩

theorem eq_methodCall_of_mapSpan (h : e.mapSpan f = .methodCall object name args s) :
    ∃ object' args' s', e = .methodCall object' name args' s' := by
  cases e <;> simp only [mapSpan, reduceCtorEq, methodCall.injEq] at h
  exact ⟨_, _, _, by rw [h.2.1]⟩

theorem eq_instanceMethodCall_of_mapSpan (h : e.mapSpan f = .instanceMethodCall name args s) :
    ∃ args' s', e = .instanceMethodCall name args' s' := by
  cases e <;> simp only [mapSpan, reduceCtorEq, instanceMethodCall.injEq] at h
  exact ⟨_, _, by rw [h.1]⟩

variable {expression expression' : Parser Expr} {base base' left left' : Expr} {start start' : Span}

theorem span_pairs (h : left.mapSpan P.left = left'.mapSpan P.right) :
    P.left left.span = P.right left'.span := by
  rw [← span_mapSpan P.left, h, span_mapSpan]

theorem withProperties_pairs (hstart : P.left start = P.right start')
    (hbase : base.mapSpan P.left = base'.mapSpan P.right) (properties : List String) :
    P.Words n 0 mapSpan (base.withProperties start properties)
      (base'.withProperties start' properties) := by
  cases properties with
  | nil => exact .pure hbase
  | cons name properties =>
    refine .prevSpan_bind fun last last' hlast => ?_
    have hspan := P.join hstart hlast
    split
    · rw [mapSpan] at hbase
      obtain ⟨s', rfl⟩ := eq_instanceVar_of_mapSpan hbase.symm
      exact .pure (by simp only [mapSpan, hspan])
    · next hne =>
      split
      · rw [mapSpan] at hbase
        obtain ⟨s', rfl⟩ := eq_instanceVar_of_mapSpan hbase
        exact absurd rfl (hne _ s')
      · exact .pure (by simp only [mapSpan, hbase, hspan])

theorem arguments_pairs (h : P.Words n 1 mapSpan expression expression') :
    P.Words n 1 (fun f => List.map (mapSpan f)) (arguments expression) (arguments expression') :=
  (expectPunct_pairs _).andThen fun _ =>
    ((commaSeparated_pairs h _).le (by omega)).least fun _ => by omega

def mapChain (f : Span → Span) : Expr × List String → Expr × List String := Prod.map (mapSpan f) id

theorem nextAccess_pairs (h : P.Words n 1 mapSpan expression expression')
    (hstart : P.left start = P.right start') (s s' : Expr × List String)
    (hs : mapChain P.left s = mapChain P.right s') :
    P.Turns n .aligned .aligned mapChain (nextAccess expression start s)
      (nextAccess expression' start' s') := by
  obtain ⟨base, properties⟩ := s
  obtain ⟨base', properties'⟩ := s'
  obtain ⟨hbase, rfl⟩ : base.mapSpan P.left = base'.mapSpan P.right ∧ properties = properties' :=
    Prod.mk.inj hs
  refine .accept_bind (by simp) ?_ (.done hs rfl)
  refine expectName_pairs.andThen fun name => .sees_bind fun _ => .ite ?_
    (.again (Prod.ext hbase rfl) rfl)
  refine (withProperties_pairs hstart hbase properties).bind fun object object' hobject =>
    ((arguments_pairs h).le (by omega)).bind fun args args' hargs =>
      .prevSpan_bind fun last last' hlast => ?_
  have hcall : (methodCall object name args (start.join last)).mapSpan P.left =
      (methodCall object' name args' (start'.join last')).mapSpan P.right := by
    simp only [mapSpan, mapSpanAll_eq_map, hobject, hargs, P.join hstart hlast]
  exact .again (Prod.ext hcall rfl) rfl

theorem accessChain_pairs (h : P.Words n 1 mapSpan expression expression')
    (hbase : base.mapSpan P.left = base'.mapSpan P.right) :
    P.Words n 0 mapSpan (accessChain expression base) (accessChain expression' base') := by
  have hinit : mapChain P.left (base, []) = mapChain P.right (base', []) := Prod.ext hbase rfl
  refine (loop_pairs (nextAccess_pairs h (span_pairs hbase)) hinit).bind fun s s' hs => ?_
  obtain ⟨object, properties⟩ := s
  obtain ⟨object', properties'⟩ := s'
  obtain ⟨hobject, rfl⟩ : object.mapSpan P.left = object'.mapSpan P.right ∧
      properties = properties' := Prod.mk.inj hs
  exact withProperties_pairs (span_pairs hbase) hobject properties

theorem newInstance_pairs (h : P.Words n 1 mapSpan expression expression') :
    P.Words (n + 1) 1 mapSpan (newInstance expression) (newInstance expression') := by
  refine .here_bind fun start start' hstart => (expectKeyword_pairs _).andThen fun _ =>
    expectIdentifier_pairs.andThen fun name => .sees_bind fun _ => ?_
  have hend (m : Nat) (args args' : List Expr)
      (hargs : args.map (mapSpan P.left) = args'.map (mapSpan P.right)) :
      P.Words m 0 mapSpan (do return .construct name args (start.join (← prevSpan)))
        (do return .construct name args' (start'.join (← prevSpan))) :=
    .prevSpan_bind fun _ _ hlast => .pure (by
      simp only [mapSpan, mapSpanAll_eq_map, hargs, P.join hstart hlast])
  exact .ite (((arguments_pairs h).le (by omega)).bind (hend _)) (hend _ [] [] rfl)

theorem headTail_pairs (h : P.Words n 1 mapSpan expression expression') {m : Nat} {c c' : Cursor}
    (hm : m ≤ n + 1) (hc : Cursor.Aligned P.Alike m c c') (hl : c.cur.lexeme.InLine)
    {make make' : List Expr → Span → Expr} (hstart : P.left start = P.right start')
    (hmake : ∀ args args' s s', args.map (mapSpan P.left) = args'.map (mapSpan P.right) →
      P.left s = P.right s' → (make args s).mapSpan P.left = (make' args' s').mapSpan P.right)
    (hbase : base.mapSpan P.left = base'.mapSpan P.right) :
    P.At m c c' (fun _ => .aligned) (fun _ => 1) mapSpan
      (do
        advance
        if ← seesPunct .openParen then
          let args ← arguments expression
          accessChain expression (make args (start.join (← prevSpan)))
        else accessChain expression base)
      (do
        advance
        if ← seesPunct .openParen then
          let args ← arguments expression'
          accessChain expression' (make' args (start'.join (← prevSpan)))
        else accessChain expression' base') := by
  refine .advance_bind hc hm hl (.sees_bind fun _ => .ite ?_ (accessChain_pairs h hbase))
  exact (arguments_pairs h).bind fun args args' hargs => .prevSpan_bind fun _ _ hlast =>
    (accessChain_pairs h (hmake _ _ _ _ hargs (P.join hstart hlast))).le (by omega)

theorem operand_pairs (h : P.Words n 1 mapSpan expression expression') :
    P.Words (n + 1) 1 mapSpan (operand expression) (operand expression') := by
  refine .current_bind fun m c c' hm hc => ?_
  have hspan := P.cur hc.1
  have hatom {e e' : Expr} (hl : c.cur.lexeme.InLine) (he : e.mapSpan P.left = e'.mapSpan P.right) :
      P.At m c c' (fun _ => .aligned) (fun _ => 1) mapSpan (do advance; return e)
        (do advance; return e') :=
    .advance_bind hc hm hl (.pure he)
  rw [← hc.lexeme]
  split
  · next hl => exact hatom (by simp [hl]) (by simp only [mapSpan, hspan])
  · next hl => exact hatom (by simp [hl]) (by simp only [mapSpan, hspan])
  · next hl => exact hatom (by simp [hl]) (by simp only [mapSpan, hspan])
  · next hl =>
    exact headTail_pairs h hm hc (by simp [hl]) hspan (fun _ _ _ _ hargs hs => by
      simp only [mapSpan, mapSpanAll_eq_map, hargs, hs]) (by simp only [mapSpan, hspan])
  · next hl =>
    exact headTail_pairs h hm hc (by simp [hl]) hspan (fun _ _ _ _ hargs hs => by
      simp only [mapSpan, mapSpanAll_eq_map, hargs, hs]) (by simp only [mapSpan, hspan])
  · next hl => exact hatom (by simp [hl]) (by simp only [mapSpan, hspan])
  · next hl => exact hatom (by simp [hl]) (by simp only [mapSpan, hspan])
  · next hl => exact hatom (by simp [hl]) (by simp only [mapSpan, hspan])
  · exact newInstance_pairs h hm hc
  · next hl =>
    refine .advance_bind hc hm (by simp [hl]) (h.bind fun e e' he =>
      (expectPunct_pairs _).andThen fun _ => .pure ?_)
    rw [← grouped_mapSpan, ← grouped_mapSpan, he]
  · next hl =>
    have hinLine : c.cur.lexeme.InLine := by simp [hl]
    refine .look_bind Cursor.peek run_peek ?_
    rw [← Pairing.peek_lexeme hc hinLine]
    cases hs : c.peek.lexeme.isSolid with
    | true =>
      rw [← Pairing.peek_follows hc hinLine hs]
      split
      · next raw hraw _ =>
        refine .advance_twice_bind hc hm hinLine (by simp [hraw]) (.pure ?_)
        simp only [mapSpan, P.join hspan (Pairing.peek_span hc hinLine)]
      · exact .fail hc rfl
    | false =>
      -- What does not touch anything is no number.
      split
      · next raw hraw _ =>
        rw [hraw] at hs
        cases hs
      · split
        · next raw hraw _ =>
          rw [hraw] at hs
          cases hs
        · exact .fail hc rfl
  · exact .fail hc rfl

theorem binaryRest_pairs (h : P.Words n 1 mapSpan expression expression')
    (hleft : left.mapSpan P.left = left'.mapSpan P.right) :
    P.Words n 0 mapSpan (binaryRest expression left) (binaryRest expression' left') := by
  refine .current_bind fun m c c' hm hc => ?_
  rw [← hc.lexeme]
  split
  · next p hp =>
    split
    · refine .advance_bind hc hm (by simp [hp])
        ((h.le (by omega)).bind fun right right' hright => .pure ?_)
      simp only [mapSpan, hleft, hright, P.join (span_pairs hleft) (span_pairs hright)]
    · exact .pure hc hleft rfl
  · exact .pure hc hleft rfl

theorem nesting :
    P.Nesting .aligned mapSpan (fun q (_ : Unit) => parseWith (q ())) fun m _ => parseWithin m where
  succ _ := rfl
  pairs h _ := (operand_pairs (h ())).bind fun _ _ hleft => binaryRest_pairs (h ()) hleft

theorem parse_pairs : P.Words n 1 mapSpan parse parse := nesting.bounded_pairs n ()

theorem parseOperand_pairs : P.Words n 1 mapSpan parseOperand parseOperand :=
  (operand_pairs parse_pairs).le (Nat.le_succ n)

theorem parseRest_pairs (hleft : left.mapSpan P.left = left'.mapSpan P.right) :
    P.Words n 0 mapSpan (parseRest left) (parseRest left') :=
  binaryRest_pairs parse_pairs hleft

end Expr

/-! ### Markup -/

namespace Inline

/-- What a line has given so far. The span counts only while a text grows. -/
def shape (f : Span → Span) (s : Inline) : List Markup × List String × Option Span :=
  (s.content.map (Markup.mapSpan f), s.words, if s.words.isEmpty then none else some (f s.span))

variable {s s' : Inline} (h : s.shape P.left = s'.shape P.right)

include h

theorem shape_content :
    s.content.map (Markup.mapSpan P.left) = s'.content.map (Markup.mapSpan P.right) :=
  (Prod.mk.inj h).1

theorem shape_words : s.words = s'.words := (Prod.mk.inj (Prod.mk.inj h).2).1

theorem shape_span (hw : s.words.isEmpty = false) : P.left s.span = P.right s'.span := by
  have hspan := (Prod.mk.inj (Prod.mk.inj h).2).2
  rw [← shape_words h, hw] at hspan
  exact Option.some.inj hspan

theorem content_flush_pairs :
    s.flush.content.map (Markup.mapSpan P.left) =
      s'.flush.content.map (Markup.mapSpan P.right) := by
  rw [flush, flush, ← shape_words h]
  cases hw : s.words.isEmpty with
  | true => exact shape_content h
  | false =>
    refine map_append_eq (shape_content h) ?_
    rw [Markup.mapSpan, Markup.mapSpan, shape_span h hw]

theorem shape_addWord {t t' : Token} (hl : t.lexeme = t'.lexeme)
    (hs : P.left t.span = P.right t'.span) :
    (s.addWord t).shape P.left = (s'.addWord t').shape P.right := by
  have hspan : P.left (s.addWord t).span = P.right (s'.addWord t').span := by
    rw [addWord, addWord, ← shape_words h]
    cases hw : s.words.isEmpty with
    | true => exact hs
    | false => exact P.join (shape_span h hw) hs
  have hwords : (s.addWord t).words = (s'.addWord t').words := by
    rw [addWord, addWord, shape_words h, Token.text, Token.text, hl]
  have hcontent := shape_content h
  rw [shape, shape, hspan, hwords]
  exact Prod.ext hcontent rfl

theorem shape_addInterpolation (raw : String) {span span' : Span}
    (hs : P.left span = P.right span') :
    (s.addInterpolation raw span).shape P.left = (s'.addInterpolation raw span').shape P.right := by
  have hcontent : (s.addInterpolation raw span).content.map (Markup.mapSpan P.left) =
      (s'.addInterpolation raw span').content.map (Markup.mapSpan P.right) := by
    refine map_append_eq (content_flush_pairs h) ?_
    rw [Markup.mapSpan, Markup.mapSpan, hs]
  have hempty (s : Inline) : s.flush.words = [] := by
    rw [flush]
    split
    · next hw => exact List.isEmpty_iff.1 hw
    · rfl
  rw [shape, shape, hcontent]
  simp only [addInterpolation, hempty, List.isEmpty_nil, if_true]

theorem parseNext_pairs : P.Turns n .aligned .aligned shape (parseNext s) (parseNext s') := by
  refine .current_bind fun m c c' hm hc => ?_
  rw [← hc.lexeme]
  split
  · exact Pairing.Pairs.done h rfl hm hc
  · exact Pairing.Pairs.done h rfl hm hc
  · next raw hl =>
    exact .advance_bind hc hm (by simp [hl])
      (.again (shape_addInterpolation h raw (P.cur hc.1)) rfl)
  · next hn he _ =>
    exact .advance_bind hc hm ⟨hn, he⟩ (.again (shape_addWord h hc.lexeme (P.cur hc.1)) rfl)

end Inline

theorem Markup.parseInline_pairs :
    P.Words n 0 (fun f => List.map (mapSpan f)) parseInline parseInline :=
  (loop_pairs (g := Inline.shape) (fun _ _ => Inline.parseNext_pairs) rfl).bind
    fun _ _ h => .pure (Inline.content_flush_pairs h)

namespace Attribute

theorem parseName_pairs : P.Words n 1 plain parseName parseName :=
  dashedName_pairs.andThen fun _ => .touching_advance
    (dashedName_pairs.andThen fun _ => .pure rfl) (.pure rfl)

theorem parse_pairs : P.Words n 1 mapSpan parse parse := by
  refine parseName_pairs.andThen fun name => (expectPunct_pairs _).andThen fun _ =>
    Expr.parse_pairs.bind fun value value' hvalue => ?_
  have hattribute := congrArg (Attribute.mk name) hvalue
  exact .accept_bind (by simp) (.pure hattribute) (.pure hattribute)

theorem parseNext_pairs (attributes attributes' : List Attribute)
    (h : attributes.map (mapSpan P.left) = attributes'.map (mapSpan P.right)) :
    P.Turns n .aligned .aligned (fun f => List.map (mapSpan f)) (parseNext attributes)
      (parseNext attributes') :=
  .sees_bind fun _ => .ite (.done h rfl)
    (parse_pairs.bind fun _ _ ha => .again (map_append_eq h ha) rfl)

theorem parseAll_pairs : P.Words n 1 (fun f => List.map (mapSpan f)) parseAll parseAll :=
  (expectPunct_pairs _).andThen fun _ =>
    (loop_pairs (g := fun f => List.map (mapSpan f)) parseNext_pairs rfl).bind fun _ _ h =>
      (expectPunct_pairs _).andThen fun _ => .pure h

end Attribute

namespace ElementOf

theorem nextClass_pairs (classes classes' : List String) (h : classes = classes') :
    P.Turns n .aligned .aligned plain (nextClass classes) (nextClass classes') := by
  subst h
  exact .touching_advance (dashedName_pairs.andThen fun _ => .again rfl rfl) (.done rfl rfl)

theorem mapSpan_elements (f : Span → Span) (es : List Element) :
    (es.map Markup.element).map (Markup.mapSpan f) = (es.map (mapSpan f)).map .element := by
  rw [List.map_map, List.map_map]
  exact List.map_congr_left fun e _ => Markup.mapSpan_element f e

theorem parseWith_pairs {element element' : Parser Element}
    (h : P.Lines n 1 mapSpan element element') :
    P.Lines (n + 1) 1 mapSpan (parseWith element) (parseWith element') := by
  refine .here_bind fun start start' hstart => expectIdentifier_pairs.andThen fun tag =>
    (loop_pairs (g := plain) nextClass_pairs rfl).andThen fun classes => ?_
  have hrest (attributes attributes' : List Attribute)
      (ha : attributes.map (Attribute.mapSpan P.left) =
        attributes'.map (Attribute.mapSpan P.right)) :
      P.Lines n 0 mapSpan
        (do
          let content ← Markup.parseInline
          let last ← prevSpan
          let children ← indented element
          return ⟨tag, " ".intercalate classes, attributes, content ++ children.map .element,
            start.join last⟩)
        (do
          let content ← Markup.parseInline
          let last ← prevSpan
          let children ← indented element'
          return ⟨tag, " ".intercalate classes, attributes', content ++ children.map .element,
            start'.join last⟩) := by
    refine .to_alike (Markup.parseInline_pairs.bind fun content content' hcontent =>
      .prevSpan_bind fun last last' hlast => (indented_pairs h).bind
        fun children children' hchildren => .pure ?_)
    simp only [mapSpan, ha, List.map_append, hcontent, mapSpan_elements, hchildren,
      P.join hstart hlast]
  refine .touching (fun m c c' hm hc _ => ?_) (hrest [] [] rfl)
  exact (Attribute.parseAll_pairs.bind fun attributes attributes' ha =>
    (hrest _ _ ha).le (by omega)) hm hc

theorem nesting :
    P.Nesting .alike mapSpan (fun q (_ : Unit) => parseWith (q ())) fun m _ => parseWithin m where
  succ _ := rfl
  pairs h _ := parseWith_pairs (h ())

theorem parse_pairs : P.Lines n 1 mapSpan parse parse := nesting.bounded_pairs n ()

end ElementOf

theorem RenderBlock.parse_pairs : P.Lines n 1 mapSpan parse parse :=
  .here_bind fun _ _ hstart => (expectKeyword_pairs _).andThen fun _ =>
    (indented_pairs ElementOf.parse_pairs).bind fun _ _ helements =>
      (closeBlock_pairs hstart).bind fun _ _ hspan => .pure ((mk.injEq ..).mpr ⟨helements, hspan⟩)

theorem StyleDeclaration.parse_pairs : P.Lines n 1 mapSpan parse parse :=
  dashedName_pairs.andThen fun property => (expectPunct_pairs _).andThen fun _ =>
    Expr.parse_pairs.bind fun _ _ hvalue => expectNewline_pairs.andThen fun _ =>
      .pure (congrArg (StyleDeclaration.mk property) hvalue)

theorem StyleRule.parse_pairs : P.Lines n 1 mapSpan parse parse := by
  have hrest (m : Nat) : P.Lines m 1 mapSpan
      (do
        let selector ← dashedName
        return (⟨selector, ← indented StyleDeclaration.parse⟩ : StyleRule))
      (do
        let selector ← dashedName
        return (⟨selector, ← indented StyleDeclaration.parse⟩ : StyleRule)) :=
    .to_alike (dashedName_pairs.andThen fun selector =>
      (indented_pairs StyleDeclaration.parse_pairs).bind fun _ _ h =>
        .pure (congrArg (StyleRule.mk selector) h))
  exact .accept_bind (by simp) ((hrest (n - 1)).least fun _ => by omega) (hrest n)

theorem StyleBlock.parse_pairs : P.Lines n 1 mapSpan parse parse :=
  .here_bind fun _ _ hstart => (expectKeyword_pairs _).andThen fun _ =>
    (indented_pairs StyleRule.parse_pairs).bind fun _ _ hrules =>
      (closeBlock_pairs hstart).bind fun _ _ hspan => .pure ((mk.injEq ..).mpr ⟨hrules, hspan⟩)

/-! ### Declarations -/

theorem Entry.parse_pairs : P.Lines n 1 mapSpan parse parse := by
  refine .here_bind fun start start' hstart => expectIdentifier_pairs.andThen fun name =>
    (expectPunct_pairs _).andThen fun _ => expectIdentifier_pairs.andThen fun type => ?_
  have hend (m : Nat) (value value' : Option Expr)
      (hvalue : value.map (Expr.mapSpan P.left) = value'.map (Expr.mapSpan P.right)) :
      P.Lines m 0 mapSpan
        (do
          let last ← prevSpan
          expectNewline
          pure ⟨name, type, value, start.join last⟩)
        (do
          let last ← prevSpan
          expectNewline
          pure ⟨name, type, value', start'.join last⟩) :=
    .prevSpan_bind fun _ _ hlast => expectNewline_pairs.andThen fun _ =>
      .pure ((mk.injEq ..).mpr ⟨rfl, rfl, hvalue, P.join hstart hlast⟩)
  refine .accept_bind (by simp) ?_ (hend _ none none rfl)
  have hsome (m : Nat) : P.Words m 0 (fun f => Option.map (Expr.mapSpan f)) (some <$> Expr.parse)
      (some <$> Expr.parse) :=
    Expr.parse_pairs.map (fun _ _ he => congrArg some he) fun _ => rfl
  exact (hsome _).bind (hend _)

theorem Entry.parseBlock_pairs (w : Keyword) :
    P.Lines n 1 (fun f => List.map (mapSpan f)) (parseBlock w) (parseBlock w) :=
  .here_bind fun _ _ hstart => (expectKeyword_pairs w).andThen fun _ =>
    (indented_pairs Entry.parse_pairs).bind fun _ _ hentries =>
      (closeBlock_pairs hstart).bind fun _ _ _ => .pure hentries

section Declarations

variable {statement statement' : Place → Parser Stmt}

namespace FunctionOf

theorem parseName_pairs : P.Words n 1 plain parseName parseName := by
  refine .current_bind fun m c c' hm hc => ?_
  rw [← hc.lexeme]
  split
  · next hl => exact .advance_bind hc hm (by simp [hl]) (.pure rfl)
  · next hl => exact .advance_bind hc hm (by simp [hl]) (.pure rfl)
  · exact expectIdentifier_pairs hm hc

theorem parseType?_pairs : P.Words n 0 plain parseType? parseType? :=
  .accept_bind (by simp) (expectIdentifier_pairs.andThen fun _ => .pure rfl) (.pure rfl)

theorem parseParam_pairs : P.Words n 1 plain parseParam parseParam :=
  expectIdentifier_pairs.andThen fun _ => parseType?_pairs.andThen fun _ => .pure rfl

theorem parseParams_pairs : P.Words n 0 plain parseParams parseParams := by
  have hparams (m : Nat) : P.Words m 1 (fun _ => List.map fun p => p)
      (commaSeparated .closeParen parseParam) (commaSeparated .closeParen parseParam) :=
    commaSeparated_pairs parseParam_pairs _
  simp only [List.map_id_fun'] at hparams
  exact .accept_bind (by simp) ((hparams _).least fun _ => by omega) (.pure rfl)

theorem giveCall_mapSpan {f : Span → Span} (body : List Stmt) :
    giveCall (body.map (Stmt.mapSpan f)) = (giveCall body).map (Stmt.mapSpan f) := by
  match body with
  | [] => rfl
  | [s] =>
    cases s with
    | expr e => cases e <;> simp [giveCall, Stmt.mapSpan, Expr.mapSpan]
    | _ => simp [giveCall, Stmt.mapSpan]
  | s :: s' :: rest => simp [giveCall]

theorem parseWith_pairs
    (h : ∀ place, P.Lines n 1 Stmt.mapSpan (statement place) (statement' place)) :
    P.Lines (n + 1) 1 mapSpan (parseWith statement) (parseWith statement') := by
  refine .here_bind fun _ _ hstart => (expectKeyword_pairs _).andThen fun _ =>
    parseName_pairs.andThen fun name => parseParams_pairs.andThen fun params =>
      parseType?_pairs.andThen fun type =>
        ((indented_pairs (h .functionBody)).le (by omega)).bind
        fun body body' hbody => (closeBlock_pairs hstart).bind fun _ _ hspan => .pure ?_
  refine (mk.injEq ..).mpr ⟨rfl, rfl, rfl, ?_, hspan⟩
  rw [← giveCall_mapSpan, ← giveCall_mapSpan, hbody]

end FunctionOf

namespace ClassOf

def mapMembers (f : Span → Span) :
    List Property × List FunctionDecl → List Property × List FunctionDecl :=
  Prod.map id (List.map (FunctionOf.mapSpan f))

theorem parseMember_pairs
    (h : ∀ place, P.Lines n 1 Stmt.mapSpan (statement place) (statement' place))
    (members members' : List Property × List FunctionDecl)
    (hmembers : mapMembers P.left members = mapMembers P.right members') :
    P.Turns (n + 1) .alike .aligned mapMembers (parseMember statement members)
      (parseMember statement' members') := by
  obtain ⟨properties, methods⟩ := members
  obtain ⟨properties', methods'⟩ := members'
  obtain ⟨rfl, hmethods⟩ : properties = properties' ∧
      methods.map (FunctionOf.mapSpan P.left) = methods'.map (FunctionOf.mapSpan P.right) :=
    Prod.mk.inj hmembers
  refine skipNewlines_pairs.andThen fun _ => .current_bind fun m c c' hm hc =>
    .look_bind Cursor.peek run_peek ?_
  have hstop : P.At m c c' (fun r => if r.2 then .alike else .aligned) (fun r => r.2.toNat - 0)
      (fun f => Prod.map (mapMembers f) id) (pure ((properties, methods), false))
      (pure ((properties, methods'), false)) := .pure hc (Prod.ext hmembers rfl) rfl
  rw [← hc.lexeme]
  by_cases hl : c.cur.lexeme.InLine
  · rw [← Pairing.peek_lexeme hc hl]
    split
    · refine Pairing.Pairs.andThen expectIdentifier_pairs (fun name => ?_) hm hc
      exact (expectPunct_pairs _).andThen fun _ => expectIdentifier_pairs.andThen fun type =>
        expectNewline_pairs.andThen fun _ => .again (Prod.ext rfl hmethods) rfl
    · refine (FunctionOf.parseWith_pairs h).bind (fun f f' hf => ?_) hm hc
      exact .again (Prod.ext rfl (map_append_eq hmethods hf)) rfl
    · exact hstop
  -- At the end of a line or of the text no member starts, whatever follows.
  · split
    · next hname _ => exact absurd (by simp [hname]) hl
    · next hdef => exact absurd (by simp [hdef]) hl
    · split
      · next hname _ => exact absurd (by simp [hname]) hl
      · next hdef => exact absurd (by simp [hdef]) hl
      · exact hstop

theorem parseMembers_pairs
    (h : ∀ place, P.Lines n 1 Stmt.mapSpan (statement place) (statement' place)) :
    P.Words (n + 1) 0 mapMembers (parseMembers statement) (parseMembers statement') :=
  .accept_bind (by simp)
    (((loop_pairs (parseMember_pairs h) rfl).le (by omega)).of_alike.bind fun _ _ hmembers =>
      expectDedent_pairs.andThen fun _ => .pure hmembers) (.pure rfl)

theorem parseWith_pairs
    (h : ∀ place, P.Lines n 1 Stmt.mapSpan (statement place) (statement' place)) :
    P.Lines (n + 1) 1 mapSpan (parseWith statement) (parseWith statement') := by
  refine .here_bind fun _ _ hstart => (expectKeyword_pairs _).andThen fun _ =>
    expectIdentifier_pairs.andThen fun name => expectNewline_pairs.andThen fun _ =>
      skipNewlines_pairs.andThen fun _ => ((parseMembers_pairs h).le (by omega)).bind
        fun members members' hmembers => (closeBlock_pairs hstart).bind fun _ _ hspan => .pure ?_
  obtain ⟨hproperties, hmethods⟩ : members.1 = members'.1 ∧
      members.2.map (FunctionOf.mapSpan P.left) = members'.2.map (FunctionOf.mapSpan P.right) :=
    Prod.mk.inj hmembers
  exact (mk.injEq ..).mpr ⟨rfl, hproperties, hmethods, hspan⟩

end ClassOf

namespace ComponentOf

theorem mapSpan_of_parts {f f' : Span → Span} {name : String}
    {props props' state state' : List Entry} {methods methods' : List FunctionDecl}
    {render render' : Option RenderBlock}
    {style style' : Option StyleBlock} {span span' : Span}
    (hprops : props.map (Entry.mapSpan f) = props'.map (Entry.mapSpan f'))
    (hstate : state.map (Entry.mapSpan f) = state'.map (Entry.mapSpan f'))
    (hmethods : methods.map (FunctionOf.mapSpan f) = methods'.map (FunctionOf.mapSpan f'))
    (hrender : render.map (RenderBlock.mapSpan f) = render'.map (RenderBlock.mapSpan f'))
    (hstyle : style.map (StyleBlock.mapSpan f) = style'.map (StyleBlock.mapSpan f'))
    (hspan : f span = f' span') :
    (⟨name, props, state, methods, render, style, span⟩ : ComponentDecl).mapSpan f =
      (⟨name, props', state', methods', render', style', span'⟩ : ComponentDecl).mapSpan f' := by
  simp only [mapSpan, hprops, hstate, hmethods, hrender, hstyle, hspan]

theorem parseMember_pairs
    (h : ∀ place, P.Lines n 1 Stmt.mapSpan (statement place) (statement' place))
    (d d' : ComponentDecl) (hd : d.mapSpan P.left = d'.mapSpan P.right) :
    P.Lines (n + 1) 1 mapSpan (parseMember statement d) (parseMember statement' d') := by
  obtain ⟨name, props, state, methods, render, style, span⟩ := d
  obtain ⟨name', props', state', methods', render', style', span'⟩ := d'
  obtain ⟨rfl, hprops, hstate, hmethods, hrender, hstyle, hspan⟩ := ComponentOf.mk.inj hd
  refine .current_bind fun m c c' hm hc => ?_
  rw [← hc.lexeme]
  split
  · exact (Entry.parseBlock_pairs _).bind (fun _ _ hes => .pure (mapSpan_of_parts
      (by simp only [List.map_append, hprops, hes]) hstate hmethods hrender hstyle hspan)) hm hc
  · exact (Entry.parseBlock_pairs _).bind (fun _ _ hes => .pure (mapSpan_of_parts hprops
      (by simp only [List.map_append, hstate, hes]) hmethods hrender hstyle hspan)) hm hc
  · exact (FunctionOf.parseWith_pairs h).bind (fun _ _ hf => .pure (mapSpan_of_parts hprops hstate
      (map_append_eq hmethods hf) hrender hstyle hspan)) hm hc
  · have hsome : render.isSome = render'.isSome := by
      rw [← Option.isSome_map (f := RenderBlock.mapSpan P.left), hrender, Option.isSome_map]
    have hparse : P.Lines (n + 1) 1 mapSpan
        (do return ⟨name, props, state, methods, some (← RenderBlock.parse), style, span⟩)
        (do return ⟨name, props', state', methods', some (← RenderBlock.parse), style', span'⟩) :=
      RenderBlock.parse_pairs.bind fun _ _ hr => .pure
        (mapSpan_of_parts hprops hstate hmethods (congrArg some hr) hstyle hspan)
    rw [hsome]
    exact Pairing.Pairs.ite (.fail_bind rfl) hparse hm hc
  · have hsome : style.isSome = style'.isSome := by
      rw [← Option.isSome_map (f := StyleBlock.mapSpan P.left), hstyle, Option.isSome_map]
    have hparse : P.Lines (n + 1) 1 mapSpan
        (do return ⟨name, props, state, methods, render, some (← StyleBlock.parse), span⟩)
        (do return ⟨name, props', state', methods', render', some (← StyleBlock.parse), span'⟩) :=
      StyleBlock.parse_pairs.bind fun _ _ hr => .pure
        (mapSpan_of_parts hprops hstate hmethods hrender (congrArg some hr) hspan)
    rw [hsome]
    exact Pairing.Pairs.ite (.fail_bind rfl) hparse hm hc
  · exact .fail hc rfl

theorem parseWith_pairs
    (h : ∀ place, P.Lines n 1 Stmt.mapSpan (statement place) (statement' place)) :
    P.Lines (n + 1) 1 mapSpan (parseWith statement) (parseWith statement') :=
  .here_bind fun _ _ hstart => (expectKeyword_pairs _).andThen fun _ =>
    expectIdentifier_pairs.andThen fun _ => ((indentedFold_pairs (parseMember_pairs h)
      (mapSpan_of_parts rfl rfl rfl rfl rfl hstart)).le (by omega)).bind fun d d' hd =>
        (closeBlock_pairs hstart).bind fun _ _ hspan => .pure (by
          obtain ⟨hname, hprops, hstate, hmethods, hrender, hstyle, -⟩ := ComponentOf.mk.inj hd
          rw [hname]
          exact mapSpan_of_parts hprops hstate hmethods hrender hstyle hspan)

end ComponentOf

/-! ### Statements -/

namespace Stmt

variable {left left' : Expr} {start start' : Span}

theorem parseImplicitGive_pairs (hleft : left.mapSpan P.left = left'.mapSpan P.right) :
    P.Lines n 0 mapSpan (parseImplicitGive left) (parseImplicitGive left') :=
  (Expr.parseRest_pairs hleft).bind fun _ _ he => expectNewline_pairs.andThen fun _ => .pure (by
    simp only [mapSpan, Option.map_some, he, Expr.span_pairs he])

theorem parseAssigned_pairs {k : Stmt → Nat} (hk : ∀ s, k s ≤ 1)
    (hstart : P.left start = P.right start') {make make' : Expr → Span → Stmt}
    (hmake : ∀ e e' s s', e.mapSpan P.left = e'.mapSpan P.right → P.left s = P.right s' →
      (make e s).mapSpan P.left = (make' e' s').mapSpan P.right) :
    P.Pairs n .aligned (fun _ => .alike) k mapSpan (parseAssigned start make)
      (parseAssigned start' make') :=
  .least (k := fun _ => 1) (Expr.parse_pairs.bind fun _ _ he => expectNewline_pairs.andThen fun _ =>
    .pure (hmake _ _ _ _ he (P.join hstart (Expr.span_pairs he)))) hk

theorem parseExpr_pairs (h : left.mapSpan P.left = left'.mapSpan P.right) :
    P.Lines n 0 mapSpan (do expectNewline; return Stmt.expr left)
      (do expectNewline; return Stmt.expr left') :=
  expectNewline_pairs.andThen fun _ => .pure (by simp only [mapSpan, h])

theorem parseAccess_pairs (place : Place) (hstart : P.left start = P.right start') :
    P.Lines n 1 mapSpan (parseAccess place start) (parseAccess place start') := by
  refine Expr.parseOperand_pairs.bind fun target target' htarget =>
    .look_bind _ (run_seesPunct _) fun m c c' hm hc => ?_
  rw [← hc.lexeme]
  split
  · next hl =>
    have hinLine : c.cur.lexeme.InLine := by simp [eq_of_beq hl]
    split
    · rw [Expr.mapSpan] at htarget
      obtain ⟨object', s', rfl, hobject, hs⟩ := Expr.eq_propertyAccess_of_mapSpan htarget.symm
      exact .advance_bind hc hm hinLine (parseAssigned_pairs (fun _ => by omega) hstart
        fun _ _ _ _ he hspan => by simp only [mapSpan, hobject, hs, he, hspan])
    · next hne =>
      split
      · rw [Expr.mapSpan] at htarget
        obtain ⟨object', s', rfl, -⟩ := Expr.eq_propertyAccess_of_mapSpan htarget
        exact absurd rfl (hne _ _ s')
      · rw [← Expr.kind_mapSpan P.left, htarget, Expr.kind_mapSpan]
        exact .fail hc rfl
  · refine .look_bind _ run_current ?_
    rw [← hc.lexeme]
    split
    · exact Pairing.Pairs.ite (parseImplicitGive_pairs htarget) (parseExpr_pairs htarget) hm hc
    · exact parseExpr_pairs htarget hm hc

theorem parseIdentifier_pairs {m : Nat} {c c' : Cursor} (hc : Cursor.Aligned P.Alike m c c')
    (hl : c.cur.lexeme.InLine) (place : Place) (name : String) :
    P.At m c c' (fun _ => .alike) (fun _ => 1) mapSpan (parseIdentifier place name)
      (parseIdentifier place name) := by
  have hstart := P.cur hc.1
  refine .look_bind _ run_here (.look_bind _ run_peek ?_)
  rw [← Pairing.peek_lexeme hc hl]
  split
  · next hpeek =>
    exact .advance_twice_bind hc (Nat.le_refl m) hl (by simp [hpeek])
      (parseAssigned_pairs (fun _ => by omega) hstart fun _ _ _ _ he hspan => by
        simp only [mapSpan, he, hspan])
  · exact parseAccess_pairs place hstart (Nat.le_refl m) hc
  · exact parseAccess_pairs place hstart (Nat.le_refl m) hc
  · split
    · exact Expr.parseOperand_pairs.bind (fun _ _ hleft => parseImplicitGive_pairs hleft)
        (Nat.le_refl m) hc
    · refine .advance_bind hc (Nat.le_refl m) hl (parseExpr_pairs ?_)
      simp only [Expr.mapSpan, Expr.mapSpanAll, hstart]

theorem parseInstanceAccess_pairs (hstart : P.left start = P.right start') :
    P.Lines n 1 mapSpan (parseInstanceAccess start) (parseInstanceAccess start') := by
  refine Expr.parseOperand_pairs.bind fun target target' htarget => ?_
  have hexpr := parseExpr_pairs (n := n - 1) htarget
  split
  · rw [Expr.mapSpan] at htarget
    obtain ⟨args', s', rfl⟩ := Expr.eq_instanceMethodCall_of_mapSpan htarget.symm
    exact hexpr
  · rw [Expr.mapSpan] at htarget
    obtain ⟨object', args', s', rfl⟩ := Expr.eq_methodCall_of_mapSpan htarget.symm
    exact hexpr
  · rw [Expr.mapSpan] at htarget
    obtain ⟨s', rfl, hs⟩ := Expr.eq_instanceVarAccess_of_mapSpan htarget.symm
    exact (expectPunct_pairs _).andThen fun _ => parseAssigned_pairs (fun _ => by omega) hstart
      fun _ _ _ _ he hspan => by simp only [mapSpan, Expr.mapSpan, hstart, hs, he, hspan]
  · next hinstance hmethod haccess =>
    split
    · rw [Expr.mapSpan] at htarget
      obtain ⟨args', s', rfl⟩ := Expr.eq_instanceMethodCall_of_mapSpan htarget
      exact absurd rfl (hinstance _ _ s')
    · rw [Expr.mapSpan] at htarget
      obtain ⟨object', args', s', rfl⟩ := Expr.eq_methodCall_of_mapSpan htarget
      exact absurd rfl (hmethod _ _ _ s')
    · rw [Expr.mapSpan] at htarget
      obtain ⟨s', rfl, -⟩ := Expr.eq_instanceVarAccess_of_mapSpan htarget
      exact absurd rfl (haccess _ _ s')
    · exact .fail rfl

theorem parseInstanceVar_pairs {m : Nat} {c c' : Cursor} (hc : Cursor.Aligned P.Alike m c c')
    (hl : c.cur.lexeme.InLine) (name : String) :
    P.At m c c' (fun _ => .alike) (fun _ => 1) mapSpan (parseInstanceVar name)
      (parseInstanceVar name) := by
  have hstart := P.cur hc.1
  refine .look_bind _ run_here (.look_bind _ run_peek ?_)
  rw [← Pairing.peek_lexeme hc hl]
  split
  · next hpeek =>
    exact .advance_twice_bind hc (Nat.le_refl m) hl (by simp [hpeek])
      (parseAssigned_pairs (fun _ => by omega) hstart fun _ _ _ _ he hspan => by
        simp only [mapSpan, he, hspan])
  · exact parseInstanceAccess_pairs hstart (Nat.le_refl m) hc
  · exact parseInstanceAccess_pairs hstart (Nat.le_refl m) hc
  · exact .advance_bind hc (Nat.le_refl m) hl (.fail rfl)

theorem parsePrint_pairs : P.Lines n 1 mapSpan parsePrint parsePrint :=
  .here_bind fun _ _ hstart => (expectKeyword_pairs _).andThen fun _ =>
    (parseAssigned_pairs (fun _ => by omega) hstart fun _ _ _ _ he hspan => by
        simp only [mapSpan, he, hspan])

theorem give_pairs {e e' : Expr} {s s' : Span} (he : e.mapSpan P.left = e'.mapSpan P.right)
    (hs : P.left s = P.right s') :
    (Stmt.give (some e) s).mapSpan P.left = (Stmt.give (some e') s').mapSpan P.right := by
  simp only [mapSpan, Option.map_some, he, hs]

theorem parseGive_pairs : P.Lines n 1 mapSpan parseGive parseGive :=
  .here_bind fun _ _ hstart => (expectKeyword_pairs _).andThen fun _ => .sees_bind fun b =>
    .sees_bind fun b' => .ite (b := b || b')
      (expectNewline_pairs.andThen fun _ => .pure (by simp only [mapSpan, Option.map_none, hstart]))
      (parseAssigned_pairs (fun _ => by omega) hstart fun _ _ _ _ he hs => give_pairs he hs)

theorem nextElsif_pairs {body body' : Parser (List Stmt)}
    (h : P.Words n 0 (fun f => List.map (mapSpan f)) body body') (elsifs elsifs' : List Elsif)
    (helsifs : elsifs.map (ElsifOf.mapSpan P.left) = elsifs'.map (ElsifOf.mapSpan P.right)) :
    P.Turns n .alike .aligned (fun f => List.map (ElsifOf.mapSpan f)) (nextElsif body elsifs)
      (nextElsif body' elsifs') := by
  refine skipNewlines_pairs.andThen fun _ => .accept_bind (by simp) ?_ (.done helsifs rfl)
  refine Expr.parse_pairs.bind fun condition condition' hcondition =>
    (h.le (by omega)).to_alike.bind
    fun body body' hbody => .again (map_append_eq helsifs ?_) rfl
  exact (ElsifOf.mk.injEq ..).mpr ⟨hcondition, hbody⟩

theorem parseBranch_pairs (h : ∀ place, P.Lines n 1 mapSpan (statement place) (statement' place))
    (place : Place) :
    P.Lines (n + 1) 1 mapSpan (parseBranch statement place) (parseBranch statement' place) := by
  have hbody := indented_pairs (h place.block)
  refine .here_bind fun start start' hstart => (expectKeyword_pairs _).andThen fun _ =>
    Expr.parse_pairs.bind fun condition condition' hcondition => (hbody.le (by omega)).bind
      fun first first' hfirst => ((loop_pairs (g := fun f => List.map (ElsifOf.mapSpan f))
        (nextElsif_pairs hbody) rfl).le (by omega)).of_alike.bind fun elsifs elsifs' helsifs => ?_
  have hend (m : Nat) (hasElse : Bool) (otherwise otherwise' : List Stmt)
      (hotherwise : otherwise.map (mapSpan P.left) = otherwise'.map (mapSpan P.right)) :
      P.Lines m 0 mapSpan
        (do return .branch condition first elsifs otherwise hasElse (← closeBlock start))
        (do return .branch condition' first' elsifs' otherwise' hasElse (← closeBlock start')) :=
    (closeBlock_pairs hstart).bind fun _ _ hspan => .pure (by
      simp only [mapSpan, mapSpanAll_eq_map, mapSpanElsifs_eq_map, hcondition, hfirst, helsifs,
        hotherwise]
      rw [show P.left _ = P.right _ from hspan])
  exact .accept_bind (by simp) ((hbody.le (by omega)).bind (hend _ true)) (hend _ false [] [] rfl)

theorem parseWith_pairs (h : ∀ place, P.Lines n 1 mapSpan (statement place) (statement' place))
    (place : Place) :
    P.Lines (n + 1) 1 mapSpan (parseWith statement place) (parseWith statement' place) := by
  refine .current_bind fun m c c' hm hc => ?_
  have htext : P.At m c c' (fun _ => .alike) (fun _ => 1) mapSpan
      (parseAssigned c.cur.span fun value => .give (some value))
      (parseAssigned c'.cur.span fun value => .give (some value)) :=
    parseAssigned_pairs (fun _ => by omega) (P.cur hc.1) (fun _ _ _ _ he hs => give_pairs he hs)
      hm hc
  rw [← hc.lexeme]
  split
  · exact (FunctionOf.parseWith_pairs h).bind (fun _ _ hf => .pure (by
      rw [mapSpan_function, mapSpan_function, hf])) hm hc
  · exact (ClassOf.parseWith_pairs h).bind (fun _ _ hd => .pure (by
      rw [mapSpan_classDecl, mapSpan_classDecl, hd])) hm hc
  · have hparse : P.Lines (n + 1) 1 mapSpan
        (do return .component (← ComponentOf.parseWith statement))
        (do return .component (← ComponentOf.parseWith statement')) :=
      (ComponentOf.parseWith_pairs h).bind fun _ _ hd => .pure (by
        rw [mapSpan_component, mapSpan_component, hd])
    exact Pairing.Pairs.ite (.fail_bind rfl) hparse hm hc
  · exact parsePrint_pairs hm hc
  · exact parseGive_pairs hm hc
  · exact parseBranch_pairs h place hm hc
  · exact .fail hc rfl
  · next hl => exact parseIdentifier_pairs hc (by simp [hl]) place _
  · next hl => exact parseInstanceVar_pairs hc (by simp [hl]) _
  · exact htext
  · exact htext
  · exact .fail hc rfl

theorem nesting : P.Nesting .alike mapSpan parseWith parseWithin where
  succ _ := rfl
  pairs h place := parseWith_pairs h place

theorem parse_pairs (place : Place) : P.Lines n 1 mapSpan (parse place) (parse place) :=
  nesting.bounded_pairs n place

end Stmt

end Declarations

/-! ### Programs -/

namespace Program

theorem parseNext_pairs (body body' : List Stmt)
    (h : body.map (Stmt.mapSpan P.left) = body'.map (Stmt.mapSpan P.right)) :
    P.Turns n .aligned .aligned (fun f => List.map (Stmt.mapSpan f)) (parseNext body)
      (parseNext body') :=
  .sees_bind fun _ => .ite (.done h rfl) ((Stmt.parse_pairs .top).bind fun _ _ hs =>
    skipNewlines_pairs.andThen fun _ => .again (map_append_eq h hs) rfl)

theorem parse_pairs :
    P.Pairs n .alike (fun _ => .aligned) (fun _ => 0) mapSpan parse parse :=
  skipNewlines_pairs.andThen fun _ =>
    (loop_pairs (g := fun f => List.map (Stmt.mapSpan f)) parseNext_pairs rfl).bind
      fun _ _ hbody => .pure (congrArg Program.mk hbody)

end Program

end LayoutScript

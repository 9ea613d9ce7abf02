import LayoutScript.Proofs.Canonical
import LayoutScript.Proofs.Denotation
import LayoutScript.Proofs.Relocation

/-! The canonical text of a canonical expression is read as the same expression, up to spans. -/
namespace LayoutScript

namespace Expr

def bare (e : Expr) : Expr := e.mapSpan fun _ => .origin

@[simp] theorem bare_propertyAccess (object : Expr) (properties : List String) (s : Span) :
    (propertyAccess object properties s).bare = .propertyAccess object.bare properties .origin := by
  rw [bare, mapSpan]
  rfl

@[simp] theorem bare_construct (name : String) (args : List Expr) (s : Span) :
    (construct name args s).bare = .construct name (args.map bare) .origin := by
  rw [bare, mapSpan, mapSpanAll_eq_map]
  rfl

@[simp] theorem bare_call (name : String) (args : List Expr) (s : Span) :
    (call name args s).bare = .call name (args.map bare) .origin := by
  rw [bare, mapSpan, mapSpanAll_eq_map]
  rfl

@[simp] theorem bare_methodCall (object : Expr) (name : String) (args : List Expr) (s : Span) :
    (methodCall object name args s).bare =
      .methodCall object.bare name (args.map bare) .origin := by
  rw [bare, mapSpan, mapSpanAll_eq_map]
  rfl

@[simp] theorem bare_instanceMethodCall (name : String) (args : List Expr) (s : Span) :
    (instanceMethodCall name args s).bare = .instanceMethodCall name (args.map bare) .origin := by
  rw [bare, mapSpan, mapSpanAll_eq_map]
  rfl

@[simp] theorem bare_binary (left right : Expr) (operator : String) (grouped : Bool) (s : Span) :
    (binary left operator right grouped s).bare =
      .binary left.bare operator right.bare grouped .origin := by
  rw [bare, mapSpan]
  rfl

@[simp] theorem bare_accessed (start last : Span) (base : Expr) (properties : List String) :
    (base.accessed start last properties).bare = base.bare.accessed .origin .origin properties := by
  cases properties with
  | nil => rfl
  | cons name properties => cases base <;> simp only [accessed, bare, mapSpan] <;> rfl

/-- What may follow an operand. -/
def EndsOperand (next : Token) : Prop :=
  next.lexeme ≠ .punct .dot ∧ next.lexeme ≠ .punct .openParen

def EndsWhole (next : Token) : Prop := EndsOperand next ∧ next.lexeme.isBinary = false

theorem endsWhole_of_eq {next : Token} {l : Lexeme} (h : next.lexeme = l)
    (hl : l ≠ .punct .dot ∧ l ≠ .punct .openParen ∧ l.isBinary = false) : EndsWhole next := by
  rw [EndsWhole, EndsOperand, h]
  exact ⟨⟨hl.1, hl.2.1⟩, hl.2.2⟩

def isVariable : Expr → Bool
  | .identifier .. | .instanceVar .. => true
  | _ => false

/-- The tokens start with the name that the expression starts with. Unless it is that name alone, a
sign that makes an access follows. -/
def Begins (e : Expr) (ts : List Token) : Prop :=
  ∃ t us, ts = t :: us ∧ e.opening? = some t.lexeme ∧
    ((us = [] ∧ e.isVariable = true) ∨ StartsWith Lexeme.opensAccess us)

/-- The tokens `ts` are those of `e`, which reads `properties` from `base`; more may be read from it
by tokens that follow. -/
structure Linked (e : Expr) (ts : List Token) (start last : Span) (base : Expr)
    (properties : List String) : Prop where
  same : (base.accessed start last properties).bare = e.bare
  begins : e.Begins ts
  extend : ∀ {us next r}, (us.headD next).lexeme ≠ .punct .openParen →
    Chain Expression start last base properties us next r → Operand Expression (ts ++ us) next r

theorem Linked.operand {e : Expr} {ts : List Token} {start last : Span} {base : Expr}
    {properties : List String} {next : Token} (h : e.Linked ts start last base properties)
    (hnext : EndsOperand next) :
    Operand Expression ts next (base.accessed start last properties) := by
  have hoperand := @Linked.extend _ _ _ _ _ _ h [] next _ hnext.2 (.stop hnext.1)
  rwa [List.append_nil] at hoperand

def Reread : Role → Expr → Prop
  | .base, e => ∀ source line column, ∃ ts start last base,
    Token.Lexes source line column Tight e.text ts ∧ e.Linked ts start last base []
  | .access, e => ∀ source line column, ∃ ts start last base properties,
    Token.Lexes source line column Tight e.text ts ∧ e.Linked ts start last base properties
  | .operand, e =>
    Denotes Loose EndsOperand (Operand Expression) (fun e' => e'.bare = e.bare) e.text
  | .whole, e => Denotes Loose EndsWhole Expression (fun e' => e'.bare = e.bare) e.text

theorem text_instanceVar (name : String) :
    (Lexeme.instanceVar name).text.toList = '@' :: name.toList := by
  simp [Lexeme.text, Lexeme.value, String.toList_append]

theorem tight_of_head {c : Char} (h : c = ' ' ∨ c = ',' ∨ c = ')' ∨ c = '.' ∨ c = '(')
    (cs : List Char) : Tight (c :: cs) := by
  rintro d ⟨⟩
  exact h

theorem arguments_reread {args : List Expr} (h : ∀ a ∈ args, a.Reread .whole)
    (source : String) (line column : Nat) :
    ∃ us args' close, Token.Lexes source line column Tight (Text.arguments (texts args)) us ∧
      args'.map bare = args.map bare ∧ StartsWith Lexeme.opensAccess us ∧
      ∀ next, Arguments Expression us next (args', close) := by
  have hargs : ∀ a ∈ args, Denotes Loose EndsWhole Expression (fun b => b.bare = a.bare) a.text := h
  have hdenotes := Denotes.arguments (fun t ht => endsWhole_of_eq ht (by decide))
    (fun t ht => endsWhole_of_eq ht (by decide)) hargs
  obtain ⟨us, args', hlex, hsame, hrule⟩ := hdenotes source line column
  rw [← texts_eq_map] at hlex
  cases hrule ⟨.eof, .origin⟩ trivial with
  | mk ho hs hc =>
    exact ⟨_, args', _, hlex, hsame, ⟨_, _, rfl, by rw [ho]; rfl⟩,
      fun next => .mk ho hs hc⟩

theorem dotted_lexes {name : String} (h : isWord name = true) (source : String)
    (line column : Nat) :
    ∃ dot word, Token.Lexes source line column Tight ('.' :: name.toList) [dot, word] ∧
      dot.lexeme = .punct .dot ∧ word.lexeme.name? = some name := by
  have hword : isWord (String.ofList name.toList) = true := by rwa [String.ofList_toList]
  have hspells := Lexeme.ofWord_spells hword
  obtain ⟨hplain, htext, hname, hnumber⟩ : (Lexeme.ofWord name.toList).isPlain = true ∧
      (Lexeme.ofWord name.toList).text = name ∧ (Lexeme.ofWord name.toList).name? = some name ∧
      ∀ raw, Lexeme.ofWord name.toList ≠ .number raw := by
    unfold Lexeme.ofWord
    rw [String.ofList_toList]
    dsimp only
    split
    · next k hk =>
      have htext := Keyword.text_of_ofText? hk
      exact ⟨rfl, htext, congrArg some htext, by simp⟩
    · exact ⟨rfl, rfl, rfl, by simp⟩
  have hdot : Token.Lexes source line column (fun _ => True) ['.']
      [⟨.punct .dot, .ofWidth source line column 1⟩] :=
    Token.Lexes.token (l := .punct .dot) rfl trivial fun _ _ _ _ => rfl
  have hlex := hdot.append (Token.Lexes.token hplain hspells.wellFormed fun rest hrest =>
    Tight.stopsAt hrest hnumber) fun _ _ => trivial
  rw [htext] at hlex
  exact ⟨_, _, hlex, rfl, hname⟩

theorem properties_reread {source : String} {line column : Nat} {cs : List Char} {ts : List Token}
    {start last : Span} {base : Expr} {before names : List String}
    (hlex : Token.Lexes source line column Tight cs ts)
    (hnames : ∀ name ∈ names, isWord name = true) :
    ∃ us last', Token.Lexes source line column Tight (cs ++ propertiesText names) (ts ++ us) ∧
      (names ≠ [] → StartsWith Lexeme.opensAccess us) ∧
      ∀ {vs next r}, (vs.headD next).lexeme ≠ .punct .openParen →
        Chain Expression start last' base (before ++ names) vs next r →
        ((us ++ vs).headD next).lexeme ≠ .punct .openParen ∧
          Chain Expression start last base before (us ++ vs) next r := by
  induction names generalizing cs ts last before with
  | nil =>
    refine ⟨[], last, ?_, fun h => absurd rfl h, fun hnext h => ⟨hnext, ?_⟩⟩
    · rw [propertiesText, List.flatMap_nil, List.append_nil, List.append_nil]
      exact hlex
    · rwa [List.append_nil] at h
  | cons name names ih =>
    obtain ⟨dot, word, hlexDot, hdot, hword⟩ :=
      dotted_lexes (hnames name List.mem_cons_self) source line (column + cs.length)
    have hlex' := hlex.append hlexDot fun rest _ => tight_of_head (by simp) _
    obtain ⟨us, last', hlexAll, _, hchain⟩ := @ih _ _ word.span (before ++ [name]) hlex'
      fun p hp => hnames p (List.mem_cons_of_mem _ hp)
    refine ⟨dot :: word :: us, last', ?_, fun _ => ⟨dot, _, rfl, by rw [hdot]; rfl⟩,
      fun hnext h => ⟨by simp [hdot], ?_⟩⟩
    · rw [List.append_assoc, List.append_assoc] at hlexAll
      exact hlexAll
    · rw [← List.singleton_append, ← List.append_assoc] at h
      obtain ⟨hnext', h'⟩ := hchain hnext h
      exact .property hdot hword hnext' h'

theorem Begins.append {e e' : Expr} {ts us : List Token} (h : e.Begins ts)
    (ho : e'.opening? = e.opening?) (hus : StartsWith Lexeme.opensAccess us) :
    e'.Begins (ts ++ us) := by
  obtain ⟨t, vs, rfl, ht, hvs⟩ := h
  refine ⟨t, vs ++ us, rfl, ho.trans ht, .inr ?_⟩
  rcases hvs with ⟨rfl, _⟩ | hvs
  · exact hus
  · exact hvs.append us

theorem reread_of_head {e : Expr}
    (h : ∀ source line column, ∃ ts base, Token.Lexes source line column Tight e.text ts ∧
      base.bare = e.bare ∧ e.Begins ts ∧
      ∀ next, next.lexeme ≠ .punct .openParen → Head Expression ts next base) : e.Reread .base := by
  intro source line column
  obtain ⟨ts, base, hlex, hsame, hbegins, hhead⟩ := h source line column
  exact ⟨ts, base.span, base.span, base, hlex, hsame, hbegins,
    fun hnext hchain => .chain (hhead _ hnext) hchain⟩

theorem name_lexes {l : Lexeme} (hp : l.isPlain = true) (hl : l.WellFormed)
    (hnumber : ∀ raw, l ≠ .number raw) (source : String) (line column : Nat) :
    ∃ t, Token.Lexes source line column Tight l.text.toList [t] ∧ t.lexeme = l :=
  ⟨_, .token hp hl fun _ hrest => Tight.stopsAt hrest hnumber, rfl⟩

theorem reread_of_name {e : Expr} (l : Lexeme) (make : Span → Expr) (hp : l.isPlain = true)
    (hl : l.WellFormed) (hnumber : ∀ raw, l ≠ .number raw) (htext : e.text = l.text.toList)
    (hsame : ∀ s, (make s).bare = e.bare) (ho : e.opening? = some l) (hvar : e.isVariable = true)
    (hhead : ∀ {t next}, t.lexeme = l → next.lexeme ≠ .punct .openParen →
      Head Expression [t] next (make t.span)) : e.Reread .base := by
  refine reread_of_head fun source line column => ?_
  obtain ⟨t, hlex, ht⟩ := name_lexes hp hl hnumber source line column
  exact ⟨[t], make t.span, htext ▸ hlex, hsame _, ⟨t, [], rfl, ht ▸ ho, .inl ⟨rfl, hvar⟩⟩,
    fun next hnext => hhead ht hnext⟩

theorem tight_arguments (css : List (List Char)) (rest : List Char) :
    Tight (Text.arguments css ++ rest) := by
  rw [Text.arguments, Text.parenthesized]
  exact tight_of_head (by simp) _

theorem reread_of_call {e : Expr} {args : List Expr} (l : Lexeme) (make : List Expr → Span → Expr)
    (hp : l.isPlain = true) (hl : l.WellFormed) (hnumber : ∀ raw, l ≠ .number raw)
    (hargs : ∀ a ∈ args, a.Reread .whole)
    (htext : e.text = l.text.toList ++ Text.arguments (texts args))
    (hsame : ∀ {args' s}, args'.map bare = args.map bare → (make args' s).bare = e.bare)
    (ho : e.opening? = some l)
    (hhead : ∀ {t us next args close}, t.lexeme = l → Arguments Expression us next (args, close) →
      Head Expression (t :: us) next (make args (t.span.join close))) : e.Reread .base := by
  refine reread_of_head fun source line column => ?_
  obtain ⟨t, hlex, ht⟩ := name_lexes hp hl hnumber source line column
  obtain ⟨us, args', close, hlexArgs, hargs', hstarts, hrule⟩ :=
    arguments_reread hargs source line (column + l.text.toList.length)
  refine ⟨t :: us, make args' (t.span.join close), ?_, hsame hargs',
    ⟨t, us, rfl, ht ▸ ho, .inr hstarts⟩, fun next _ => hhead ht (hrule next)⟩
  rw [htext]
  exact hlex.append hlexArgs fun rest _ => tight_arguments _ rest

theorem methodCall_reread {object : Expr} {name : String} {args : List Expr} {s : Span}
    (ho : object.Reread .access) (hname : isWord name = true)
    (hargs : ∀ a ∈ args, a.Reread .whole) :
    (Expr.methodCall object name args s).Reread .base := by
  intro source line column
  obtain ⟨ts, start, last, base, properties, hlex, hlinked⟩ := ho source line column
  obtain ⟨dot, word, hlexDot, hdot, hword⟩ :=
    dotted_lexes hname source line (column + object.text.length)
  have hlex' := hlex.append hlexDot fun rest _ => tight_of_head (by simp) _
  obtain ⟨us, args', close, hlexArgs, hargs', _, hrule⟩ :=
    arguments_reread hargs source line (column + (object.text ++ '.' :: name.toList).length)
  have hlexAll := hlex'.append hlexArgs fun rest _ => tight_arguments _ rest
  refine ⟨ts ++ [dot, word] ++ us, start, close,
    .methodCall (base.accessed start word.span properties) name args' (start.join close), ?_, ?_⟩
  · rw [text, propertiesText, List.flatMap_singleton]
    exact hlexAll
  · refine ⟨?_, ?_, fun {vs next r} hnext hchain => ?_⟩
    · show (Expr.methodCall _ name args' _).bare = _
      rw [bare_methodCall, bare_methodCall, hargs', bare_accessed, ← hlinked.same, bare_accessed]
    · rw [List.append_assoc]
      exact hlinked.begins.append rfl ⟨dot, _, rfl, by rw [hdot]; rfl⟩
    · rw [List.append_assoc, List.append_assoc]
      have hcall : Chain Expression start last base properties (dot :: word :: us ++ vs) next r :=
        .call hdot hword (hrule _) hchain
      exact hlinked.extend (by simp [hdot]) hcall

@[simp] theorem text_accessed (d : Dialect) (start last : Span) (base : Expr)
    (properties : List String) :
    (base.accessed start last properties).text d = base.text d ++ propertiesText properties := by
  cases properties with
  | nil => exact (List.append_nil _).symm
  | cons name properties => cases base <;> simp only [accessed, text]

theorem access_reread {base : Expr} {start last : Span} {properties : List String}
    (hbase : base.Reread .base) (hnames : ∀ name ∈ properties, isWord name = true) :
    (base.accessed start last properties).Reread .access := by
  intro source line column
  obtain ⟨ts, start', last', base', hlex, hlinked⟩ := hbase source line column
  by_cases hne : properties = []
  · subst hne
    exact ⟨ts, start', last', base', [], hlex, hlinked⟩
  · obtain ⟨us, last'', hlexAll, hstarts, hchain⟩ :=
      @properties_reread _ _ _ _ _ start' last' base' [] properties hlex hnames
    refine ⟨ts ++ us, start', last'', base', properties, ?_, ?_, ?_, fun {vs next r} hnext h => ?_⟩
    · rw [text_accessed]
      exact hlexAll
    · rw [bare_accessed, bare_accessed, ← hlinked.same]
      rfl
    · exact hlinked.begins.append (opening?_accessed ..) (hstarts hne)
    · obtain ⟨hnext', h'⟩ := hchain hnext h
      rw [List.append_assoc]
      exact hlinked.extend hnext' h'

theorem chain_reread {e : Expr} (h : e.Reread .access) : e.Reread .operand := by
  intro source line column
  obtain ⟨ts, start, last, base, properties, hlex, hlinked⟩ := h source line column
  exact ⟨ts, base.accessed start last properties, hlex.mono fun _ => Loose.tight, hlinked.same,
    fun next hnext => hlinked.operand hnext⟩

theorem atom_reread {l : Lexeme} {make : Span → Expr} {s : Span} (ha : atom? l = some make)
    (hl : l.WellFormed) : (make s).Reread .operand := by
  obtain ⟨hplain, htext, hsame⟩ : l.isPlain = true ∧ (make s).text = l.text.toList ∧
      ∀ s', (make s').bare = (make s).bare := by
    unfold atom? at ha
    split at ha <;> cases ha <;> refine ⟨rfl, ?_, fun _ => by simp only [bare, mapSpan]⟩ <;>
      rw [text] <;> simp [Lexeme.text, Lexeme.value, String.toList_append] <;> rfl
  intro source line column
  let t : Token := ⟨l, .ofWidth source line column l.text.toList.length⟩
  have hlex : Token.Lexes source line column Loose l.text.toList [t] :=
    .token hplain hl fun _ hrest => Loose.stopsAt hrest l
  exact ⟨[t], make t.span, htext ▸ hlex, hsame _, fun next _ => .atom ha⟩

theorem negative_reread {raw : String} {s : Span} (h : (Lexeme.number raw).WellFormed) :
    (Expr.number ("-" ++ raw) s).Reread .operand := by
  intro source line column
  let minus : Token := ⟨.punct .minus, .ofWidth source line column 1⟩
  let t : Token := ⟨.number raw, .ofWidth source line (column + 1) raw.toList.length⟩
  have hminus : Token.Lexes source line column (fun _ => True) ['-'] [minus] :=
    .token (l := .punct .minus) rfl trivial fun _ _ _ _ => rfl
  have hnumber : Token.Lexes source line (column + 1) Loose raw.toList [t] :=
    .token (l := .number raw) rfl h fun _ hrest => Loose.stopsAt hrest _
  have hlex := hminus.append hnumber fun _ _ => trivial
  refine ⟨[minus, t], .number ("-" ++ raw) (minus.span.join t.span), ?_,
    by simp only [bare, mapSpan], fun next _ => .negative rfl rfl ?_⟩
  · rw [text, String.toList_append]
    exact hlex
  · have hend : minus.span = .onLine source line column column :=
      Span.ofWidth_one source line column
    simp [Token.follows, hend, t, Span.onLine, Span.ofWidth]

theorem construct_reread {name : String} {args : List Expr} {s : Span}
    (h : (Lexeme.identifier name).WellFormed) (hargs : ∀ a ∈ args, a.Reread .whole) :
    (Expr.construct name args s).Reread .operand := by
  intro source line column
  obtain ⟨t, hlexName, ht⟩ :=
    @name_lexes (.identifier name) rfl h (by simp) source line (column + 4)
  obtain ⟨us, args', close, hlexArgs, hargs', _, hrule⟩ :=
    arguments_reread hargs source line (column + 4 + name.toList.length)
  have hlex := (hlexName.append hlexArgs fun rest _ => tight_arguments _ rest)
  have hlexAll := Token.Lexes.after (l := .keyword .new) rfl trivial hlex
  let new : Token := ⟨.keyword .new, .ofWidth source line column 3⟩
  have hnew : new.lexeme = .keyword .new := rfl
  refine ⟨new :: t :: us, .construct name args' (new.span.join close), ?_, ?_,
    fun next _ => .newWith hnew ht (hrule next)⟩
  · rw [text, List.append_assoc]
    exact hlexAll.mono fun _ => Loose.tight
  · show (Expr.construct name args' _).bare = _
    rw [bare_construct, bare_construct, hargs']

theorem operand_reread {e : Expr} (h : e.Reread .operand) : e.Reread .whole := by
  intro source line column
  obtain ⟨ts, e', hlex, hsame, hrule⟩ := h source line column
  exact ⟨ts, e', hlex, hsame, fun next hnext =>
    expression_iff_level.2 (.operand (hrule next hnext.1) hnext.2)⟩

theorem endsOperand_of_isBinary {op : Token} {p : Punct} (h : op.lexeme = .punct p)
    (hp : p.isBinary = true) : EndsOperand op := by
  rw [EndsOperand, h]
  constructor
  · rintro ⟨⟩
    exact absurd hp (by decide)
  · rintro ⟨⟩
    exact absurd hp (by decide)

theorem binary_reread {left right : Expr} {p : Punct} {s : Span} (hl : left.Reread .operand)
    (hp : p.isBinary = true) (hr : right.Reread .whole) :
    (Expr.binary left p.text right false s).Reread .whole := by
  have hleft : Denotes Loose EndsOperand (Operand Expression) (fun e => e.bare = left.bare)
      left.text :=
    hl
  have hright : Denotes Loose EndsWhole Expression (fun e => e.bare = right.bare) right.text := hr
  have hall := hleft.blank (hright.after (l := .punct p) rfl trivial) Loose.blank (by
    rintro _ _ _ ⟨⟨hop⟩, _⟩
    exact endsOperand_of_isBinary hop hp)
  have htext : (Expr.binary left p.text right false s).text =
      left.text ++ ' ' :: (p.text.toList ++ ' ' :: right.text) := by
    rw [text]
    simp
  rw [Reread, htext]
  refine hall.map (f := fun r => .binary r.1 p.text r.2.2 false (r.1.span.join r.2.2.span)) ?_
    fun {r} hr => ?_
  · rintro _ _ _ - ⟨ho, ⟨⟨hop⟩, he⟩⟩
    exact expression_iff_level.2 (.binary ho hop hp he)
  · rw [bare_binary, bare_binary, hr.1, hr.2]

theorem group_reread {left right : Expr} {p : Punct} {s : Span}
    (h : (Expr.binary left p.text right false s).Reread .whole) :
    (Expr.binary left p.text right true s).Reread .operand := by
  have hwhole : Denotes Loose (·.lexeme = .punct .closeParen) Expression
      (fun e' => e'.bare = (Expr.binary left p.text right false s).bare) _ :=
    h.of_follow fun next hnext => endsWhole_of_eq hnext (by decide)
  intro source line column
  obtain ⟨ts, e', hlex, hsame, hrule⟩ := hwhole.parenthesized source line column
  refine ⟨ts, e'.grouped, ?_, ?_, fun next _ => ?_⟩
  · rw [text] at hlex ⊢
    exact hlex.mono fun _ => Loose.tight
  · show e'.grouped.bare = _
    rw [bare, ← grouped_mapSpan, ← bare, hsame, bare_binary, bare_binary]
    rfl
  · cases hrule next trivial with
    | mk ho he hc => exact .group ho he hc

theorem Canonical.reread {role : Role} {e : Expr} (h : e.Canonical role) : e.Reread role := by
  induction h with
  | @identifier name s hw =>
    exact reread_of_name (.identifier name) (.identifier name) rfl hw (by simp) (by rw [text]; rfl)
      (fun _ => by simp only [Expr.bare, mapSpan]) rfl rfl .identifier
  | @call name args s hw _ ih =>
    exact reread_of_call (.identifier name) (.call name) rfl hw (by simp) ih (by rw [text]; rfl)
      (fun h => by rw [bare_call, bare_call, h]) rfl .call
  | @instanceVar name s hw =>
    exact reread_of_name (.instanceVar name) (.instanceVar name) rfl hw (by simp)
      (by rw [text, text_instanceVar]; rfl)
      (fun _ => by simp only [Expr.bare, mapSpan]) rfl rfl .instanceVar
  | @instanceCall name args s hw _ ih =>
    exact reread_of_call (.instanceVar name) (.instanceMethodCall name) rfl hw (by simp) ih
      (by rw [text, text_instanceVar]; rfl)
      (fun h => by rw [bare_instanceMethodCall, bare_instanceMethodCall, h]) rfl .instanceCall
  | methodCall _ hw _ iho iha => exact methodCall_reread iho hw iha
  | access _ hp ih => exact access_reread ih hp
  | atom ha hw => exact atom_reread ha hw
  | negative hw => exact negative_reread hw
  | construct hw _ ih => exact construct_reread hw ih
  | group _ hp _ ihl ihr => exact group_reread (binary_reread ihl hp ihr)
  | chain _ ih => exact chain_reread ih
  | operand _ ih => exact operand_reread ih
  | binary _ hp _ ihl ihr => exact binary_reread ihl hp ihr

end Expr

end LayoutScript

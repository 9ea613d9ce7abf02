import LayoutScript.Proofs.ExpressionRoundTrip
import LayoutScript.Proofs.ParserRelocation

/-! The canonical lines of a canonical statement are read as the same statement, up to spans, in
every place and at every depth. -/
namespace LayoutScript

open LayoutScript.Expr (Expression Operand EndsOperand EndsWhole)

def Stmt.bare (s : Stmt) : Stmt := s.mapSpan fun _ => .origin

namespace Expr

theorem Canonical.line {e : Expr} (h : e.Canonical .whole) :
    Denotes Loose (·.lexeme = .newline) Expression (fun e' => e'.bare = e.bare) e.text :=
  h.reread.of_follow fun _ hnext => endsWhole_of_eq hnext (by decide)

inductive Opened (l : Lexeme) : Rule (Token × Expr)
  | mk {t us next e} : t.lexeme = l → StartsWith Lexeme.opensAccess us →
    Operand Expression (t :: us) next e → Opened l (t :: us) next (t, e)

theorem Canonical.opened {e : Expr} {l : Lexeme} (h : e.Canonical .access)
    (ho : e.opening? = some l) (hv : e.isVariable = false) :
    Denotes Loose EndsOperand (Opened l) (fun r => r.2.bare = e.bare) e.text := by
  intro source line column
  obtain ⟨ts, start, last, base, properties, hlex, hlinked⟩ := h.reread source line column
  obtain ⟨t, us, rfl, ht, hus⟩ := hlinked.begins
  rcases hus with ⟨_, hv'⟩ | hus
  -- A name alone would be a call at the top level and a value inside a function.
  · rw [hv] at hv'
    cases hv'
  · exact ⟨t :: us, (t, base.accessed start last properties), hlex.mono fun _ => Loose.tight,
      hlinked.same, fun next hnext =>
        .mk (Option.some.inj (ht.symm.trans ho)) hus (hlinked.operand hnext)⟩

theorem eq_propertyAccess_of_bare {e object : Expr} {properties : List String} {s : Span}
    (h : e.bare = (propertyAccess object properties s).bare) :
    ∃ object' s', e = propertyAccess object' properties s' ∧ object'.bare = object.bare := by
  rw [bare_propertyAccess] at h
  cases e <;> simp only [bare, mapSpan, reduceCtorEq, propertyAccess.injEq] at h
  exact ⟨_, _, by rw [h.2.1], h.1⟩

theorem eq_instanceVarAccess_of_bare {e : Expr} {name : String} {properties : List String}
    {s : Span} (h : e.bare = (instanceVarAccess name properties s).bare) :
    ∃ s', e = instanceVarAccess name properties s' := by
  cases e <;> simp only [bare, mapSpan, reduceCtorEq, instanceVarAccess.injEq] at h
  exact ⟨_, by rw [h.1, h.2.1]⟩

end Expr

namespace Stmt

/-- The lines of a statement are read as it, wherever they stand. -/
def Reread (s : Stmt) : Prop := ∀ place level,
  LinesDenote level (StatementRule place) (fun s' => s'.bare = s.bare) (s.lines level)

theorem reread_of_sentence {s : Stmt} {cs : List Char}
    (hlines : ∀ level, s.lines level = [Text.indented level cs])
    (h : ∀ place, Denotes Loose (·.lexeme = .newline) (Sentence place)
      (fun s' => s'.bare = s.bare) cs) : s.Reread := by
  intro place level
  rw [hlines]
  exact (LinesDenote.line (h place) level).map (f := id)
    (fun h => statementRule_iff_level.2 (.sentence h)) id

section Sentences

variable {value : Expr} {span : Span}

theorem reread_of_keyword (k : Keyword) (make : Expr → Span → Stmt) (hv : value.Canonical .whole)
    (hlines : ∀ level, (make value span).lines level =
      [Text.indented level (k.text.toList ++ ' ' :: value.text)])
    (hbare : ∀ e s, (make e s).bare = make e.bare .origin)
    (hrule : ∀ {place t us next s}, t.lexeme = .keyword k → Valued t.span make us next s →
      Sentence place (t :: us) next s) : (make value span).Reread := by
  refine reread_of_sentence hlines fun place => ?_
  refine (hv.line.after (l := .keyword k) rfl trivial).map
    (f := fun r => make r.2 (r.1.span.join r.2.span)) ?_ fun {r} hr => ?_
  · rintro _ _ _ - ⟨⟨ht⟩, he⟩
    exact hrule ht (.mk he)
  · rw [hbare, hbare, hr]

theorem reread_of_assignment (l : Lexeme) (make : Expr → Span → Stmt) (hp : l.isPlain = true)
    (hl : l.WellFormed) (hv : value.Canonical .whole)
    (hlines : ∀ level, (make value span).lines level =
      [Text.indented level (l.text.toList ++ " = ".toList ++ value.text)])
    (hbare : ∀ e s, (make e s).bare = make e.bare .origin)
    (hrule : ∀ {place t equal us next s}, t.lexeme = l → equal.lexeme = .punct .equal →
      Valued t.span make us next s → Sentence place (t :: equal :: us) next s) :
    (make value span).Reread := by
  refine reread_of_sentence hlines fun place => ?_
  rw [List.append_assoc]
  refine ((hv.line.after (l := .punct .equal) rfl trivial).after hp hl).map
    (f := fun r => make r.2.2 (r.1.span.join r.2.2.span)) ?_ fun {r} hr => ?_
  · rintro _ _ _ - ⟨⟨ht⟩, ⟨⟨hequal⟩, he⟩⟩
    exact hrule ht hequal (.mk he)
  · rw [hbare, hbare, hr]

theorem giveNothing_reread : (Stmt.give none span).Reread := by
  refine reread_of_sentence (fun _ => by rw [lines]) fun place => ?_
  refine (Denotes.lone (·.lexeme = .newline) (l := .keyword .returnWord) rfl trivial).map
    (f := fun t => .give none t.span) ?_ fun _ => ?_
  · rintro _ _ _ - ⟨ht⟩
    exact .giveNothing ht
  · simp only [bare, mapSpan, Option.map_none]

end Sentences

section Accesses

variable {e value : Expr} {name : String} {properties : List String} {target span : Span}

@[simp] theorem bare_expr (e : Expr) : (Stmt.expr e).bare = .expr e.bare := by
  rw [bare, mapSpan, Expr.bare]

@[simp] theorem bare_assignProperty (object : Expr) (properties : List String) (target : Span)
    (value : Expr) (span : Span) : (Stmt.assignProperty object properties target value span).bare =
      .assignProperty object.bare properties .origin value.bare .origin := by
  rw [bare, mapSpan, Expr.bare, Expr.bare]

theorem endsOperand_of_newline {next : Token} (h : next.lexeme = .newline) : EndsOperand next :=
  (Expr.endsWhole_of_eq h (by decide)).1

theorem access_reread (h : e.Canonical .access) (ho : e.opening? = some (.identifier name))
    (hs : e.standsAlone = true) : (Stmt.expr e).Reread := by
  have hv : e.isVariable = false := by cases e <;> first | rfl | cases hs
  refine reread_of_sentence (fun _ => by rw [lines]) fun place => ?_
  refine ((h.opened ho hv).of_follow fun _ => endsOperand_of_newline).map
    (f := fun r => .expr r.2) ?_ fun {r} hr => ?_
  · rintro _ next _ - (@⟨t, us, _, e', ht, hus, hoperand⟩)
    have haccess : Access place t.span (t :: us ++ []) next (.expr e') := .mk hoperand .expr
    rw [List.append_nil] at haccess
    obtain ⟨u, vs, rfl, hu⟩ := hus
    exact .access ht hu haccess
  · rw [bare_expr, bare_expr, hr]

theorem instanceCall_reread (h : e.Canonical .access) (ho : e.opening? = some (.instanceVar name))
    (hk : e.kind = .instanceMethodCall ∨ e.kind = .methodCall) : (Stmt.expr e).Reread := by
  have hv : e.isVariable = false := by cases e <;> first | rfl | cases hk <;> contradiction
  refine reread_of_sentence (fun _ => by rw [lines]) fun place => ?_
  refine ((h.opened ho hv).of_follow fun _ => endsOperand_of_newline).imp fun {r} hr => ?_
  have hkind : r.2.kind = e.kind := by
    rw [← Expr.kind_mapSpan (fun _ => .origin) r.2, ← Expr.kind_mapSpan (fun _ => .origin) e]
    exact congrArg Expr.kind hr
  refine ⟨.expr r.2, by rw [bare_expr, bare_expr, hr], fun {ts next} _ hrule => ?_⟩
  obtain ⟨t, e'⟩ := r
  cases hrule with
  | mk ht hus hoperand =>
    obtain ⟨u, vs, rfl, hu⟩ := hus
    rw [← hkind] at hk
    exact .instanceCall ht hu hoperand hk

theorem assigned_denotes {l : Lexeme} (h : e.Canonical .access) (ho : e.opening? = some l)
    (hvar : e.isVariable = false) (hv : value.Canonical .whole) :
    Denotes Loose (·.lexeme = .newline)
      (Pair (Expr.Opened l) (Pair (Single (.punct .equal)) Expression))
      (fun r => r.1.2.bare = e.bare ∧ r.2.2.bare = value.bare)
      (e.text ++ " = ".toList ++ value.text) := by
  rw [List.append_assoc]
  refine (h.opened ho hvar).blank (hv.line.after (l := .punct .equal) rfl trivial) Loose.blank ?_
  rintro _ _ _ ⟨⟨hequal⟩, _⟩
  exact (Expr.endsWhole_of_eq hequal (by decide)).1

theorem assignProperty_reread {object : Expr} (h : object.Canonical .base) (hne : properties ≠ [])
    (hp : ∀ p ∈ properties, isWord p = true) (ho : object.opening? = some (.identifier name))
    (hv : value.Canonical .whole) :
    (Stmt.assignProperty object properties target value span).Reread := by
  obtain ⟨s, hs⟩ : ∃ s, object.accessed .origin .origin properties =
      .propertyAccess object properties s := by
    cases properties with
    | nil => exact absurd rfl hne
    | cons p ps => cases object <;> first | exact ⟨_, rfl⟩ | cases ho
  have haccess := @Expr.Canonical.access object .origin .origin properties h hp
  rw [hs] at haccess
  refine reread_of_sentence (fun _ => by rw [lines]) fun place => ?_
  have hdenotes := assigned_denotes haccess ho rfl hv
  rw [Expr.text] at hdenotes
  refine hdenotes.imp fun {r} hr => ?_
  obtain ⟨⟨t, e'⟩, equal, value'⟩ := r
  obtain ⟨haccess', hvalue⟩ := hr
  obtain ⟨object', s', rfl, hobject⟩ := Expr.eq_propertyAccess_of_bare haccess'
  refine ⟨.assignProperty object' properties s' value' (t.span.join value'.span), ?_,
    fun {ts next} _ hrule => ?_⟩
  · rw [bare_assignProperty, bare_assignProperty, hobject, hvalue]
  · obtain ⟨⟨ht, ⟨u, vs, rfl, hu⟩, hoperand⟩, ⟨hequal⟩, he⟩ := hrule
    exact .access ht hu (.mk hoperand (.assign hequal (.mk he)))

theorem assignInstanceProperty_reread {s : Span} (hw : isWord name = true) (hne : properties ≠ [])
    (hp : ∀ p ∈ properties, isWord p = true) (hv : value.Canonical .whole) :
    (Stmt.assignProperty (.instanceVar name s) properties target value span).Reread := by
  obtain ⟨s₁, hs⟩ : ∃ s₁, (Expr.instanceVar name s).accessed .origin .origin properties =
      .instanceVarAccess name properties s₁ := by
    cases properties with
    | nil => exact absurd rfl hne
    | cons p ps => exact ⟨_, rfl⟩
  have haccess := @Expr.Canonical.access _ .origin .origin properties (.instanceVar (s := s) hw) hp
  rw [hs] at haccess
  refine reread_of_sentence (fun _ => by rw [lines, Expr.text]) fun place => ?_
  have hdenotes := assigned_denotes haccess rfl rfl hv
  rw [Expr.text] at hdenotes
  refine hdenotes.imp fun {r} hr => ?_
  obtain ⟨⟨t, e'⟩, equal, value'⟩ := r
  obtain ⟨haccess', hvalue⟩ := hr
  obtain ⟨s', rfl⟩ := Expr.eq_instanceVarAccess_of_bare haccess'
  refine ⟨.assignProperty (.instanceVar name t.span) properties s' value' (t.span.join value'.span),
    ?_, fun {ts next} _ hrule => ?_⟩
  · rw [bare_assignProperty, bare_assignProperty, hvalue]
    simp only [Expr.bare, Expr.mapSpan]
  · obtain ⟨⟨ht, ⟨u, vs, rfl, hu⟩, hoperand⟩, ⟨hequal⟩, he⟩ := hrule
    exact .instanceProperty ht hu hoperand hequal (.mk he)

end Accesses

end Stmt

/-! ### Blocks -/

theorem closing_denotes (level : Nat) (start : Span) :
    LinesDenote level (Keyed (Closing start)) (fun _ => True)
      [Text.indented level "end".toList] := by
  have hword := Denotes.lone (·.lexeme = .newline) (l := .keyword .endWord) rfl trivial
  refine (LinesDenote.line hword level).map (f := fun t => start.join t.span) ?_ fun _ => trivial
  rintro _ next t (@⟨_, le, _, _, ⟨ht⟩, hle⟩)
  have hclosing : Closing start ([] ++ t :: le) next (start.join t.span) := .mk Newlines.nil ht hle
  exact ⟨⟨t, le, rfl, by rw [ht]; rfl⟩, hclosing⟩

theorem StatementRule.opens {place : Place} {ts : List Token} {next : Token} {s : Stmt}
    (h : StatementRule place ts next s) : ∃ t us, ts = t :: us ∧ Opens t := by
  obtain ⟨t, us, rfl, ht⟩ := h.starts
  refine ⟨t, us, rfl, ?_, ?_, ?_⟩ <;> intro hl <;> rw [hl] at ht <;> cases ht

theorem statements_denote {body : List Stmt} (h : ∀ s ∈ body, s.Reread) (place : Place)
    (level : Nat) :
    EntryLines level (Appends (StatementRule place)) []
      (fun body' => body'.map Stmt.bare = body.map Stmt.bare)
        (body.flatMap (Stmt.lines level)) := by
  refine EntryLines.flatMap (fun done body' => List.map Stmt.bare body' = done.map Stmt.bare)
    (fun done before s hs hbefore => ?_) [] rfl
  refine LinesDenote.entries (?_ : LinesDenote level _ _ _) fun ⟨h⟩ => h.opens
  refine (h s hs place level).map (f := fun s' => before ++ [s']) .mk fun {s'} hs' => ?_
  rw [List.map_append, List.map_append, hbefore]
  exact congrArg (done.map Stmt.bare ++ [·]) hs'

/-! ### Functions -/

theorem typed_denotes {rule : Rule α} {same : α → Prop} {cs : List Char} {type : Option String}
    (h : Denotes Tight (fun _ => True) rule same cs)
    (ht : ∀ t ∈ type, (Lexeme.identifier t).WellFormed) :
    Denotes Loose (·.lexeme ≠ .punct .colon) (Pair rule OptionalType)
      (fun r => same r.1 ∧ r.2 = type) (cs ++ Text.ofType type) := by
  cases type with
  | none =>
    intro source line column
    obtain ⟨ts, a, hlex, ha, hrule⟩ := h source line column
    refine ⟨ts, (a, none), ?_, ⟨ha, rfl⟩, fun next hnext => ?_⟩
    · rw [Text.ofType, List.append_nil]
      exact hlex.mono fun _ => Loose.tight
    · have hthen : Pair rule OptionalType (ts ++ []) next (a, none) :=
        .mk (hrule _ trivial) (.none hnext)
      rwa [List.append_nil] at hthen
  | some type =>
    have htype := Denotes.lone (·.lexeme ≠ .punct .colon) (l := .identifier type) rfl (ht type rfl)
    have hcolon := htype.after (l := .punct .colon) rfl trivial
    have hall := h.blank hcolon (fun _ => (Loose.blank _).tight) fun _ => trivial
    refine hall.map (f := fun r => (r.1, some type)) ?_ fun hr => ⟨hr.1, rfl⟩
    rintro _ _ _ - ⟨hrule, ⟨⟨hcolon⟩, ⟨htype⟩⟩⟩
    exact .mk hrule (.some hcolon htype)

theorem Param.WellFormed.denotes {p : Param} (h : p.WellFormed) :
    Denotes Loose (·.lexeme ≠ .punct .colon) ParamRule (fun q => id q = id p) p.text := by
  have hname := @Denotes.token Tight (.identifier p.name) rfl h.1 fun _ hrest =>
    Tight.stopsAt hrest (by simp)
  refine (typed_denotes hname h.2).map (f := fun r => ⟨p.name, r.2⟩) ?_ fun hr => ?_
  · rintro _ _ _ - ⟨⟨ht⟩, htype⟩
    exact .mk ht htype
  · rw [hr.2]

theorem Lexeme.text_of_functionName? {l : Lexeme} {name : String}
    (h : l.functionName? = some name) :
    l.isPlain = true ∧ l.text = name ∧ ∀ raw, l ≠ .number raw := by
  unfold functionName? at h
  split at h <;> cases h <;> exact ⟨rfl, rfl, by simp⟩

abbrev HeaderRule (l : Lexeme) : Rule (Token × (Token × List Param) × Option String) :=
  Pair (Single (.keyword .defWord))
    (Pair (Pair (Single l) (Parenthesized (Separated ParamRule))) OptionalType)

namespace FunctionOf

def bare (f : FunctionDecl) : FunctionDecl := f.mapSpan fun _ => .origin

theorem WellFormed.header_denotes {f : FunctionDecl} {l : Lexeme} (h : f.WellFormed)
    (hl : l.WellFormed) (hname : l.functionName? = some f.name) :
    Denotes Loose (·.lexeme = .newline) (HeaderRule l)
      (fun r => r.2.1.2 = f.params ∧ r.2.2 = f.returnType) f.header := by
  obtain ⟨hplain, htext, hnumber⟩ := Lexeme.text_of_functionName? hname
  have hlexeme := @Denotes.token Tight l hplain hl fun _ hrest => Tight.stopsAt hrest hnumber
  have hparams := Denotes.arguments (fun t ht => by simp [ht]) (fun t ht => by simp [ht])
    fun p hp => (h.params p hp).denotes
  have hseq := hlexeme.seq hparams (fun _ _ => Expr.tight_of_head (by simp) _) fun _ => trivial
  have htyped := (typed_denotes hseq h.returnType).of_follow
    (fun next (hnext : next.lexeme = .newline) => by simp [hnext])
  rw [htext] at htyped
  unfold header
  rw [List.append_assoc, List.append_assoc, ← List.append_assoc f.name.toList]
  refine (htyped.after (l := .keyword .defWord) rfl trivial).map (f := id) (fun _ h => h) fun hr =>
    ?_
  exact ⟨by simpa using hr.1.2, hr.2⟩

/-- A body that was read before is not changed when it is read again: had it been a single call, it
would be a value by now. -/
theorem WellFormed.bare_giveCall {f : FunctionDecl} {body : List Stmt} (h : f.WellFormed)
    (hbody : body.map Stmt.bare = f.body.map Stmt.bare) :
    (giveCall body).map Stmt.bare = f.body.map Stmt.bare := by
  calc (giveCall body).map Stmt.bare
    _ = giveCall (body.map Stmt.bare) := (giveCall_mapSpan ..).symm
    _ = giveCall (f.body.map Stmt.bare) := by rw [hbody]
    _ = (giveCall f.body).map Stmt.bare := giveCall_mapSpan ..
    _ = f.body.map Stmt.bare := by rw [h.body]

theorem WellFormed.denotes {f : FunctionDecl} (h : f.WellFormed) (hbody : ∀ s ∈ f.body, s.Reread)
    (level : Nat) :
    LinesDenote level (FunctionLevel StatementRule) (fun f' => f'.bare = f.bare)
      (f.lines level) := by
  obtain ⟨l, hl, hname⟩ := h.name
  have hheaded := LinesDenote.headed (h.header_denotes hl hname)
    (statements_denote hbody .functionBody (level + 1)) fun r => closing_denotes level r.1.span
  refine hheaded.map
    (f := fun r => ⟨f.name, r.1.2.1.2, r.1.2.2, giveCall r.2.1, r.2.2⟩) ?_ fun {r} hr => ?_
  · rintro _ _ _ ⟨⟨⟨hd⟩, ⟨⟨⟨ht⟩, ⟨ho, hs, hc⟩⟩, htype⟩⟩, hblock, hclose⟩
    have hlevel := FunctionLevel.mk hd (ht ▸ hname) (.some ho hs hc) htype hblock hclose
    simpa using hlevel
  · obtain ⟨⟨hparams, htype⟩, hbody', -⟩ := hr
    simp only [bare, mapSpan, hparams, htype]
    exact congrArg (FunctionOf.mk f.name f.params f.returnType · .origin) (h.bare_giveCall hbody')

end FunctionOf

theorem FunctionOf.WellFormed.reread {f : FunctionDecl} (h : f.WellFormed)
    (hbody : ∀ s ∈ f.body, s.Reread) : (Stmt.function f).Reread := by
  intro place level
  rw [Stmt.lines_function]
  refine (h.denotes hbody level).map (f := .function)
    (fun h => statementRule_iff_level.2 (.function h)) fun {f'} hf => ?_
  rw [Stmt.bare, Stmt.bare, Stmt.mapSpan_function, Stmt.mapSpan_function]
  exact congrArg Stmt.function hf

/-! ### Classes -/

theorem Property.WellFormed.denotes {p : Property} (h : p.WellFormed)
    (members : List Property × List FunctionDecl) (level : Nat) :
    LinesDenote level (ClassMember StatementRule members)
      (fun members' => members' = (members.1 ++ [p], members.2))
      [Text.indented level p.text] := by
  have htype := Denotes.lone (·.lexeme = .newline) (l := .identifier p.type) rfl h.2
  have hline :=
    (htype.after (l := .punct .colon) rfl trivial).after (l := .identifier p.name) rfl h.1
  refine (LinesDenote.line hline level).map
    (f := fun _ => (members.1 ++ [p], members.2)) ?_ fun _ => rfl
  rintro _ next _ ⟨⟨⟨ht⟩, ⟨⟨hcolon⟩, ⟨htype⟩⟩⟩, hle⟩
  exact .property ht hcolon htype hle

theorem members_denote {properties : List Property} {methods : List FunctionDecl}
    (hp : ∀ p ∈ properties, p.WellFormed) (hm : ∀ f ∈ methods, f.WellFormed)
    (hbodies : ∀ f ∈ methods, ∀ s ∈ f.body, s.Reread) (level : Nat) :
    EntryLines level (ClassMember StatementRule) ([], [])
      (fun members => members.1 = properties ∧
        members.2.map FunctionOf.bare = methods.map FunctionOf.bare)
      (properties.map (fun p => Text.indented level p.text) ++
        methods.flatMap (FunctionOf.lines level)) := by
  have hproperties : EntryLines level (ClassMember StatementRule) ([], [])
      (fun members => members = (properties, []))
      (properties.flatMap fun p => [Text.indented level p.text]) := by
    refine EntryLines.flatMap (fun done members => members = (done, [])) ?_ [] rfl
    rintro done _ p hmem rfl
    exact ((hp p hmem).denotes (done, []) level).entries ClassMember.opens
  rw [← List.map_eq_flatMap] at hproperties
  refine hproperties.append ?_
  rintro _ rfl
  refine EntryLines.flatMap (fun done (members : List Property × List FunctionDecl) =>
    members.1 = properties ∧ members.2.map FunctionOf.bare =
      done.map FunctionOf.bare) ?_ [] ⟨rfl, rfl⟩
  -- The properties are complete when the first method comes.
  rintro done members f hmem ⟨hfst, hsnd⟩
  refine LinesDenote.entries ?_ ClassMember.opens
  refine ((hm f hmem).denotes (hbodies f hmem) level).map
    (f := fun f' => (members.1, members.2 ++ [f'])) .method fun {f'} hf => ⟨hfst, ?_⟩
  rw [List.map_append, List.map_append, hsnd]
  exact congrArg (done.map FunctionOf.bare ++ [·]) hf

theorem class_reread {c : ClassDecl} (hname : (Lexeme.identifier c.name).WellFormed)
    (hp : ∀ p ∈ c.properties, p.WellFormed) (hm : ∀ f ∈ c.methods, f.WellFormed)
    (hbodies : ∀ f ∈ c.methods, ∀ s ∈ f.body, s.Reread) : (Stmt.classDecl c).Reread := by
  intro place level
  have hhead := (Denotes.lone (·.lexeme = .newline) (l := .identifier c.name) rfl hname).after
    (l := .keyword .classWord) rfl trivial
  have hheaded := LinesDenote.headed hhead (members_denote hp hm hbodies (level + 1))
    fun r => closing_denotes level r.1.span
  rw [Stmt.lines, Stmt.linesFunctions_eq_flatMap]
  refine hheaded.map (f := fun r => .classDecl ⟨c.name, r.2.1.1, r.2.1.2, r.2.2⟩) ?_ fun {r} hr =>
    ?_
  · rintro _ _ _ ⟨⟨⟨hk⟩, ⟨ht⟩⟩, hblock, hclose⟩
    exact statementRule_iff_level.2 (.classDecl (.mk hk ht hblock hclose))
  · obtain ⟨-, ⟨hproperties, hmethods⟩, -⟩ := hr
    rw [Stmt.bare, Stmt.bare, Stmt.mapSpan_classDecl, Stmt.mapSpan_classDecl, ClassOf.mapSpan,
      ClassOf.mapSpan, hproperties]
    exact congrArg (fun methods => Stmt.classDecl ⟨c.name, c.properties, methods, .origin⟩) hmethods

/-! ### Branches -/

inductive BranchTail (statement : Rule Stmt) (start : Span) :
    Rule (List Elsif × (Bool × List Stmt) × Span)
  | mk {ws xs ys next elsifs otherwise span} : Elsifs statement ws ((xs ++ ys).headD next) elsifs →
    Otherwise statement xs (ys.headD next) otherwise → Closing start ys next span →
    BranchTail statement start (ws ++ xs ++ ys) next (elsifs, otherwise, span)

theorem BranchTail.cons {statement : Rule Stmt} {start : Span} {t next : Token}
    {us vs ws : List Token} {condition : Expr} {body : List Stmt}
    {r : List Elsif × (Bool × List Stmt) × Span} (ht : t.lexeme = .keyword .elsif)
    (he : Expression us ((vs ++ ws).headD next) condition)
    (hb : Block (Appends statement) [] vs (ws.headD next) body)
    (htail : BranchTail statement start ws next r) :
    BranchTail statement start (t :: us ++ vs ++ ws) next (⟨condition, body⟩ :: r.1, r.2) := by
  cases htail with
  | @mk ws xs ys _ elsifs otherwise span hrest ho hc =>
    rw [List.append_assoc ws, ← List.append_assoc vs, headD_append] at he
    rw [List.append_assoc ws, headD_append] at hb
    have htail := BranchTail.mk (.cons Newlines.nil ht he hb hrest) ho hc
    simpa using htail

theorem Keyed.closing_head {start span : Span} {ts : List Token} {next : Token}
    (h : Keyed (Closing start) ts next span) : (ts.headD next).lexeme = .keyword .endWord := by
  obtain ⟨hstarts, hclosing⟩ := h
  cases hclosing with
  | @mk ns e le _ hns he _ =>
    cases ns with
    | nil => exact he
    | cons n ns =>
      have hn : n.lexeme = .newline := hns n List.mem_cons_self
      exact absurd hn (@StartsWith.lexeme_ne _ _ .newline next hstarts rfl)

theorem otherwise_denotes {otherwise : List Stmt} {hasElse : Bool}
    (hne : hasElse = false → otherwise = []) (h : ∀ s ∈ otherwise, s.Reread) (place : Place)
    (level : Nat) (start : Span) :
    LinesDenote level (Keyed (BranchTail (StatementRule place) start))
      (fun r => r.1 = [] ∧ r.2.1.1 = hasElse ∧ r.2.1.2.map Stmt.bare = otherwise.map Stmt.bare)
      ((if hasElse then
        Text.indented level "else".toList :: otherwise.flatMap (Stmt.lines (level + 1))
        else []) ++ [Text.indented level "end".toList]) := by
  cases hasElse with
  | false =>
    refine (closing_denotes level start).map (f := fun span => ([], (false, []), span)) ?_
      fun _ => ⟨rfl, rfl, by rw [hne rfl]⟩
    intro ts next span hclosing
    have hend {l : Lexeme} (hl : .keyword .endWord ≠ l) : (ts.headD next).lexeme ≠ l := by
      rwa [hclosing.closing_head]
    have htail : BranchTail (StatementRule place) start ([] ++ [] ++ ts)
        next ([], (false, []), span) :=
      .mk (.nil Newlines.nil (hend (by simp)) (hend (by simp))) (.none (hend (by simp))) hclosing.2
    exact ⟨hclosing.1, htail⟩
  | true =>
    have hword := Denotes.lone (·.lexeme = .newline) (l := .keyword .elseWord) rfl trivial
    have hheaded := LinesDenote.headed hword
      (statements_denote h place (level + 1)) fun _ => closing_denotes level start
    refine hheaded.map (f := fun r => ([], (true, r.2.1), r.2.2)) ?_ fun hr => ⟨rfl, rfl, hr.2.1⟩
    rintro _ next _ (@⟨_, vs, ws, _, t, body, span, ⟨ht⟩, hblock, hclose⟩)
    have htail : BranchTail (StatementRule place) start ([] ++ (t :: vs) ++ ws) next
        ([], (true, body), span) :=
      .mk (.nil Newlines.nil (by simp [ht]) (by simp [ht])) (.some ht hblock) hclose
    exact ⟨⟨t, _, rfl, by rw [ht]; rfl⟩, htail⟩

def ElsifOf.bare (e : Elsif) : Elsif := e.mapSpan fun _ => .origin

theorem Stmt.bare_branch (condition : Expr) (body otherwise : List Stmt) (elsifs : List Elsif)
    (hasElse : Bool) (s : Span) : (Stmt.branch condition body elsifs otherwise hasElse s).bare =
      .branch condition.bare (body.map bare) (elsifs.map ElsifOf.bare) (otherwise.map bare) hasElse
        .origin := by
  rw [bare, mapSpan, mapSpanAll_eq_map, mapSpanAll_eq_map, mapSpanElsifs_eq_map]
  rfl

theorem branchTail_denotes {elsifs : List Elsif} {otherwise : List Stmt} {hasElse : Bool}
    (hconditions : ∀ e ∈ elsifs, e.condition.Canonical .whole)
    (hbodies : ∀ e ∈ elsifs, ∀ s ∈ e.body, s.Reread)
    (hne : hasElse = false → otherwise = []) (h : ∀ s ∈ otherwise, s.Reread) (place : Place)
    (level : Nat) (start : Span) :
    LinesDenote level (Keyed (BranchTail (StatementRule place) start))
      (fun r => r.1.map ElsifOf.bare = elsifs.map ElsifOf.bare ∧ r.2.1.1 = hasElse ∧
        r.2.1.2.map Stmt.bare = otherwise.map Stmt.bare)
      (elsifs.flatMap (ElsifOf.lines level) ++
        ((if hasElse then
          Text.indented level "else".toList :: otherwise.flatMap (Stmt.lines (level + 1))
            else []) ++
        [Text.indented level "end".toList])) := by
  -- Each clause is headed by its condition, and what follows its block is the tail of the shorter
  -- list.
  induction elsifs with
  | nil =>
    refine (otherwise_denotes hne h place level start).map (f := id) id fun {r} hr => ?_
    exact ⟨congrArg (List.map ElsifOf.bare) hr.1, hr.2⟩
  | cons e elsifs ih =>
    have htail := ih (fun e he => hconditions e (List.mem_cons_of_mem _ he))
      fun e he => hbodies e (List.mem_cons_of_mem _ he)
    have hhead := (hconditions e List.mem_cons_self).line.after (l := .keyword .elsif) rfl trivial
    have hheaded := LinesDenote.headed hhead
      (statements_denote (hbodies e List.mem_cons_self) place (level + 1)) fun _ => htail
    rw [List.flatMap_cons, List.append_assoc]
    refine hheaded.map
      (f := fun r => (⟨r.1.2, r.2.1⟩ :: r.2.2.1, r.2.2.2)) ?_ fun {r} hr => ⟨?_, hr.2.2.2⟩
    · rintro _ next _ ⟨⟨⟨ht⟩, he⟩, hblock, htail⟩
      exact ⟨⟨_, _, rfl, by rw [ht]; rfl⟩, .cons ht he hblock htail⟩
    · refine List.cons_eq_cons.2 ⟨?_, hr.2.2.1⟩
      rw [ElsifOf.bare, ElsifOf.bare, ElsifOf.mapSpan, ElsifOf.mapSpan]
      exact ElsifOf.mk.injEq .. ▸ ⟨hr.1, hr.2.1⟩

theorem branch_reread {condition : Expr} {body otherwise : List Stmt} {elsifs : List Elsif}
    {hasElse : Bool} {span : Span} (hcondition : condition.Canonical .whole)
    (hbody : ∀ s ∈ body, s.Reread) (hconditions : ∀ e ∈ elsifs, e.condition.Canonical .whole)
    (hbodies : ∀ e ∈ elsifs, ∀ s ∈ e.body, s.Reread) (hne : hasElse = false → otherwise = [])
    (h : ∀ s ∈ otherwise, s.Reread) :
    (Stmt.branch condition body elsifs otherwise hasElse span).Reread := by
  intro place level
  have hheaded := LinesDenote.headed (hcondition.line.after (l := .keyword .ifWord) rfl trivial)
    (statements_denote hbody place.block (level + 1))
    fun r => branchTail_denotes hconditions hbodies hne h place.block level r.1.span
  rw [Stmt.lines, Stmt.linesAll_eq_flatMap, Stmt.linesAll_eq_flatMap, Stmt.linesElsifs_eq_flatMap,
    List.append_assoc, List.append_assoc]
  refine hheaded.map
    (f := fun r => .branch r.1.2 r.2.1 r.2.2.1 r.2.2.2.1.2 r.2.2.2.1.1 r.2.2.2.2) ?_
    fun {r} hr => ?_
  · rintro _ next _ ⟨⟨⟨ht⟩, he⟩, hblock, @⟨ws, xs, ys, _, elsifs, otherwise, span, hrest, ho, hc⟩⟩
    have hlevel := BranchLevel.mk ht (by simpa using he) (by simpa using hblock) hrest ho hc
    exact statementRule_iff_level.2 (.branch (by simpa using hlevel))
  · obtain ⟨hcondition', hbody', helsifs, hhas, hotherwise⟩ := hr
    rw [Stmt.bare_branch, Stmt.bare_branch, hcondition', hbody', helsifs, hhas, hotherwise]

/-! ### Every statement -/

theorem Stmt.Canonical.reread {s : Stmt} (h : s.Canonical) : s.Reread := by
  induction h with
  | function hf _ ih => exact hf.reread ih
  | classDecl hname hp hm _ ih => exact class_reread hname hp hm ih
  | @assign name value span hw hv =>
    exact reread_of_assignment (.identifier name) (.assign name) rfl hw hv
      (fun _ => by rw [lines]; rfl) (fun _ _ => by rw [Stmt.bare, mapSpan, Expr.bare]) .assign
  | assignProperty hobject hne hp ho hv => exact assignProperty_reread hobject hne hp ho hv
  | assignInstanceProperty hw hne hp hv => exact assignInstanceProperty_reread hw hne hp hv
  | @assignInstanceVar name value span hw hv =>
    exact reread_of_assignment (.instanceVar name) (.assignInstanceVar name) rfl hw hv
      (fun _ => by rw [lines, Expr.text_instanceVar])
      (fun _ _ => by rw [Stmt.bare, mapSpan, Expr.bare]) .assignInstanceVar
  | print hv =>
    exact reread_of_keyword .print .print hv (fun _ => by rw [lines]; rfl)
      (fun _ _ => by rw [Stmt.bare, mapSpan, Expr.bare]) .print
  | give hv =>
    exact reread_of_keyword .returnWord (fun e => .give (some e)) hv (fun _ => by rw [lines]; rfl)
      (fun _ _ => by rw [Stmt.bare, mapSpan]; rfl) .give
  | giveNothing => exact giveNothing_reread
  | branch hcondition _ hconditions _ hne _ ihb ihe iho =>
    exact branch_reread hcondition ihb hconditions ihe hne iho
  | access he ho hs => exact access_reread he ho hs
  | instanceCall he ho hk => exact instanceCall_reread he ho hk

end LayoutScript

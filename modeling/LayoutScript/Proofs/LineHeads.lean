import LayoutScript.Proofs.LineEnds

/-! Lines and levels in a list of tokens. A walk over tokens counts the levels that are open and
notes the first lexeme of every line that stands where the walk began. Blocks are walked over
without a note, so the notes tell where a statement or a member of a component starts and where it
ends. -/
namespace LayoutScript

/-- Where a walk over tokens stands. -/
structure Standing where
  depth : Nat
  fresh : Bool

namespace Standing

def step (m : Standing) : Lexeme → Standing
  | .newline => ⟨m.depth, true⟩
  | .indent => ⟨m.depth + 1, m.fresh⟩
  | .dedent => ⟨m.depth - 1, m.fresh⟩
  | .eof => m
  | _ => ⟨m.depth, false⟩

def pass (m : Standing) (ts : List Token) : Standing := ts.foldl (fun m t => m.step t.lexeme) m

def heads : Standing → List Token → List Lexeme
  | _, [] => []
  | m, t :: ts =>
    let rest := heads (m.step t.lexeme) ts
    if m.fresh && m.depth == 0 && t.lexeme.isSolid then t.lexeme :: rest else rest

@[simp] theorem pass_append (m : Standing) (ts us : List Token) :
    m.pass (ts ++ us) = (m.pass ts).pass us := List.foldl_append ..

@[simp] theorem heads_append (m : Standing) (ts us : List Token) :
    m.heads (ts ++ us) = m.heads ts ++ (m.pass ts).heads us := by
  induction ts generalizing m with
  | nil => rfl
  | cons t ts ih =>
    rw [List.cons_append, heads, heads, ih]
    split <;> rfl

theorem step_of_isSolid {l : Lexeme} (h : l.isSolid = true) (m : Standing) :
    m.step l = ⟨m.depth, false⟩ := by
  cases l <;> first | rfl | cases h

end Standing

/-- A walk over `ts` goes from `m` to `m'` and notes `hs`. -/
structure Walks (m : Standing) (ts : List Token) (hs : List Lexeme) (m' : Standing) : Prop where
  heads : m.heads ts = hs
  pass : m.pass ts = m'

def Solid (ts : List Token) : Prop := ∀ t ∈ ts, t.lexeme.isSolid = true

theorem Solid.nil : Solid [] := fun _ h => absurd h List.not_mem_nil

theorem Solid.cons {t : Token} {ts : List Token} (ht : t.lexeme.isSolid = true) (h : Solid ts) :
    Solid (t :: ts) := List.forall_mem_cons.2 ⟨ht, h⟩

theorem Solid.append {ts us : List Token} (ht : Solid ts) (hu : Solid us) : Solid (ts ++ us) :=
  List.forall_mem_append.2 ⟨ht, hu⟩

namespace Walks

variable {m m' m'' : Standing} {t : Token} {ts us : List Token} {hs hs' : List Lexeme} {d : Nat}
  {b : Bool}

theorem nil : Walks m [] [] m := ⟨rfl, rfl⟩

theorem append (h : Walks m ts hs m') (h' : Walks m' us hs' m'') :
    Walks m (ts ++ us) (hs ++ hs') m'' := by
  constructor
  · rw [Standing.heads_append, h.heads, h.pass, h'.heads]
  · rw [Standing.pass_append, h.pass, h'.pass]

theorem trans (h : Walks m ts [] m') (h' : Walks m' us hs m'') : Walks m (ts ++ us) hs m'' :=
  h.append h'

theorem rest (h : Walks m (ts ++ us) hs m'') (ht : Walks m ts hs' m') :
    ∃ hs'', Walks m' us hs'' m'' := by
  refine ⟨m'.heads us, rfl, ?_⟩
  rw [← h.pass, Standing.pass_append, ht.pass]

theorem newline (ht : t.lexeme = .newline) : Walks m [t] [] ⟨m.depth, true⟩ := by
  constructor
  · simp [Standing.heads, ht, Lexeme.isSolid, Lexeme.kind, TokenKind.isLayout]
  · simp [Standing.pass, Standing.step, ht]

theorem indent (ht : t.lexeme = .indent) : Walks m [t] [] ⟨m.depth + 1, m.fresh⟩ := by
  constructor
  · simp [Standing.heads, ht, Lexeme.isSolid, Lexeme.kind, TokenKind.isLayout]
  · simp [Standing.pass, Standing.step, ht]

theorem dedent (ht : t.lexeme = .dedent) : Walks m [t] [] ⟨m.depth - 1, m.fresh⟩ := by
  constructor
  · simp [Standing.heads, ht, Lexeme.isSolid, Lexeme.kind, TokenKind.isLayout]
  · simp [Standing.pass, Standing.step, ht]

theorem head (ht : t.lexeme.isSolid = true) : Walks ⟨0, true⟩ [t] [t.lexeme] ⟨0, false⟩ := by
  constructor
  · simp [Standing.heads, ht]
  · simp [Standing.pass, Standing.step_of_isSolid ht]

theorem solid (h : Solid ts) (hm : m.fresh = false ∨ 0 < m.depth) :
    ∃ b, Walks m ts [] ⟨m.depth, b⟩ := by
  induction ts generalizing m with
  | nil => exact ⟨m.fresh, .nil⟩
  | cons t ts ih =>
    have ht := h t List.mem_cons_self
    have hfirst : Walks m [t] [] ⟨m.depth, false⟩ := by
      constructor
      · rcases hm with hm | hm
        · simp [Standing.heads, hm]
        · simp [Standing.heads, Nat.ne_of_gt hm]
      · simp [Standing.pass, Standing.step_of_isSolid ht]
    obtain ⟨b, hrest⟩ :=
      @ih ⟨m.depth, false⟩ (fun u hu => h u (List.mem_cons_of_mem _ hu)) (.inl rfl)
    exact ⟨b, hfirst.trans hrest⟩

theorem newlines (h : Newlines ts) : Walks ⟨d, true⟩ ts [] ⟨d, true⟩ := by
  induction ts with
  | nil => exact .nil
  | cons t ts ih =>
    have hfirst : Walks ⟨d, true⟩ [t] [] ⟨d, true⟩ := .newline (h t List.mem_cons_self)
    exact hfirst.trans (ih fun u hu => h u (List.mem_cons_of_mem _ hu))

end Walks

def Deep (ts : List Token) : Prop := ∀ d, Walks ⟨d + 1, true⟩ ts [] ⟨d + 1, true⟩

theorem Deep.append {ts us : List Token} (ht : Deep ts) (hu : Deep us) : Deep (ts ++ us) :=
  fun d => (ht d).trans (hu d)

def Hangs (ts : List Token) : Prop := ∀ d b, Walks ⟨d, b⟩ ts [] ⟨d, true⟩

section Hangs

variable {t : Token} {ts us : List Token}

theorem Hangs.deep (hs : Solid ts) (h : Hangs us) : Deep (ts ++ us) := by
  intro d
  obtain ⟨b, hsolid⟩ := @Walks.solid ⟨d + 1, true⟩ ts hs (.inr (Nat.succ_pos d))
  exact hsolid.trans (h (d + 1) b)

theorem Hangs.head (ht : t.lexeme.isSolid = true) (hs : Solid ts) (h : Hangs us) :
    Walks ⟨0, true⟩ (t :: ts ++ us) [t.lexeme] ⟨0, true⟩ := by
  obtain ⟨b, hsolid⟩ := @Walks.solid ⟨0, false⟩ ts hs (.inl rfl)
  exact (Walks.head ht).append (hsolid.trans (h 0 b))

end Hangs

theorem LineEnd.hangs {le : List Token} {next : Token} (h : LineEnd le next)
    (hnext : next.lexeme ≠ .eof) : Hangs le := by
  cases h with
  | newline ht => exact fun d b => .newline ht
  | eof heof => exact absurd heof hnext

theorem Lexeme.isSolid_of_ne {l : Lexeme} (heof : l ≠ .eof) (hindent : l ≠ .indent)
    (hdedent : l ≠ .dedent) (hnewline : l ≠ .newline) : l.isSolid = true := by
  cases l <;> first | rfl | exact isSolid_punct _ | contradiction

/-- Nothing but a newline token stands between solid tokens and the layout of the next line. -/
def Tidy (ts : List Token) : Prop := ∀ us t u vs, ts = us ++ t :: u :: vs →
  t.lexeme.isSolid = true → u.lexeme ≠ .indent ∧ u.lexeme ≠ .dedent

namespace Tidy

variable {ts us : List Token}

theorem nil : Tidy [] := by
  intro us t u vs heq
  simp at heq

theorem left (h : Tidy (ts ++ us)) : Tidy ts := by
  rintro vs t u ws rfl
  apply h vs t u (ws ++ us)
  simp

theorem right (h : Tidy (ts ++ us)) : Tidy us := by
  rintro vs t u ws rfl
  apply h (ts ++ vs) t u ws
  simp

theorem tail {t : Token} (h : Tidy (t :: ts)) : Tidy ts := @right [t] ts h

/-- After solid tokens, the rest of a line is solid. -/
theorem solid_of_solid {next : Token} (h : Tidy (ts ++ us)) (hs : Solid ts) (hne : ts ≠ [])
    (hr : RestOfLine us next) : Solid us := by
  have hinside := hr.inside
  clear hr
  induction us generalizing ts with
  | nil => exact .nil
  | cons u us ih =>
    obtain ⟨vs, t, hts⟩ := (List.eq_nil_or_concat ts).resolve_left hne
    rw [List.concat_eq_append] at hts
    have ht : t.lexeme.isSolid = true := hs t (by simp [hts])
    have hlayout := h vs t u us (by simp [hts]) ht
    have hline := hinside u List.mem_cons_self
    have hu : u.lexeme.isSolid = true := by
      unfold Markup.endsLine at hline
      apply Lexeme.isSolid_of_ne _ hlayout.1 hlayout.2
      · intro heof
        simp [heof] at hline
      · intro hnewline
        simp [hnewline] at hline
    refine .cons hu (@ih (ts ++ [u]) ?_ (hs.append (.cons hu .nil)) (by simp) ?_)
    · rwa [List.append_assoc]
    · exact fun v hv => hinside v (List.mem_cons_of_mem _ hv)

end Tidy

/-! ### Phrases within a line -/

theorem isSolid_of_eq {t : Token} {l : Lexeme} (h : t.lexeme = l) (hl : l.isSolid = true) :
    t.lexeme.isSolid = true := h ▸ hl

theorem isSolid_of_punct {t : Token} {p : Punct} (h : t.lexeme = .punct p) :
    t.lexeme.isSolid = true := isSolid_of_eq h (Lexeme.isSolid_punct p)

section Phrases

variable {ts : List Token} {next prev : Token}

theorem Separated.solid {item : Rule α} {as : List α}
    (hitem : ∀ {ts next a}, item ts next a → Solid ts) (h : Separated item ts next as) :
    Solid ts := by
  induction h with
  | none => exact .nil
  | last ha => exact hitem ha
  | cons ha hc _ ih => exact (hitem ha).append (.cons (isSolid_of_punct hc) ih)

namespace Expr

variable {E : Rule Expr} {e : Expr}

theorem Arguments.solid {r : List Expr × Span} (hE : ∀ {ts next e}, E ts next e → Solid ts)
    (h : Arguments E ts next r) : Solid ts := by
  cases h with
  | mk ho hs hc =>
    exact .append (.cons (isSolid_of_punct ho) (hs.solid hE)) (.cons (isSolid_of_punct hc) .nil)

theorem Head.solid (hE : ∀ {ts next e}, E ts next e → Solid ts) (h : Head E ts next e) :
    Solid ts := by
  cases h with
  | identifier ht _ | instanceVar ht _ => exact .cons (isSolid_of_eq ht rfl) .nil
  | call ht ha | instanceCall ht ha => exact .cons (isSolid_of_eq ht rfl) (ha.solid hE)

theorem Chain.solid {start last : Span} {base : Expr} {properties : List String}
    (hE : ∀ {ts next e}, E ts next e → Solid ts)
    (h : Chain E start last base properties ts next e) :
    Solid ts := by
  induction h with
  | stop _ => exact .nil
  | property hd hw _ _ ih => exact .cons (isSolid_of_punct hd) (.cons (isSolid_of_name? hw) ih)
  | call hd hw ha _ ih =>
    exact .append (.cons (isSolid_of_punct hd) (.cons (isSolid_of_name? hw) (ha.solid hE))) ih

theorem Operand.solid (hE : ∀ {ts next e}, E ts next e → Solid ts) (h : Operand E ts next e) :
    Solid ts := by
  cases h with
  | atom ht => exact .cons (Lexeme.isSolid_of_startsOperand (startsOperand_of_atom? ht)) .nil
  | chain hh hc => exact (hh.solid hE).append (hc.solid hE)
  | new ht hw _ => exact .cons (isSolid_of_eq ht rfl) (.cons (isSolid_of_eq hw rfl) .nil)
  | newWith ht hw ha =>
    exact .cons (isSolid_of_eq ht rfl) (.cons (isSolid_of_eq hw rfl) (ha.solid hE))
  | group ho he hc =>
    exact .append (.cons (isSolid_of_punct ho) (hE he)) (.cons (isSolid_of_punct hc) .nil)
  | negative hm ht _ => exact .cons (isSolid_of_punct hm) (.cons (isSolid_of_eq ht rfl) .nil)

theorem Expression.solid (h : Expression ts next e) : Solid ts := by
  induction h with
  | of _ h ih =>
    cases h with
    | operand ho _ => exact ho.solid ih
    | binary ho hop _ he => exact (ho.solid ih).append (.cons (isSolid_of_punct hop) (ih he))

end Expr

open LayoutScript.Expr (isSolid_of_name?)

theorem DashTail.solid {name result : String} (h : DashTail prev name ts next result) :
    Solid ts := by
  induction h with
  | stop _ => exact .nil
  | more hd hw _ ih => exact .cons (isSolid_of_punct hd.1) (.cons (isSolid_of_name? hw) ih)

theorem DashedName.solid {name : String} (h : DashedName ts next name) : Solid ts := by
  cases h with
  | mk ht htail => exact .cons (isSolid_of_name? ht) htail.solid

theorem Optional.solid {l : Lexeme} (hl : l.isSolid = true) (h : Optional l ts next) :
    Solid ts := by
  cases h with
  | none _ => exact .nil
  | some ht => exact .cons (isSolid_of_eq ht hl) .nil

theorem AttributeName.solid {name : String} (h : AttributeName ts next name) : Solid ts := by
  cases h with
  | plain hd _ => exact hd.solid
  | event hd hc he => exact hd.solid.append (.cons (isSolid_of_punct hc.1) he.solid)

theorem AttributeItems.solid {as : List Attribute} (h : AttributeItems ts next as) : Solid ts := by
  induction h with
  | nil => exact .nil
  | cons ha _ ih =>
    cases ha with
    | mk hn he hv ho =>
      have hvalue : Solid _ := .cons (isSolid_of_punct he) hv.solid
      exact ((hn.solid.append hvalue).append (ho.solid (Lexeme.isSolid_punct _))).append ih

theorem AttributeList.solid {as : List Attribute} (h : AttributeList prev ts next as) :
    Solid ts := by
  cases h with
  | none _ => exact .nil
  | some ho hs hc =>
    exact .append (.cons (isSolid_of_punct ho.1) hs.solid) (.cons (isSolid_of_punct hc) .nil)

theorem ClassList.solid {names : List String} (h : ClassList prev ts next names) : Solid ts := by
  induction h with
  | nil _ => exact .nil
  | cons hd hn _ ih => exact .append (.cons (isSolid_of_punct hd.1) hn.solid) ih

theorem OptionalType.solid {type : Option String} (h : OptionalType ts next type) : Solid ts := by
  cases h with
  | none _ => exact .nil
  | some hc ht => exact .cons (isSolid_of_punct hc) (.cons (isSolid_of_eq ht rfl) .nil)

theorem ParamList.solid {params : List Param} (h : ParamList ts next params) : Solid ts := by
  have hparam {ts : List Token} {next : Token} {p : Param} (h : ParamRule ts next p) :
      Solid ts := by
    cases h with
    | mk ht htype => exact .cons (isSolid_of_eq ht rfl) htype.solid
  cases h with
  | none _ => exact .nil
  | some ho hs hc =>
    exact .append (.cons (isSolid_of_punct ho) (hs.solid hparam)) (.cons (isSolid_of_punct hc) .nil)

theorem OptionalValue.solid {value : Option Expr} (h : OptionalValue ts next value) : Solid ts := by
  cases h with
  | none _ => exact .nil
  | some he hv => exact .cons (isSolid_of_punct he) hv.solid

theorem Valued.solid {start : Span} {make : Expr → Span → Stmt} {s : Stmt}
    (h : Valued start make ts next s) : Solid ts := by
  cases h with
  | mk he => exact he.solid

theorem Access.solid {place : Place} {start : Span} {s : Stmt} (h : Access place start ts next s) :
    Solid ts := by
  cases h with
  | mk ho ht =>
    refine (ho.solid Expr.Expression.solid).append ?_
    cases ht with
    | expr => exact .nil
    | assign he hv => exact .cons (isSolid_of_punct he) hv.solid
    | give _ hop _ he => exact .cons (isSolid_of_punct hop) he.solid

theorem Sentence.solid {place : Place} {s : Stmt} (h : Sentence place ts next s) : Solid ts := by
  cases h with
  | print ht hv | give ht hv => exact .cons (isSolid_of_eq ht rfl) hv.solid
  | giveNothing ht | bareCall _ ht => exact .cons (isSolid_of_eq ht rfl) .nil
  | text _ hv => exact hv.solid
  | assign ht he hv | assignInstanceVar ht he hv =>
    exact .cons (isSolid_of_eq ht rfl) (.cons (isSolid_of_punct he) hv.solid)
  | access _ _ ha => exact ha.solid
  | implicitGive _ _ _ _ he => exact he.solid
  | instanceCall _ _ ho _ => exact ho.solid Expr.Expression.solid
  | instanceProperty _ _ ho he hv =>
    exact (ho.solid Expr.Expression.solid).append (.cons (isSolid_of_punct he) hv.solid)

end Phrases

/-! ### Blocks -/

section Blocks

variable {entry : σ → Rule σ} {s s' : σ} {ts : List Token} {next : Token}

theorem Newlines.headD_ne_eof {ns : List Token} (h : Newlines ns) (hnext : next.lexeme ≠ .eof) :
    (ns.headD next).lexeme ≠ .eof := by
  cases ns with
  | nil => exact hnext
  | cons n ns =>
    have hn : n.lexeme = .newline := h n List.mem_cons_self
    rw [List.headD_cons, hn]
    simp

theorem Entries.head_ne_eof (h : Entries entry s ts next s') (other : Token) :
    (ts.headD other).lexeme ≠ .eof := by
  cases h with
  | close hns hd =>
    rw [headD_append]
    exact hns.headD_ne_eof (by simp [hd])
  | entry hns ho _ _ =>
    rw [List.append_assoc, headD_append]
    exact hns.headD_ne_eof ho.ne_eof

def EntriesDeep (entry : σ → Rule σ) : Prop :=
  ∀ s ts next s', Tidy ts → next.lexeme ≠ .eof → entry s ts next s' → Deep ts

theorem Entries.walks (hentry : EntriesDeep entry) (htidy : Tidy ts)
    (h : Entries entry s ts next s') (d : Nat) : Walks ⟨d + 1, true⟩ ts [] ⟨d, true⟩ := by
  induction h with
  | close hns hd => exact (Walks.newlines hns).trans (.dedent hd)
  | @entry s s₁ s' ns t ts us next hns _ he hes ih =>
    have hdeep : Deep (t :: ts) := by
      apply hentry _ _ _ _ _ (hes.head_ne_eof next) he
      exact htidy.left.right
    exact ((Walks.newlines hns).trans (hdeep d)).trans (ih htidy.right)

theorem Block.hangs (hentry : EntriesDeep entry) (htidy : Tidy ts) (hnext : next.lexeme ≠ .eof)
    (h : Block entry s ts next s') : Hangs ts := by
  cases h with
  | empty hle hns _ _ =>
    intro d b
    exact (hle.hangs (hns.headD_ne_eof hnext) d b).trans (.newlines hns)
  | indented hle hns hi hes =>
    intro d b
    have hend := hle.hangs (hns.headD_ne_eof (by simp [hi])) d b
    have hopen : Walks ⟨d, true⟩ [_] [] ⟨d + 1, true⟩ := .indent hi
    have hbody := hopen.trans (hes.walks hentry htidy.right.tail d)
    exact (hend.trans (.newlines hns)).trans hbody

theorem EntriesDeep.appends {rule : Rule α}
    (h : ∀ ts next a, Tidy ts → next.lexeme ≠ .eof → rule ts next a → Deep ts) :
    EntriesDeep (Appends rule) := by
  intro s ts next s' htidy hnext ha
  cases ha with
  | mk ha => exact h _ _ _ htidy hnext ha

end Blocks

/-! ### Declarations -/

def Enclosed (k : Keyword) (ts : List Token) : Prop :=
  ∃ us e newline, ts = us ++ [e, newline] ∧ e.lexeme = .keyword .endWord ∧
    newline.lexeme = .newline ∧ Walks ⟨0, true⟩ us [.keyword k] ⟨0, true⟩ ∧ Deep us

theorem Enclosed.deep {k : Keyword} {ts : List Token} (h : Enclosed k ts) : Deep ts := by
  obtain ⟨us, e, newline, rfl, he, hn, _, hdeep⟩ := h
  have hend : Hangs [newline] := fun d b => .newline hn
  exact hdeep.append (hend.deep (.cons (isSolid_of_eq he rfl) .nil))

section Declarations

variable {S : Place → Rule Stmt} {place : Place} {ts : List Token} {next : Token}

def StatementsDeep (S : Place → Rule Stmt) : Prop :=
  ∀ place ts next s, Tidy ts → next.lexeme ≠ .eof → S place ts next s → Deep ts

theorem Closing.head_ne_eof {start span : Span} (h : Closing start ts next span) (other : Token) :
    (ts.headD other).lexeme ≠ .eof := by
  cases h with
  | mk hns he _ =>
    rw [headD_append]
    exact hns.headD_ne_eof (by simp [he])

theorem Closing.enclosed {k : Keyword} {t : Token} {head block closing : List Token}
    {start span : Span} (hc : Closing start closing next span) (ht : t.lexeme = .keyword k)
    (hs : Solid head) (hb : Hangs block) (hnext : next.lexeme ≠ .eof) :
    Enclosed k (t :: head ++ block ++ closing) := by
  cases hc with
  | @mk ns e le _ hns he hle =>
    cases hle with
    | eof heof => exact absurd heof hnext
    | @newline newline _ hn =>
      have hsolid : t.lexeme.isSolid = true := isSolid_of_eq ht rfl
      have hwalk := (hb.head hsolid hs).append (.newlines hns)
      rw [ht] at hwalk
      exact ⟨t :: head ++ block ++ ns, e, newline, by simp, he, hn, hwalk,
        (hb.deep (.cons hsolid hs)).append fun d => .newlines hns⟩

theorem EntryBlock.enclosed {k : Keyword} {entries : List Entry} (htidy : Tidy ts)
    (hnext : next.lexeme ≠ .eof) (h : EntryBlock k ts next entries) : Enclosed k ts := by
  have hentry (ts : List Token) (next : Token) (e : Entry) (_ : Tidy ts)
      (hnext : next.lexeme ≠ .eof) (h : EntryRule ts next e) : Deep ts := by
    cases h with
    | mk ht hc hu hv hle =>
      have hline : Solid _ :=
        .cons (isSolid_of_eq ht rfl)
          (.cons (isSolid_of_punct hc) (.cons (isSolid_of_eq hu rfl) hv.solid))
      exact (hle.hangs hnext).deep hline
  cases h with
  | mk ht hb hc =>
    refine hc.enclosed ht .nil (hb.hangs (.appends hentry) ?_ (hc.head_ne_eof next)) hnext
    exact htidy.left.tail

theorem isSolid_of_functionName? {l : Lexeme} {name : String} (h : l.functionName? = some name) :
    l.isSolid = true := by
  cases l <;> first | rfl | cases h

theorem FunctionLevel.enclosed {f : FunctionDecl} (hS : StatementsDeep S) (htidy : Tidy ts)
    (hnext : next.lexeme ≠ .eof) (h : FunctionLevel S ts next f) : Enclosed .defWord ts := by
  cases h with
  | @mk d t us vs ws xs _ _ _ _ _ _ hd ht hp hr hb hc =>
    have hhead : Solid (t :: us ++ vs) :=
      .append (.cons (isSolid_of_functionName? ht) hp.solid) hr.solid
    have hbody := hb.hangs (.appends (hS _)) htidy.left.right (hc.head_ne_eof next)
    exact hc.enclosed hd hhead hbody hnext

theorem ClassLevel.enclosed {c : ClassDecl} (hS : StatementsDeep S) (htidy : Tidy ts)
    (hnext : next.lexeme ≠ .eof) (h : ClassLevel S ts next c) : Enclosed .classWord ts := by
  have hmember : EntriesDeep (ClassMember S) := by
    intro members ts next members' htidy hnext hm
    cases hm with
    | property ht hc hu hle =>
      have hline : Solid [_, _, _] :=
        .cons (isSolid_of_eq ht rfl)
          (.cons (isSolid_of_punct hc) (.cons (isSolid_of_eq hu rfl) .nil))
      exact (hle.hangs hnext).deep hline
    | method hf => exact (hf.enclosed hS htidy hnext).deep
  cases h with
  | @mk k t us vs _ _ _ _ hk ht hb hc =>
    have hbody := hb.hangs hmember htidy.left.tail.tail (hc.head_ne_eof next)
    exact hc.enclosed hk (.cons (isSolid_of_eq ht rfl) .nil) hbody hnext

theorem ElementRule.deep {e : Element} (h : ElementRule ts next e) (htidy : Tidy ts)
    (hnext : next.lexeme ≠ .eof) : Deep ts := by
  induction h with
  | of _ h ih =>
    cases h with
    | @mk t tag us vs ws xs _ _ _ _ ht hc ha hr hb =>
      have hline : Solid (t :: us ++ vs) :=
        .append (.cons (isSolid_of_eq ht rfl) hc.solid) ha.solid
      have hrest : Solid ws := htidy.left.solid_of_solid hline (by simp) hr
      have hchildren :=
        hb.hangs (.appends fun _ _ _ htidy hnext h => ih h htidy hnext) htidy.right hnext
      exact hchildren.deep (hline.append hrest)

theorem RenderRule.enclosed {r : RenderBlock} (htidy : Tidy ts) (hnext : next.lexeme ≠ .eof)
    (h : RenderRule ts next r) : Enclosed .render ts := by
  cases h with
  | mk ht hb hc =>
    have hbody := hb.hangs (.appends fun _ _ _ htidy hnext h => h.deep htidy hnext) htidy.left.tail
      (hc.head_ne_eof next)
    exact hc.enclosed ht .nil hbody hnext

theorem StyleRuleRule.deep {rule : StyleRule} (htidy : Tidy ts) (hnext : next.lexeme ≠ .eof)
    (h : StyleRuleRule ts next rule) : Deep ts := by
  have hdeclaration (ts : List Token) (next : Token) (d : StyleDeclaration) (_ : Tidy ts)
      (hnext : next.lexeme ≠ .eof) (h : StyleDeclarationRule ts next d) : Deep ts := by
    cases h with
    | mk hn hc hv hle =>
      exact (hle.hangs hnext).deep (hn.solid.append (.cons (isSolid_of_punct hc) hv.solid))
  cases h with
  | mk ho hn hb =>
    have hbody := hb.hangs (.appends hdeclaration) htidy.right hnext
    exact hbody.deep ((ho.solid (Lexeme.isSolid_punct _)).append hn.solid)

theorem StyleBlockRule.enclosed {b : StyleBlock} (htidy : Tidy ts) (hnext : next.lexeme ≠ .eof)
    (h : StyleBlockRule ts next b) : Enclosed .style ts := by
  cases h with
  | mk ht hb hc =>
    have hbody := hb.hangs (.appends fun _ _ _ htidy hnext h => h.deep htidy hnext) htidy.left.tail
      (hc.head_ne_eof next)
    exact hc.enclosed ht .nil hbody hnext

theorem ComponentMember.enclosed {c c' : ComponentDecl} (hS : StatementsDeep S) (htidy : Tidy ts)
    (hnext : next.lexeme ≠ .eof) (h : ComponentMember S c ts next c') : ∃ k, Enclosed k ts := by
  cases h with
  | props he | state he => exact ⟨_, he.enclosed htidy hnext⟩
  | method hf => exact ⟨_, hf.enclosed hS htidy hnext⟩
  | render _ hr => exact ⟨_, hr.enclosed htidy hnext⟩
  | style _ hs => exact ⟨_, hs.enclosed htidy hnext⟩

theorem ComponentLevel.enclosed {c : ComponentDecl} (hS : StatementsDeep S) (htidy : Tidy ts)
    (hnext : next.lexeme ≠ .eof) (h : ComponentLevel S ts next c) : Enclosed .component ts := by
  have hmember : EntriesDeep (ComponentMember S) := by
    intro c ts next c' htidy hnext hm
    obtain ⟨k, hk⟩ := hm.enclosed hS htidy hnext
    exact hk.deep
  cases h with
  | mk hk ht hb hc =>
    have hbody := hb.hangs hmember htidy.left.tail.tail (hc.head_ne_eof next)
    exact hc.enclosed hk (.cons (isSolid_of_eq ht rfl) .nil) hbody hnext

end Declarations

/-! ### Statements -/

/-- The words at the start of lines inside a statement that are not deeper than its first line. -/
def Lexeme.divides : Lexeme → Bool
  | .keyword .endWord | .keyword .elsif | .keyword .elseWord => true
  | _ => false

def Divided (ts : List Token) : Prop :=
  Deep ts ∧ ∃ hs, Walks ⟨0, true⟩ ts hs ⟨0, true⟩ ∧ ∀ h ∈ hs, h.divides = true

/-- The lines of a statement: only the first of those that are not deeper starts with another
word. -/
def Outlined (ts : List Token) : Prop :=
  Deep ts ∧ ∃ l hs, Walks ⟨0, true⟩ ts (l :: hs) ⟨0, true⟩ ∧ ∀ h ∈ hs, h.divides = true

section Statements

variable {S : Place → Rule Stmt} {R : Rule Stmt} {place : Place} {t : Token} {ts us vs : List Token}
  {next : Token}

theorem Newlines.divided (h : Newlines ts) : Divided ts :=
  ⟨fun _ => .newlines h, [], .newlines h, by simp⟩

theorem Divided.append (ht : Divided ts) (hu : Divided us) : Divided (ts ++ us) := by
  obtain ⟨hdeep, hs, hwalk, hall⟩ := ht
  obtain ⟨hdeep', hs', hwalk', hall'⟩ := hu
  exact ⟨hdeep.append hdeep', _, hwalk.append hwalk', List.forall_mem_append.2 ⟨hall, hall'⟩⟩

theorem Hangs.divided (ht : t.lexeme.divides = true) (hs : Solid ts) (hu : Hangs us) :
    Divided (t :: ts ++ us) := by
  have hsolid : t.lexeme.isSolid = true := by
    cases hl : t.lexeme <;> rw [hl] at ht <;> first | rfl | cases ht
  exact ⟨hu.deep (.cons hsolid hs), _, hu.head hsolid hs, by simpa using ht⟩

theorem Outlined.of_hangs (ht : t.lexeme.isSolid = true) (hs : Solid ts) (hu : Hangs us)
    (hv : Divided vs) : Outlined (t :: ts ++ us ++ vs) := by
  obtain ⟨hdeep, hs', hwalk, hall⟩ := hv
  exact ⟨(hu.deep (.cons ht hs)).append hdeep, _, hs', (hu.head ht hs).append hwalk, hall⟩

theorem Enclosed.outlined {k : Keyword} (h : Enclosed k ts) : Outlined ts := by
  have hdeep := h.deep
  obtain ⟨us, e, newline, rfl, he, hn, hwalk, _⟩ := h
  have hend : Divided [e, newline] :=
    @Hangs.divided e [] [newline] (by rw [he]; rfl) .nil fun d b => .newline hn
  obtain ⟨_, hs, hwalk', hall⟩ := hend
  exact ⟨hdeep, _, hs, hwalk.append hwalk', hall⟩

theorem Elsifs.head_ne_eof {elsifs : List Elsif} (h : Elsifs R ts next elsifs)
    (hnext : next.lexeme ≠ .eof) : (ts.headD next).lexeme ≠ .eof := by
  cases h with
  | nil hns _ _ => exact hns.headD_ne_eof hnext
  | cons hns ht _ _ _ =>
    simp only [List.append_assoc, headD_append]
    exact hns.headD_ne_eof (by simp [ht])

theorem Elsifs.divided {elsifs : List Elsif}
    (hR : ∀ ts next s, Tidy ts → next.lexeme ≠ .eof → R ts next s → Deep ts) (htidy : Tidy ts)
    (hnext : next.lexeme ≠ .eof) (h : Elsifs R ts next elsifs) : Divided ts := by
  induction h with
  | nil hns _ _ => exact hns.divided
  | @cons ns t us vs ws next _ _ _ hns ht he hb hes ih =>
    have hbody := hb.hangs (.appends hR) htidy.left.right (hes.head_ne_eof hnext)
    have hline : Divided (t :: us ++ vs) := hbody.divided (by rw [ht]; rfl) he.solid
    have hall := (hns.divided.append hline).append (ih htidy.right hnext)
    simpa only [List.append_assoc] using hall

theorem Otherwise.head_ne_eof {r : Bool × List Stmt} (h : Otherwise R ts next r)
    (hnext : next.lexeme ≠ .eof) : (ts.headD next).lexeme ≠ .eof := by
  cases h with
  | none _ => exact hnext
  | some ht _ => simp [ht]

theorem Otherwise.divided {r : Bool × List Stmt}
    (hR : ∀ ts next s, Tidy ts → next.lexeme ≠ .eof → R ts next s → Deep ts) (htidy : Tidy ts)
    (hnext : next.lexeme ≠ .eof) (h : Otherwise R ts next r) : Divided ts := by
  cases h with
  | none _ => exact Newlines.nil.divided
  | some ht hb => exact (hb.hangs (.appends hR) htidy.tail hnext).divided (by rw [ht]; rfl) .nil

theorem Closing.divided {start span : Span} (hnext : next.lexeme ≠ .eof)
    (h : Closing start ts next span) : Divided ts := by
  cases h with
  | mk hns he hle => exact hns.divided.append ((hle.hangs hnext).divided (by rw [he]; rfl) .nil)

theorem BranchLevel.outlined {s : Stmt}
    (hR : ∀ ts next s, Tidy ts → next.lexeme ≠ .eof → R ts next s → Deep ts) (htidy : Tidy ts)
    (hnext : next.lexeme ≠ .eof) (h : BranchLevel R ts next s) : Outlined ts := by
  cases h with
  | @mk t us vs ws xs ys _ _ _ _ _ _ _ ht he hb hes ho hc =>
    have hys : (ys.headD next).lexeme ≠ .eof := hc.head_ne_eof next
    have hxs : ((xs ++ ys).headD next).lexeme ≠ .eof := by
      rw [headD_append]
      exact ho.head_ne_eof hys
    have hws : ((ws ++ xs ++ ys).headD next).lexeme ≠ .eof := by
      rw [List.append_assoc, headD_append]
      exact hes.head_ne_eof hxs
    have hbody := hb.hangs (.appends hR) htidy.left.left.left.right hws
    have helsifs := hes.divided hR htidy.left.left.right hxs
    have hotherwise := ho.divided hR htidy.left.right hys
    have hrest := (helsifs.append hotherwise).append (hc.divided hnext)
    have hall := Outlined.of_hangs (isSolid_of_eq ht rfl) he.solid hbody hrest
    simpa only [List.append_assoc] using hall

theorem StatementRule.outlined {s : Stmt} (h : StatementRule place ts next s) (htidy : Tidy ts)
    (hnext : next.lexeme ≠ .eof) : Outlined ts := by
  induction h with
  | @of inner place ts next s _ h ih =>
    have hS : StatementsDeep inner := fun _ _ _ _ htidy hnext h => (ih h htidy hnext).1
    cases h with
    | function hf => exact (hf.enclosed hS htidy hnext).outlined
    | classDecl hc => exact (hc.enclosed hS htidy hnext).outlined
    | component _ hc => exact (hc.enclosed hS htidy hnext).outlined
    | branch hb => exact hb.outlined (hS _) htidy hnext
    | sentence hl =>
      cases hl with
      | mk hs hle =>
        obtain ⟨t, us, rfl, ht⟩ := hs.starts
        obtain ⟨hfirst, hrest⟩ := List.forall_mem_cons.1 hs.solid
        have hline := Outlined.of_hangs hfirst hrest (hle.hangs hnext) Newlines.nil.divided
        rwa [List.append_nil] at hline

theorem StatementRule.deep : StatementsDeep StatementRule :=
  fun _ _ _ _ htidy hnext h => (h.outlined htidy hnext).1

end Statements

/-! ### Where a phrase ends -/

section Cuts

variable {t h h' : Token} {ts us vs ws : List Token} {hs hs' : List Lexeme} {m : Standing}

theorem Walks.heads_append (hwalk : Walks ⟨0, true⟩ ts hs ⟨0, true⟩) (hh : h.lexeme.isSolid = true)
    (us : List Token) :
    ∃ rest, Standing.heads ⟨0, true⟩ (ts ++ h :: us) = hs ++ h.lexeme :: rest := by
  rw [Standing.heads_append, hwalk.heads, hwalk.pass, Standing.heads, hh]
  exact ⟨_, rfl⟩

/-- Two places of a list at the start of lines are the same if a walk has noted as much before
them. -/
theorem eq_of_walks (heq : ts ++ h :: us = vs ++ h' :: ws) (ht : Walks ⟨0, true⟩ ts hs ⟨0, true⟩)
    (hv : Walks ⟨0, true⟩ vs hs' ⟨0, true⟩) (hh : h.lexeme.isSolid = true)
    (hh' : h'.lexeme.isSolid = true) (hlength : hs.length = hs'.length) : ts = vs := by
  have hshorter {ts us : List Token} {h : Token} {hs hs' : List Lexeme}
      (ht : Walks ⟨0, true⟩ ts hs ⟨0, true⟩) (hv : Walks ⟨0, true⟩ (ts ++ h :: us) hs' ⟨0, true⟩)
      (hh : h.lexeme.isSolid = true) : hs.length < hs'.length := by
    obtain ⟨rest, hrest⟩ := ht.heads_append hh us
    rw [← hv.heads, hrest]
    simp
  rcases List.append_eq_append_iff.1 heq with ⟨xs, rfl, hx⟩ | ⟨xs, rfl, hx⟩
  · cases xs with
    | nil => rw [List.append_nil]
    | cons x xs =>
      obtain ⟨rfl, _⟩ := List.cons.inj hx
      have := hshorter ht hv hh
      omega
  · cases xs with
    | nil => rw [List.append_nil]
    | cons x xs =>
      obtain ⟨rfl, _⟩ := List.cons.inj hx
      have := hshorter hv ht hh'
      omega

theorem Outlined.divides (h' : Outlined (t :: ts ++ h :: us)) (ht : t.lexeme.isSolid = true)
    (hwalk : Walks ⟨0, true⟩ (t :: ts) hs ⟨0, true⟩) (hh : h.lexeme.isSolid = true) :
    h.lexeme.divides = true := by
  obtain ⟨_, l, hs', hall, hdivides⟩ := h'
  obtain ⟨rest, hrest⟩ := hwalk.heads_append hh us
  -- The first note is about the first token.
  obtain ⟨hs₁, rfl⟩ : ∃ hs₁, hs = t.lexeme :: hs₁ := by
    rw [← hwalk.heads, Standing.heads, ht]
    exact ⟨_, rfl⟩
  rw [hall.heads, List.cons_append] at hrest
  obtain ⟨_, rfl⟩ := List.cons.inj hrest
  exact hdivides _ (by simp)

end Cuts

end LayoutScript

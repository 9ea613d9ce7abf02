import LayoutScript.Proofs.Layout
import LayoutScript.Proofs.StatementGrammar

/-! Where statements end. A statement ends with the newline token of its line, and then what follows
does not matter; only at the end of a text may that token be missing. -/
namespace LayoutScript

theorem headD_of_ne_nil {ts : List Token} (h : ts ≠ []) (next next' : Token) :
    ts.headD next = ts.headD next' := by
  cases ts with
  | nil => exact absurd rfl h
  | cons t ts => rfl

theorem Lexeme.isSolid_of_startsOperand {l : Lexeme} (h : l.startsOperand = true) :
    l.isSolid = true := by
  cases l <;> first | rfl | exact isSolid_punct _ | cases h

def EndsSolid (ts : List Token) : Prop := ∃ us t, ts = us ++ [t] ∧ t.lexeme.isSolid = true

namespace EndsSolid

variable {ts us : List Token} {t : Token}

theorem singleton (h : t.lexeme.isSolid = true) : EndsSolid [t] := ⟨[], t, rfl, h⟩

theorem append (h : EndsSolid us) : EndsSolid (ts ++ us) := by
  obtain ⟨vs, t, rfl, ht⟩ := h
  exact ⟨ts ++ vs, t, (List.append_assoc ..).symm, ht⟩

theorem cons (h : EndsSolid us) : EndsSolid (t :: us) := by
  obtain ⟨vs, u, rfl, hu⟩ := h
  exact ⟨t :: vs, u, rfl, hu⟩

theorem append_or (h : EndsSolid ts) (hu : us = [] ∨ EndsSolid us) : EndsSolid (ts ++ us) := by
  rcases hu with rfl | hu
  · rwa [List.append_nil]
  · exact hu.append

end EndsSolid

namespace Expr

variable {E : Rule Expr} {ts : List Token} {next : Token} {e : Expr}

theorem Arguments.endsSolid {r : List Expr × Span} (h : Arguments E ts next r) : EndsSolid ts := by
  cases h with
  | mk _ _ hc => exact (EndsSolid.singleton (by rw [hc]; exact Lexeme.isSolid_punct _)).append

theorem Head.endsSolid (h : Head E ts next e) : EndsSolid ts := by
  cases h with
  | identifier ht _ => exact .singleton (by rw [ht]; rfl)
  | call _ ha => exact ha.endsSolid.cons
  | instanceVar ht _ => exact .singleton (by rw [ht]; rfl)
  | instanceCall _ ha => exact ha.endsSolid.cons

theorem isSolid_of_name? {l : Lexeme} {name : String} (h : l.name? = some name) :
    l.isSolid = true := by
  cases l <;> first | rfl | cases h

theorem Chain.endsSolid {start last : Span} {base : Expr} {properties : List String}
    (h : Chain E start last base properties ts next e) : ts = [] ∨ EndsSolid ts := by
  induction h with
  | stop _ => exact .inl rfl
  | property _ hw _ _ ih =>
    exact .inr ((EndsSolid.singleton (isSolid_of_name? hw)).append_or ih).cons
  | call _ _ ha _ ih => exact .inr (ha.endsSolid.cons.cons.append_or ih)

theorem Operand.endsSolid (h : Operand E ts next e) : EndsSolid ts := by
  cases h with
  | atom ht => exact .singleton (Lexeme.isSolid_of_startsOperand (startsOperand_of_atom? ht))
  | chain hh hc => exact hh.endsSolid.append_or hc.endsSolid
  | new _ hw _ => exact (EndsSolid.singleton (by rw [hw]; rfl)).cons
  | newWith _ _ ha => exact ha.endsSolid.cons.cons
  | group _ _ hc => exact (EndsSolid.singleton (by rw [hc]; exact Lexeme.isSolid_punct _)).append
  | negative _ ht _ => exact (EndsSolid.singleton (by rw [ht]; rfl)).cons

theorem Expression.endsSolid (h : Expression ts next e) : EndsSolid ts := by
  induction h with
  | of _ h ih =>
    cases h with
    | operand ho _ => exact ho.endsSolid
    | binary _ _ _ he => exact (ih he).cons.append

end Expr

section Sentences

variable {place : Place} {ts : List Token} {next : Token} {s : Stmt}

theorem Valued.endsSolid {start : Span} {make : Expr → Span → Stmt}
    (h : Valued start make ts next s) : EndsSolid ts := by
  cases h with
  | mk he => exact he.endsSolid

theorem Access.endsSolid {start : Span} (h : Access place start ts next s) : EndsSolid ts := by
  cases h with
  | mk ho ht =>
    refine ho.endsSolid.append_or ?_
    cases ht with
    | expr => exact .inl rfl
    | assign _ hv => exact .inr hv.endsSolid.cons
    | give _ _ _ he => exact .inr he.endsSolid.cons

theorem Sentence.endsSolid (h : Sentence place ts next s) : EndsSolid ts := by
  cases h with
  | print _ hv | give _ hv => exact hv.endsSolid.cons
  | giveNothing ht | bareCall _ ht => exact .singleton (by rw [ht]; rfl)
  | text _ hv => exact hv.endsSolid
  | assign _ _ hv | assignInstanceVar _ _ hv => exact hv.endsSolid.cons.cons
  | access _ _ ha => exact ha.endsSolid
  | implicitGive _ _ _ _ he => exact he.endsSolid
  | instanceCall _ _ ho _ => exact ho.endsSolid
  | instanceProperty _ _ _ _ hv => exact hv.endsSolid.cons.append

end Sentences

/-- The tokens end with a newline token and then `rule` holds of them in front of any token, or the
text ends after a solid one. -/
def EndsLine (rule : Rule α) (ts : List Token) (next : Token) (a : α) : Prop :=
  (∃ us t, ts = us ++ [t] ∧ t.lexeme = .newline ∧ ∀ next', rule ts next' a) ∨
    (next.lexeme = .eof ∧ EndsSolid ts)

section EndsLine

variable {S : Place → Rule Stmt} {place : Place} {ts : List Token} {next : Token}

theorem LineOf.endsLine {rule : Rule α} {a : α}
    (hrule : ∀ {ts next a}, rule ts next a → EndsSolid ts) (h : LineOf rule ts next a) :
    EndsLine (LineOf rule) ts next a := by
  cases h with
  | mk hr hle =>
    cases hle with
    | newline ht => exact .inl ⟨_, _, rfl, ht, fun _ => .mk hr (.newline ht)⟩
    | eof hn =>
      rw [List.append_nil]
      exact .inr ⟨hn, hrule hr⟩

theorem Closing.endsLine {start span : Span} (h : Closing start ts next span) :
    EndsLine (Closing start) ts next span := by
  cases h with
  | @mk ns e _ _ hns he hle =>
    cases hle with
    | @newline t _ ht =>
      exact .inl ⟨ns ++ [e], t, by simp, ht, fun _ => .mk hns he (.newline ht)⟩
    | eof hn => exact .inr ⟨hn, (EndsSolid.singleton (by rw [he]; rfl)).append⟩

theorem Closing.ne_nil {start span : Span} (h : Closing start ts next span) : ts ≠ [] := by
  cases h with
  | mk _ _ _ => simp

theorem Closing.endsLine_append {rule : Rule α} {a : α} {us xs : List Token} {start span : Span}
    (hc : Closing start xs next span)
    (hrule : ∀ next', Closing start xs next' span → rule (us ++ xs) next' a) :
    EndsLine rule (us ++ xs) next a := by
  rcases hc.endsLine with ⟨ws, t, rfl, ht, hall⟩ | ⟨heof, hs⟩
  · exact .inl ⟨us ++ ws, t, (List.append_assoc ..).symm, ht, fun next' => hrule next' (hall next')⟩
  · exact .inr ⟨heof, hs.append⟩

theorem FunctionLevel.endsLine {f : FunctionDecl} (h : FunctionLevel S ts next f) :
    EndsLine (FunctionLevel S) ts next f := by
  cases h with
  | @mk d t us vs ws xs _ name params type body span hd ht hp hr hb hc =>
    have hne (us : List Token) : us ++ xs ≠ [] := by simp [hc.ne_nil]
    refine hc.endsLine_append fun next' hc' => .mk hd ht ?_ ?_ ?_ hc'
    · rwa [headD_of_ne_nil (hne (vs ++ ws)) next' next]
    · rwa [headD_of_ne_nil (hne ws) next' next]
    · rwa [headD_of_ne_nil hc.ne_nil next' next]

theorem ClassLevel.endsLine {c : ClassDecl} (h : ClassLevel S ts next c) :
    EndsLine (ClassLevel S) ts next c := by
  cases h with
  | mk hk ht hb hc =>
    refine hc.endsLine_append fun next' hc' => .mk hk ht ?_ hc'
    rwa [headD_of_ne_nil hc.ne_nil next' next]

theorem ComponentLevel.endsLine {c : ComponentDecl} (h : ComponentLevel S ts next c) :
    EndsLine (ComponentLevel S) ts next c := by
  cases h with
  | mk hk ht hb hc =>
    refine hc.endsLine_append fun next' hc' => .mk hk ht ?_ hc'
    rwa [headD_of_ne_nil hc.ne_nil next' next]

theorem BranchLevel.endsLine {R : Rule Stmt} {s : Stmt} (h : BranchLevel R ts next s) :
    EndsLine (BranchLevel R) ts next s := by
  cases h with
  | @mk t us vs ws xs ys _ condition body elsifs otherwise hasElse span ht he hb hs ho hc =>
    have hne (us : List Token) : us ++ ys ≠ [] := by simp [hc.ne_nil]
    refine hc.endsLine_append fun next' hc' => .mk ht ?_ ?_ ?_ ?_ hc'
    · rwa [headD_of_ne_nil (hne (vs ++ ws ++ xs)) next' next]
    · rwa [headD_of_ne_nil (hne (ws ++ xs)) next' next]
    · rwa [headD_of_ne_nil (hne xs) next' next]
    · rwa [headD_of_ne_nil hc.ne_nil next' next]

theorem EndsLine.imp {rule : Rule α} {rule' : Rule β} {a : α} {b : β}
    (h : EndsLine rule ts next a) (hr : ∀ next', rule ts next' a → rule' ts next' b) :
    EndsLine rule' ts next b := by
  rcases h with ⟨us, t, hts, ht, hall⟩ | h
  · exact .inl ⟨us, t, hts, ht, fun next' => hr next' (hall next')⟩
  · exact .inr h

theorem StatementRule.endsLine {s : Stmt} (h : StatementRule place ts next s) :
    EndsLine (StatementRule place) ts next s := by
  have hlevel : EndsLine (StatementLevel StatementRule place) ts next s := by
    cases statementRule_iff_level.1 h with
    | function hf => exact hf.endsLine.imp fun _ => .function
    | classDecl hc => exact hc.endsLine.imp fun _ => .classDecl
    | component hn hc => exact hc.endsLine.imp fun _ => .component hn
    | branch hb => exact hb.endsLine.imp fun _ => .branch
    | sentence hl => exact (hl.endsLine Sentence.endsSolid).imp fun _ => .sentence
  exact hlevel.imp fun _ => statementRule_iff_level.2

end EndsLine

end LayoutScript

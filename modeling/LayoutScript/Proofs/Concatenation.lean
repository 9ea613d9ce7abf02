import LayoutScript.Proofs.LineEnds
import LayoutScript.Proofs.TokenCounts
import LayoutScript.Proofs.Utf8Reading

/-! A text that goes on after an accepted one is read as if it stood alone, further down. -/
namespace LayoutScript

namespace Parser

/-- The result does not depend on the token before the cursor, unless the cursor stands at the last
token, which cannot be passed. -/
def Fresh (p : Parser α) : Prop :=
  ∀ prev prev' cur t ts, p.run ⟨prev, cur, t :: ts⟩ = p.run ⟨prev', cur, t :: ts⟩

namespace Fresh

variable {p : Parser α}

theorem bind (hp : Fresh p) (k : α → Parser β) : Fresh (p >>= k) := by
  intro prev prev' cur t ts
  rw [run_bind, run_bind, hp prev prev']

theorem fail (cause : SyntaxCause) : Fresh (Parser.fail cause : Parser α) := fun _ _ _ _ _ => rfl

theorem advance : Fresh Parser.advance := fun _ _ _ _ _ => rfl

theorem expectKeyword (k : Keyword) : Fresh (Parser.expectKeyword k) := by
  intro prev prev' cur t ts
  rw [Parser.expectKeyword, run_expect _ fun _ => List.cons_ne_nil t ts,
    run_expect _ fun _ => List.cons_ne_nil t ts]
  rfl

theorem current_bind {k : Token → Parser β} (hk : ∀ t, Fresh (k t)) : Fresh (current >>= k) := by
  intro prev prev' cur t ts
  exact hk cur prev prev' cur t ts

theorem here_bind {k : Span → Parser β} (hk : ∀ s, Fresh (k s)) : Fresh (here >>= k) := by
  intro prev prev' cur t ts
  exact hk cur.span prev prev' cur t ts

theorem peek_bind {k : Token → Parser β} (hk : ∀ t, Fresh (k t)) : Fresh (peek >>= k) := by
  intro prev prev' cur t ts
  exact hk t prev prev' cur t ts

theorem bounded {p : Nat → Parser α} (h : ∀ n, Fresh (p n)) : Fresh (Parser.bounded p) := by
  intro prev prev' cur t ts
  exact h _ prev prev' cur t ts

end Fresh

end Parser

open LayoutScript.Parser

namespace Expr

theorem operand_fresh (expression : Parser Expr) : Fresh (operand expression) := by
  refine .current_bind fun token => ?_
  dsimp only
  split
  iterate 8 exact Fresh.advance.bind _
  · exact .here_bind fun _ => (Fresh.expectKeyword _).bind _
  · exact Fresh.advance.bind _
  · refine .peek_bind fun next => ?_
    split
    · exact Fresh.advance.bind _
    · exact .fail _
  · exact .fail _

theorem parseOperand_fresh : Fresh parseOperand := operand_fresh parse

theorem parse_fresh : Fresh parse := by
  refine .bounded fun n => ?_
  cases n with
  | zero => exact .fail _
  | succ n => exact (operand_fresh _).bind _

end Expr

namespace Stmt

theorem parseIdentifier_fresh (place : Place) (name : String) :
    Fresh (parseIdentifier place name) := by
  refine .here_bind fun start => .peek_bind fun t => ?_
  split
  · exact Fresh.advance.bind _
  · exact Expr.parseOperand_fresh.bind _
  · exact Expr.parseOperand_fresh.bind _
  · split
    · exact Expr.parseOperand_fresh.bind _
    · exact Fresh.advance.bind _

theorem parseInstanceVar_fresh (name : String) : Fresh (parseInstanceVar name) := by
  refine .here_bind fun start => .peek_bind fun t => ?_
  split
  · exact Fresh.advance.bind _
  · exact Expr.parseOperand_fresh.bind _
  · exact Expr.parseOperand_fresh.bind _
  · exact Fresh.advance.bind _

/-- Every statement starts with a step over its first token, or fails at it. -/
theorem parseWith_fresh (statement : Place → Parser Stmt) (place : Place) :
    Fresh (parseWith statement place) := by
  have hopen {k : Keyword} {f : Span → Parser Stmt} :
      Fresh (here >>= fun start => expectKeyword k >>= fun _ => f start) :=
    .here_bind fun _ => (Fresh.expectKeyword _).bind _
  refine .current_bind fun token => ?_
  split
  · exact .bind (.here_bind fun _ => (Fresh.expectKeyword _).bind _) _
  · exact .bind (.here_bind fun _ => (Fresh.expectKeyword _).bind _) _
  · dsimp only
    split
    · exact .bind (.fail _) _
    · exact .bind (.here_bind fun _ => (Fresh.expectKeyword _).bind _) _
  · exact hopen
  · exact hopen
  · exact hopen
  · exact .fail _
  · exact parseIdentifier_fresh place _
  · exact parseInstanceVar_fresh _
  · exact Expr.parse_fresh.bind _
  · exact Expr.parse_fresh.bind _
  · exact .fail _

theorem parse_fresh (place : Place) : Fresh (parse place) := by
  refine .bounded fun n => ?_
  cases n with
  | zero => exact .fail _
  | succ n => exact parseWith_fresh _ place

end Stmt

def WholeLines (ts : List Token) : Prop := ts = [] ∨ ∃ us t, ts = us ++ [t] ∧ t.lexeme = .newline

theorem WholeLines.of_append {ts us : List Token} (h : WholeLines (ts ++ us)) : WholeLines us := by
  rcases List.eq_nil_or_concat us with rfl | ⟨vs, t, rfl⟩
  · exact .inl rfl
  · rcases h with h | ⟨ws, u, h, hu⟩
    · simp at h
    · rw [List.concat_eq_append, ← List.append_assoc] at h
      obtain ⟨_, rfl⟩ := List.append_inj' h rfl |>.imp_right List.singleton_inj.1
      exact .inr ⟨vs, _, List.concat_eq_append, hu⟩

theorem Newlines.wholeLines {ns : List Token} (h : Newlines ns) : WholeLines ns := by
  rcases List.eq_nil_or_concat ns with rfl | ⟨vs, t, rfl⟩
  · exact .inl rfl
  · exact .inr ⟨vs, t, List.concat_eq_append, h t (by simp)⟩

theorem WholeLines.not_endsSolid {ts : List Token} (h : WholeLines ts) : ¬EndsSolid ts := by
  rintro ⟨us, t, rfl, ht⟩
  rcases h with h | ⟨vs, u, h, hu⟩
  · simp at h
  · obtain ⟨_, rfl⟩ := List.append_inj' h rfl |>.imp_right List.singleton_inj.1
    rw [hu] at ht
    cases ht

def Lined (ts : List Token) : Prop := WholeLines ts ∨ EndsSolid ts

theorem Lined.append {ts us : List Token} (ht : Lined ts) (hu : Lined us) : Lined (ts ++ us) := by
  rcases hu with (rfl | ⟨vs, t, rfl, hn⟩) | hu
  · rwa [List.append_nil]
  · exact .inl (.inr ⟨ts ++ vs, t, (List.append_assoc ..).symm, hn⟩)
  · exact .inr hu.append

theorem EndsLine.lined {rule : Rule α} {ts : List Token} {next : Token} {a : α}
    (h : EndsLine rule ts next a) : Lined ts := by
  rcases h with ⟨us, t, hts, ht, _⟩ | ⟨_, hsolid⟩
  · exact .inl (.inr ⟨us, t, hts, ht⟩)
  · exact .inr hsolid

theorem Statements.lined {ts : List Token} {next : Token} {body : List Stmt}
    (h : Statements ts next body) : Lined ts := by
  induction h with
  | nil _ => exact .inl (.inl rfl)
  | cons hs hns _ ih => exact (hs.endsLine.lined.append (.inl hns.wholeLines)).append ih

/-- A statement that whole lines start with is one in front of any token. -/
theorem StatementRule.anywhere {us ms vs : List Token} {next : Token} {s : Stmt} {body : List Stmt}
    (hs : StatementRule .top us ((ms ++ vs).headD next) s) (hms : Newlines ms)
    (hss : Statements vs next body) (hlines : WholeLines (us ++ ms ++ vs)) (next' : Token) :
    StatementRule .top us next' s := by
  rcases hs.endsLine with ⟨_, _, _, _, hall⟩ | ⟨heof, hsolid⟩
  · exact hall next'
  · -- Then nothing follows the statement, and its last line has no end.
    have hnil : ms ++ vs = [] := by
      cases ms with
      | cons m ms => exact absurd ((hms m List.mem_cons_self).symm.trans heof) (by simp)
      | nil =>
        cases hss with
        | nil _ => rfl
        | cons hs' _ _ => exact absurd heof (((hs'.starts.append _).append _).lexeme_ne rfl)
    rw [List.append_assoc, hnil, List.append_nil] at hlines
    exact absurd hsolid hlines.not_endsSolid

theorem ProgramRule.lined {ts : List Token} {next : Token} {p : Program}
    (h : ProgramRule ts next p) : Lined ts := by
  cases h with
  | mk hns hss => exact Lined.append (.inl hns.wholeLines) hss.lined

namespace Cursor

variable {c c' : Cursor} {ns : List Token}

theorem Closed.skipNewlines_eq (hc : c.Closed) (hp : c.Passes ns c') (hns : Newlines ns)
    (hn : c'.cur.lexeme ≠ .newline) : c.skipNewlines = c' := by
  have h := Parser.run_skipNewlines hc hp hns hn
  rw [hc.run_skipNewlines] at h
  cases h
  rfl

theorem Closed.skipNewlines_of_passes (hc : c.Closed) (hp : c.Passes ns c') (hns : Newlines ns) :
    c.skipNewlines = c'.skipNewlines := by
  obtain ⟨ms, hm, hms, hn⟩ := (hp.closed hc).skipNewlines_passes
  refine hc.skipNewlines_eq (hp.trans hm) (fun t ht => ?_) hn
  rcases List.mem_append.1 ht with ht | ht
  · exact hns t ht
  · exact hms t ht

end Cursor

namespace Program

def statements : Nat → Cursor → Except SyntaxError (List Stmt)
  | 0, c => .error ⟨.exhausted, c.cur⟩
  | n + 1, c =>
    if c.cur.lexeme = .eof then .ok []
    else
      match (Stmt.parse .top).run c with
      | .error e => .error e
      | .ok (s, d) => (statements n d.skipNewlines).map (s :: ·)

def rest (c : Cursor) : Except SyntaxError (List Stmt) := statements (c.ahead.length + 1) c

variable {c c' : Cursor}

theorem parse_top_length {s : Stmt} {d : Cursor} (hc : c.Closed)
    (h : (Stmt.parse .top).run c = .ok (s, d)) :
    d.skipNewlines.Closed ∧ d.skipNewlines.ahead.length < c.ahead.length := by
  obtain ⟨us, hu, hs⟩ := (Stmt.parse_reads .top hc (Nat.lt_succ_self _)).1 h
  obtain ⟨ns, hn, _, _⟩ := (hu.closed hc).skipNewlines_passes
  have hpos := List.length_pos_iff.2 hs.starts.ne_nil
  have := hu.length
  have := hn.length
  exact ⟨hn.closed (hu.closed hc), by omega⟩

theorem loopWithin_parseNext (n : Nat) (body : List Stmt) (hc : c.Closed) :
    ((loopWithin parseNext n body).run c).map Prod.fst = (statements n c).map (body ++ ·) := by
  induction n generalizing body c with
  | zero => rfl
  | succ n ih =>
    rw [loopWithin, statements]
    split
    · next heof =>
      have hstop : (parseNext body).run c = .ok ((body, false), c) := by
        rw [parseNext, run_bind_ok (run_sees .eof c), heof]
        rfl
      rw [run_bind_ok hstop]
      exact congrArg Except.ok (List.append_nil body).symm
    · next heof =>
      have hsees : (c.cur.lexeme == .eof) = false := beq_eq_false_iff_ne.2 heof
      cases hs : (Stmt.parse .top).run c with
      | error e =>
        have herror : (parseNext body).run c = .error e := by
          rw [parseNext, run_bind_ok (run_sees .eof c), hsees]
          exact run_bind_error hs
        rw [run_bind_error herror]
        rfl
      | ok r =>
        obtain ⟨s, d⟩ := r
        obtain ⟨us, hu, -⟩ := (Stmt.parse_reads .top hc (Nat.lt_succ_self _)).1 hs
        have hmore : (parseNext body).run c = .ok ((body ++ [s], true), d.skipNewlines) := by
          rw [parseNext, run_bind_ok (run_sees .eof c), hsees]
          show ((Stmt.parse .top) >>= _).run c = _
          rw [run_bind_ok hs, run_bind_ok (hu.closed hc).run_skipNewlines]
          rfl
        rw [run_bind_ok hmore]
        show ((loopWithin parseNext n (body ++ [s])).run d.skipNewlines).map _ =
          ((statements n d.skipNewlines).map (s :: ·)).map (body ++ ·)
        rw [ih _ (parse_top_length hc hs).1]
        cases statements n d.skipNewlines with
        | error e => rfl
        | ok ss => exact congrArg Except.ok (List.append_assoc ..)

theorem loop_parseNext (hc : c.Closed) :
    ((loop parseNext []).run c).map Prod.fst = rest c := by
  refine (loopWithin_parseNext (c.ahead.length + 1) [] hc).trans ?_
  rw [rest]
  cases statements (c.ahead.length + 1) c <;> rfl

theorem read_eq_rest {t : Token} {ts : List Token} (hc : Cursor.Closed ⟨t, t, ts⟩) :
    read (t :: ts) = (rest (Cursor.skipNewlines ⟨t, t, ts⟩)).map Program.mk := by
  obtain ⟨ns, hn, -, -⟩ := hc.skipNewlines_passes
  have hparse : parse.run ⟨t, t, ts⟩ =
      (do return Program.mk (← loop parseNext []) : Parser Program).run
        (Cursor.skipNewlines ⟨t, t, ts⟩) := run_bind_ok hc.run_skipNewlines
  rw [read, Cursor.ofTokens?, ← loop_parseNext (hn.closed hc)]
  simp only [hparse]
  rw [run_bind]
  cases (loop parseNext []).run (Cursor.skipNewlines ⟨t, t, ts⟩) <;> rfl

theorem statements_eq_rest {n : Nat} (hc : c.Closed) (hn : c.ahead.length < n) :
    statements n c = rest c := by
  suffices h : ∀ n m (c : Cursor), c.Closed → c.ahead.length < n → c.ahead.length < m →
      statements n c = statements m c from h n _ c hc hn (Nat.lt_succ_self _)
  intro n
  induction n with
  | zero => intro m c _ hn; omega
  | succ n ih =>
    intro m c hc hn hm
    obtain ⟨m, rfl⟩ : ∃ k, m = k + 1 := ⟨m - 1, by omega⟩
    rw [statements, statements]
    split
    · rfl
    · cases hs : (Stmt.parse .top).run c with
      | error e => rfl
      | ok r =>
        obtain ⟨hd, hlt⟩ := parse_top_length hc hs
        show (statements n _).map _ = (statements m _).map _
        rw [ih m _ hd (by omega) (by omega)]

theorem rest_cons {s : Stmt} {d : Cursor} (hc : c.Closed) (heof : c.cur.lexeme ≠ .eof)
    (h : (Stmt.parse .top).run c = .ok (s, d)) :
    rest c = (rest d.skipNewlines).map (s :: ·) := by
  obtain ⟨hd, hlt⟩ := parse_top_length hc h
  rw [rest, statements, if_neg heof, h]
  show (statements _ _).map _ = _
  rw [statements_eq_rest hd hlt]

theorem rest_congr_prev {prev prev' cur : Token} {ahead : List Token}
    (hc : Cursor.Closed ⟨prev, cur, ahead⟩) :
    rest ⟨prev, cur, ahead⟩ = rest ⟨prev', cur, ahead⟩ := by
  unfold rest
  rw [statements, statements]
  split
  · rfl
  · next heof =>
    obtain ⟨t, ts, hts⟩ := List.exists_cons_of_ne_nil (hc.ahead_ne_nil heof)
    have hahead : ahead = t :: ts := hts
    rw [hahead, Stmt.parse_fresh .top prev prev']

theorem statements_mapSpan {f : Span → Span} (hf : Relocation f) (n : Nat) (hc : c.Closed) :
    statements n (c.mapSpan f) =
      ((statements n c).map (List.map (Stmt.mapSpan f))).mapError (SyntaxError.mapSpan f) := by
  induction n generalizing c with
  | zero => rfl
  | succ n ih =>
    rw [statements, statements, show (c.mapSpan f).cur.lexeme = c.cur.lexeme from rfl,
      Stmt.parse_mapSpan hf hc .top]
    split
    · rfl
    · cases hrun : (Stmt.parse .top).run c with
      | error e => rfl
      | ok r =>
        show (statements n (r.2.mapSpan f).skipNewlines).map _ =
          (((statements n r.2.skipNewlines).map _).map _).mapError _
        rw [Cursor.skipNewlines_mapSpan, ih (parse_top_length hc hrun).1]
        cases statements n r.2.skipNewlines <;> rfl

theorem rest_mapSpan {f : Span → Span} (hf : Relocation f) (hc : c.Closed) :
    rest (c.mapSpan f) =
      ((rest c).map (List.map (Stmt.mapSpan f))).mapError (SyntaxError.mapSpan f) := by
  rw [rest, show (c.mapSpan f).ahead.length = c.ahead.length from List.length_map _]
  exact statements_mapSpan hf _ hc

theorem rest_append {ts ns : List Token} {next : Token} {body : List Stmt}
    (h : Statements ts next body) (hlines : WholeLines ts) (hc : c.Closed)
    (hp : c.Passes (ts ++ ns) c') (hns : Newlines ns) (hn : c'.cur.lexeme ≠ .newline) :
    rest c.skipNewlines = (rest c').map (body ++ ·) := by
  induction h generalizing c with
  | nil _ =>
    rw [hc.skipNewlines_eq hp hns hn]
    cases rest c' <;> rfl
  | @cons us ms vs next s body hs hms hss ih =>
    obtain ⟨d, hu, hd⟩ : ∃ d, c.Passes us d ∧ d.Passes (ms ++ (vs ++ ns)) c' := by
      refine Cursor.Passes.split ?_
      simpa only [List.append_assoc] using hp
    obtain ⟨e, hm, he⟩ := hd.split
    have hcur {l : Lexeme} (hl : l.startsStatement = false) : c.cur.lexeme ≠ l := by
      rw [hu.cur]
      exact hs.starts.lexeme_ne hl
    have hrun :=
      (Stmt.parse_reads .top hc (Nat.lt_succ_self _)).2 ⟨us, hu, hs.anywhere hms hss hlines _⟩
    rw [hc.skipNewlines_eq (.refl c) (fun _ h => absurd h List.not_mem_nil) (hcur rfl),
      rest_cons hc (hcur rfl) hrun, (hu.closed hc).skipNewlines_of_passes hm hms,
      ih hlines.of_append (hm.closed (hu.closed hc)) he]
    cases rest c' <;> rfl

theorem read_append {f : Span → Span} (hf : Relocation f) {ts tokens : List Token} {next : Token}
    {p : Program} (h : ProgramRule ts next p) (hlines : WholeLines ts)
    (htokens : ∃ us last, tokens = us ++ [last] ∧ last.lexeme = .eof) :
    read (ts ++ tokens.map (Token.mapSpan f)) =
      ((read tokens).map fun q => ⟨p.body ++ (q.mapSpan f).body⟩).mapError
        (SyntaxError.mapSpan f) := by
  obtain ⟨us, last, hus, hlast⟩ := htokens
  obtain ⟨b, bs, rfl⟩ : ∃ b bs, tokens = b :: bs :=
    List.exists_cons_of_ne_nil (by rw [hus]; simp)
  obtain ⟨t, ts', hts⟩ : ∃ t ts', ts ++ (b :: bs).map (Token.mapSpan f) = t :: ts' :=
    List.exists_cons_of_ne_nil (by simp)
  -- The cursor of the text that goes on, after its newlines.
  have hb : Cursor.Closed ⟨b, b, bs⟩ := ⟨us, last, hus, hlast⟩
  obtain ⟨ns, hn, hns, hnl⟩ := hb.skipNewlines_passes
  generalize hd : Cursor.skipNewlines ⟨b, b, bs⟩ = d at hn hnl
  have hbs : b :: bs = ns ++ d.tokens := hn.tokens
  have hc : Cursor.Closed ⟨t, t, ts'⟩ := by
    refine ⟨ts ++ us.map (Token.mapSpan f), last.mapSpan f, ?_, hlast⟩
    show t :: ts' = _
    rw [← hts, hus, List.map_append, List.append_assoc]
    rfl
  cases h with
  | @mk ms vs _ body hms hss =>
    let e : Cursor := ⟨(ms ++ vs ++ ns.map (Token.mapSpan f)).getLastD t, d.cur.mapSpan f,
      d.ahead.map (Token.mapSpan f)⟩
    have hpass : Cursor.Passes ⟨t, t, ts'⟩ (ms ++ (vs ++ ns.map (Token.mapSpan f))) e := by
      refine ⟨?_, by rw [← List.append_assoc]⟩
      show t :: ts' = _
      rw [← hts, hbs, List.map_append, List.append_assoc, List.append_assoc, List.append_assoc]
      rfl
    have he := hpass.closed hc
    obtain ⟨g, hm, hg⟩ := hpass.split
    have hmap : Newlines (ns.map (Token.mapSpan f)) := by
      intro u hu
      obtain ⟨v, hv, rfl⟩ := List.mem_map.1 hu
      exact hns v hv
    have hrest : rest e = ((rest d).map (List.map (Stmt.mapSpan f))).mapError
        (SyntaxError.mapSpan f) :=
      (rest_congr_prev he).trans (rest_mapSpan hf (hn.closed hb))
    rw [hts, read_eq_rest hc, read_eq_rest hb, hc.skipNewlines_of_passes hm hms,
      rest_append hss hlines.of_append (hm.closed hc) hg hmap hnl, hrest, hd]
    cases rest d <;> rfl

end Program

/-! ### Texts further down -/

namespace Span

def shiftLines (n : Nat) (s : Span) : Span :=
  { s with lineStart := s.lineStart + .ofNat n, lineEnd := s.lineEnd + .ofNat n }

theorem shiftLines_relocation (n : Nat) : Relocation (shiftLines n) where
  join _ _ := rfl
  follows t u := by
    have hline : (u.span.lineEnd + UInt32.ofNat n == t.span.lineStart + UInt32.ofNat n) =
        (u.span.lineEnd == t.span.lineStart) := by
      rw [Bool.eq_iff_iff, beq_iff_eq, beq_iff_eq]
      exact UInt32.add_left_inj _
    simp only [Token.follows, Token.mapSpan, shiftLines, hline]

theorem shiftLines_ofWidth (n : Nat) (source : String) (line first width : Nat) :
    (ofWidth source line first width).shiftLines n = ofWidth source (line + n) first width := by
  simp [ofWidth, shiftLines, UInt32.ofNat_add]

theorem shiftLines_onLine (n : Nat) (source : String) (line first last : Nat) :
    (onLine source line first last).shiftLines n = onLine source (line + n) first last := by
  simp [onLine, shiftLines, UInt32.ofNat_add]

end Span

def LexError.shiftLines (n : Nat) (e : LexError) : LexError := { e with line := e.line + .ofNat n }

namespace Token

variable {source : String}

theorem ofChars_shift (n number column covered : Nat) (cs : List Char) :
    ofChars source (number + n) column covered cs =
      ((ofChars source number column covered cs).map
        (List.map (mapSpan (Span.shiftLines n)))).mapError (LexError.shiftLines n) := by
  fun_induction ofChars source number column covered cs with
  | case1 column covered => simp [ofChars, Except.map, mapSpan, Span.shiftLines_onLine]
  | case2 column covered c cs ih => rw [ofChars, ih]
  | case3 column c cs hb ih => rw [ofChars, if_pos hb, ih]
  | case4 column c cs hb cause hs =>
    simp [ofChars, hb, hs, Except.map, LexError.shiftLines, UInt32.ofNat_add]
  | case5 column c cs hb lexeme width hs e he ih =>
    simp [ofChars, hb, hs, ih, he, Except.map]
  | case6 column c cs hb lexeme width hs rest hr ih =>
    simp [ofChars, hb, hs, ih, hr, Except.map, mapSpan, Span.shiftLines_ofWidth]

theorem ofLine_shift (n number : Nat) (levels : Levels) (line : List Char) :
    ofLine source (number + n) levels line =
      ((ofLine source number levels line).map
        (Prod.map (List.map (mapSpan (Span.shiftLines n))) id)).mapError (LexError.shiftLines
          n) := by
  unfold ofLine
  split
  · simp [Except.map, mapSpan, Span.shiftLines_onLine]
  · dsimp only
    split
    · simp [Except.map, LexError.shiftLines, UInt32.ofNat_add]
    · rw [ofChars_shift]
      cases ofChars source number 1 0 (Text.dropReturn line) with
      | error e => rfl
      | ok ts =>
        simp [Except.map, mapSpan, Span.shiftLines_onLine, Function.comp_def]

/-- Lines count from one, so the line of the last token is there to be moved. -/
theorem ofLines_shift (n : Nat) {number : Nat} (hpos : 0 < number) (levels : Levels)
    (lines : List (List Char)) :
    ofLines source (number + n) levels lines =
      ((ofLines source number levels lines).map
        (List.map (mapSpan (Span.shiftLines n)))).mapError (LexError.shiftLines n) := by
  induction lines generalizing number levels with
  | nil =>
    have hlast : number + n - 1 = number - 1 + n := by omega
    simp [ofLines, Except.map, mapSpan, Span.shiftLines_onLine, hlast]
  | cons line lines ih =>
    rw [ofLines, ofLines, ofLine_shift]
    cases ofLine source number levels line with
    | error e => rfl
    | ok r =>
      obtain ⟨ts, levels'⟩ := r
      have hrest := ih (Nat.succ_pos number) levels'
      rw [show number + 1 + n = number + n + 1 by omega] at hrest
      simp only [Except.map, mapError_ok, Prod.map, id_eq, hrest]
      cases ofLines source (number + 1) levels' lines with
      | error e => rfl
      | ok rest => exact congrArg Except.ok (List.map_append ..).symm

end Token

theorem Text.split_append (divider : Char) (a b : List Char) :
    split divider (a ++ divider :: b) = split divider a ++ split divider b := by
  induction a with
  | nil => simp [split]
  | cons c a ih =>
    rw [List.cons_append, split, split]
    split
    · rw [ih, List.cons_append]
    · rw [ih]
      obtain ⟨part, rest, hpart⟩ := List.exists_cons_of_ne_nil (split_ne_nil divider a)
      rw [hpart]
      rfl

def Program.shiftLines (n : Nat) (p : Program) : Program := p.mapSpan (Span.shiftLines n)

def Fault.shiftLines (n : Nat) : Fault → Fault
  | .lexical e => .lexical (e.shiftLines n)
  | .grammar e => .grammar (e.mapSpan (Span.shiftLines n))
  | .unknownNode e => .unknownNode { e with span := e.span.shiftLines n }
  | .file path cause => .file path (cause.shiftLines n)
  | .labelled label cause => .labelled label (cause.shiftLines n)
  | .joined text cause => .joined text (cause.shiftLines n)
  | e => e

/-- Levels that a text leaves open would end it with a dedent, which ends no line. -/
theorem Token.LinesGive.closes {source : String} {levels : Levels} {lines : List (List Char)}
    {ts : List Token} {last : Span}
    (hg : LinesGive source 1 .initial lines ts levels)
    (h : Lined (ts ++ List.replicate (levels.size - 1) ⟨.dedent, last⟩)) : levels = .initial := by
  refine Levels.eq_initial (hg.grounded Levels.initial_grounded) ?_
  rcases List.eq_nil_or_concat (List.replicate (levels.size - 1) (⟨.dedent, last⟩ : Token)) with
    hnil | ⟨us, t, hus⟩
  · exact List.replicate_eq_nil_iff _ |>.1 hnil
  · have ht : t.lexeme = .dedent := by
      have hmem : t ∈ List.replicate (levels.size - 1) (⟨.dedent, last⟩ : Token) := by simp [hus]
      rw [(List.mem_replicate.1 hmem).2]
    rw [hus, List.concat_eq_append, ← List.append_assoc] at h
    rcases h with (h | ⟨vs, u, hv, hu⟩) | ⟨vs, u, hv, hu⟩
    · simp at h
    all_goals
      obtain ⟨_, rfl⟩ := List.append_inj' hv rfl |>.imp_right List.singleton_inj.1
      rw [ht] at hu
      cases hu

/-- The lines of an accepted text give whole lines of tokens, which the grammar describes, and leave
no level open. -/
theorem check_scans {source : String} {code : List Char} {p : Program}
    (h : check source code = .ok p) :
    ∃ ts next, Token.Scans source 1 .initial (Text.lines code) ts .initial ∧ WholeLines ts ∧
      ts.length < UInt32.size ∧ ProgramRule ts next p := by
  obtain ⟨us, next, htokens, hsize, hr⟩ := check_eq_ok_iff.1 h
  obtain ⟨ts, levels, last, hscan, ht⟩ := Token.ofLines_eq_ok htokens
  have hg := hscan.gives
  obtain ⟨rfl, rfl⟩ := List.append_singleton_inj.1 ht
  obtain rfl := hg.closes hr.lined
  have hts : ts ++ List.replicate (Levels.initial.size - 1) ⟨.dedent, last⟩ = ts :=
    List.append_nil ts
  rw [hts] at hr hsize
  rw [List.length_append] at hsize
  exact ⟨ts, _, hscan, hg.newline.imp And.right id, hsize, hr⟩

theorem check_lines {source : String} {code : List Char} {p : Program}
    (h : check source code = .ok p) :
    ∃ ts next, Token.LinesGive source 1 .initial (Text.lines code) ts .initial ∧ WholeLines ts ∧
      ProgramRule ts next p := by
  obtain ⟨ts, next, hscan, hlines, -, hr⟩ := check_scans h
  exact ⟨ts, next, hscan.gives, hlines, hr⟩

theorem exists_ok_of_any {r : Except ε α} {test : α → Bool} (h : r.toOption.any test = true) :
    ∃ a, r = .ok a ∧ test a = true := by
  cases r with
  | ok a => exact ⟨a, rfl, h⟩
  | error e => cases h

/-- A test of the program that a text gives, as a fact about it. The test reads the bytes of the
text, one after the other; evaluating `String.toList` finds every character by its position. -/
theorem exists_check_ok {source text : String} {test : Program → Bool}
    (h : (check source (Text.Utf8.decode text.toByteArray.data.toList)).toOption.any test = true) :
    ∃ p, check source text.toList = .ok p ∧ test p = true := by
  rw [Text.Utf8.decode_toByteArray] at h
  exact exists_ok_of_any h

theorem Text.lines_toList (text : String) :
    lines text.toList = lines (Utf8.decode text.toByteArray.data.toList) := by
  rw [Utf8.decode_toByteArray]

theorem Text.forall_lines_toList {text : String} {P : List Char → Prop}
    (h : ∀ line ∈ lines (Utf8.decode text.toByteArray.data.toList), P line) :
    ∀ line ∈ lines text.toList, P line := by
  rwa [lines_toList]

theorem not_inReach_append_feeds {n : Nat} (h : n + 3 = UInt32.size) :
    ¬Token.InReach "m" (['f'] ++ '\n' :: List.replicate n '\n') := by
  obtain ⟨ts, hscan, -, hlength⟩ := Token.exists_scans_empty "m" 2 .initial (n + 1)
  have hline : Token.ofLine "m" 1 .initial ['f'] =
      .ok ([⟨.identifier "f", .ofWidth "m" 1 1 1⟩, ⟨.newline, .onLine "m" 1 2 2⟩], .initial) := rfl
  have hlines : Text.lines (['f'] ++ '\n' :: List.replicate n '\n') =
      ['f'] :: List.replicate (n + 1) [] := by
    rw [Text.lines, Text.split_append, ← Text.lines, ← Text.lines, Text.lines_feeds]
    rfl
  have hall := Token.Scans.cons hline hscan
  rw [← hlines] at hall
  obtain ⟨last, htokens⟩ := hall.gives.ofText
  rw [Token.inReach_iff htokens]
  simp only [List.length_append, List.length_cons, List.length_nil, hlength]
  omega

/-- An accepted text and a line feed in front of a second text add their statements to those of
the second, which else is read as it stands, further down. -/
theorem check_append_line {source : String} {a : List Char} {p : Program}
    (h : check source a = .ok p) (b : List Char)
    (hreach : Token.InReach source (a ++ '\n' :: b)) :
    check source (a ++ '\n' :: b) =
      match check source b with
      | .ok q => .ok ⟨p.body ++ (q.shiftLines (Text.lines a).length).body⟩
      | .error e => .error (e.shiftLines (Text.lines a).length) := by
  obtain ⟨ts, next, hg, hlines, hr⟩ := check_lines h
  have htext : Token.ofText source (a ++ '\n' :: b) =
      (Token.ofLines source (1 + (Text.lines a).length) .initial (Text.lines b)).map (ts ++ ·) := by
    rw [Token.ofText, Text.lines, Text.split_append]
    exact hg.append _
  rw [Token.ofLines_shift _ Nat.one_pos] at htext
  rw [check, check, htext, Token.ofText]
  cases hb : Token.ofLines source 1 .initial (Text.lines b) with
  | error e => rfl
  | ok tokens =>
    obtain ⟨us, last, hus, hlast⟩ := Token.ofLines_closed hb
    let down := Token.mapSpan (Span.shiftLines (Text.lines a).length)
    have happend := Program.read_append (Span.shiftLines_relocation (Text.lines a).length) hr
      hlines ⟨us, last, hus, hlast⟩
    have hlength : (ts ++ tokens.map down).length ≤ UInt32.size :=
      hreach _ (by rw [htext, hb]; rfl)
    have hclosed : ∃ vs v, ts ++ tokens.map down = vs ++ [v] ∧ v.lexeme = .eof :=
      ⟨ts ++ us.map down, down last, by rw [hus]; simp, hlast⟩
    rw [List.length_append, List.length_map] at hlength
    have hsecond := Program.ofTokens_eq_read ⟨us, last, hus, hlast⟩ (Nat.le_of_add_left_le hlength)
    simp only [Except.map, mapError_ok]
    rw [Program.ofTokens_eq_read hclosed (by simpa using hlength), happend, hsecond]
    cases Program.read tokens <;> rfl

/-- The first text leaves a level open before its last two lines, the second opens one of its
own. -/
theorem check_append_line_function :
    ∃ p q, check "m" "def f\n  g\nend\n# done".toList = .ok p ∧
      check "m" "def g\n  h(1)\nend".toList = .ok q ∧
      check "m" ("def f\n  g\nend\n# done".toList ++ '\n' :: "def g\n  h(1)\nend".toList) =
        .ok ⟨p.body ++ (q.shiftLines 4).body⟩ := by
  obtain ⟨p, hp, _⟩ :=
    @exists_check_ok "m" "def f\n  g\nend\n# done" (fun _ => true) (by decide +kernel)
  obtain ⟨q, hq, _⟩ :=
    @exists_check_ok "m" "def g\n  h(1)\nend" (fun _ => true) (by decide +kernel)
  refine ⟨p, q, hp, hq, ?_⟩
  rw [check_append_line hp _ (Token.inReach_of_length (by decide +kernel)), hq]
  rfl

/-- A text of one call, and one of line feeds. Both are accepted, and line numbers stay in bounds,
but together they have two tokens too many. -/
theorem append_feeds_rejected :
    (∃ p, check "m" ['f'] = .ok p) ∧
    (∃ q, check "m" (List.replicate (UInt32.size - 3) '\n') = .ok q) ∧
      (Text.lines (['f'] ++ '\n' :: List.replicate (UInt32.size - 3) '\n')).length < UInt32.size ∧
      ¬∃ r, check "m" (['f'] ++ '\n' :: List.replicate (UInt32.size - 3) '\n') = .ok r := by
  generalize hn : UInt32.size - 3 = n
  have hsize : n + 3 = UInt32.size := by
    rw [← hn]
    rfl
  refine ⟨?_, ⟨_, check_feeds "m" (by omega)⟩, ?_, ?_⟩
  · obtain ⟨p, hp, -⟩ := @exists_ok_of_any _ _ (check "m" ['f']) (fun _ => true) (by decide +kernel)
    exact ⟨p, hp⟩
  · rw [Text.lines, Text.split_append, ← Text.lines, ← Text.lines, Text.lines_feeds,
      List.length_append, List.length_replicate, ← hsize,
      show (Text.lines ['f']).length = 1 from rfl]
    omega
  · rintro ⟨r, hr⟩
    exact not_inReach_append_feeds hsize (inReach_of_check hr)

end LayoutScript

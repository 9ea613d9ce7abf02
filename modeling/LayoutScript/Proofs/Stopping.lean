import LayoutScript.Proofs.Concatenation
import LayoutScript.Proofs.TapeRuns

/-! Every parser stops, as long as there are words for the positions of all tokens: from each place
in a list of tokens that ends in eof it gives a value or fails at a token that is left. The number
of passes that loops may take and of levels that recursive parsers may open never decides: loops end
by their own steps, and recursive parsers unfold. With one token more, a loop can run for ever. -/
namespace LayoutScript

open LayoutScript.Parser

/-! ### Runs over tapes that end in eof -/

def Parser.closer (p : Parser α) (n : Nat) : Parser α := do
  if (← look).left < n then p else fail .exhausted

namespace Tape

/-- All tokens have positions, and the last one is eof. -/
structure Closed (t : Tape) : Prop where
  size : t.tokens.size ≤ UInt32.size
  cursor : t.cursor.Closed

/-- What a run from `t` may come to: a value after at least as many tokens as `least` says, none of
them eof, or an error of the text at a token that is left. -/
def Leads (t : Tape) (least : α → Nat) : Except SyntaxError (α × Tape) → Prop
  | .ok (a, t') => t'.tokens = t.tokens ∧
      ∃ ts, t.reach = ts ++ t'.reach ∧ (∀ u ∈ ts, u.lexeme ≠ .eof) ∧ least a ≤ ts.length
  | .error e => e.actual ∈ t.reach ∧ e.cause.isReported = true

/-- A recursive parser unfolds: from `t` it does what `level` does, and this meets the parser only
where fewer tokens are left. -/
def Unfolds (level : (ι → Parser α) → ι → Parser α) (p : ι → Parser α) (t : Tape) : Prop :=
  ∀ i, (level (fun i => (p i).closer t.view.left) i).exec t = (p i).exec t

/-- The passes of a loop: each one fails, leaves the loop, or gets ahead and is followed by another.
Nothing but the steps ends the loop. -/
inductive LoopRun (step : σ → Parser (σ × Bool)) :
    σ → Tape → Except SyntaxError (σ × Tape) → Prop
  | fail {s t e} : (step s).exec t = .error e → LoopRun step s t (.error e)
  | leave {s s' t t'} : (step s).exec t = .ok ((s', false), t') → LoopRun step s t (.ok (s', t'))
  | pass {s s' t t' r} : (step s).exec t = .ok ((s', true), t') → t.pos < t'.pos →
      LoopRun step s' t' r → LoopRun step s t r

theorem eq_of_cursor_eq {t t' : Tape} (htokens : t.tokens = t'.tokens) (h : t.cursor = t'.cursor) :
    t = t' := by
  have hinside := t.inside
  have hinside' := t'.inside
  have hahead : t.tokens.size - (t.pos.toNat + 1) = t'.tokens.size - (t'.pos.toNat + 1) := by
    rw [← length_ahead_cursor, ← length_ahead_cursor, h]
  rw [htokens] at hahead hinside
  exact eq_of_pos_eq htokens (UInt32.toNat_inj.1 (by omega))

namespace Closed

variable {t : Tape} (ht : t.Closed)
include ht

theorem reach_eq : t.reach = t.cursor.tokens := by
  rw [reach_eq_drop ht.size, tokens_cursor]

theorem leads {least : α → Nat} {p : Parser α} (h : t.cursor.Leads least (p.run t.cursor)) :
    t.Leads least (p.exec t) := by
  have hfollows := p.exec_follows ht.size
  cases hrun : p.run t.cursor with
  | error e =>
    rw [hrun] at h hfollows
    obtain ⟨hactual, hreported⟩ := h
    rw [hfollows hreported]
    exact ⟨ht.reach_eq ▸ hactual, hreported⟩
  | ok r =>
    obtain ⟨a, c⟩ := r
    rw [hrun] at h hfollows
    obtain ⟨t', htokens, rfl, hexec⟩ := hfollows
    obtain ⟨ts, hpasses, heof, hle⟩ := h
    rw [hexec]
    refine ⟨htokens, ts, ?_, heof, hle⟩
    rw [ht.reach_eq, hpasses.tokens, reach_eq_drop (htokens ▸ ht.size), tokens_cursor]

theorem of_append {t' : Tape} {ts : List Token} (htokens : t'.tokens = t.tokens)
    (hreach : t.reach = ts ++ t'.reach) : t'.Closed := by
  have hsize : t'.tokens.size ≤ UInt32.size := htokens ▸ ht.size
  obtain ⟨us, last, hus, hlast⟩ := ht.cursor
  rw [← ht.reach_eq, hreach, reach_eq_drop hsize, ← tokens_cursor] at hus
  exact ⟨hsize, Cursor.closed_of_append hus hlast⟩

theorem exec_eq {least : α → Nat} {p q : Parser α} (h : q.run t.cursor = p.run t.cursor)
    (hlead : t.cursor.Leads least (p.run t.cursor)) : q.exec t = p.exec t := by
  have hp := p.exec_follows ht.size
  have hq := q.exec_follows ht.size
  rw [h] at hq
  cases hrun : p.run t.cursor with
  | error e =>
    rw [hrun] at hp hq hlead
    rw [hp hlead.2, hq hlead.2]
  | ok r =>
    rw [hrun] at hp hq
    obtain ⟨t₁, htokens₁, hcursor₁, hexec₁⟩ := hp
    obtain ⟨t₂, htokens₂, hcursor₂, hexec₂⟩ := hq
    rw [hexec₁, hexec₂,
      eq_of_cursor_eq (htokens₂.trans htokens₁.symm) (hcursor₂.trans hcursor₁.symm)]

theorem loopWithin_runs {step : σ → Parser (σ × Bool)}
    (hstep : ∀ {t : Tape}, t.Closed → ∀ s, t.Leads (fun r => r.2.toNat) ((step s).exec t)) {n : Nat}
    (hn : t.reach.length ≤ n) (s : σ) : LoopRun step s t ((loopWithin step n s).exec t) := by
  induction n generalizing t s with
  | zero => simp [ht.reach_eq, Cursor.tokens] at hn
  | succ n ih =>
    have hlead := hstep ht s
    show LoopRun step s t ((andThen (step s) _).exec t)
    rw [exec]
    cases hexec : (step s).exec t with
    | error e => exact .fail hexec
    | ok r =>
      obtain ⟨⟨s', more⟩, t'⟩ := r
      cases more with
      | false => exact .leave hexec
      | true =>
        rw [hexec] at hlead
        obtain ⟨htokens, ts, hreach, -, hle⟩ := hlead
        have hlength := congrArg List.length hreach
        rw [List.length_append] at hlength
        have ht' := ht.of_append htokens hreach
        have hpos : t.pos.toNat < t'.pos.toNat := by
          have hinside' := t'.inside
          rw [reach_eq_drop ht.size, reach_eq_drop ht'.size, List.length_drop, List.length_drop,
            htokens, Array.length_toList] at hlength
          rw [htokens] at hinside'
          have : 1 ≤ ts.length := hle
          omega
        have : 1 ≤ ts.length := hle
        exact .pass hexec (UInt32.lt_iff_toNat_lt.2 hpos) (ih ht' (by omega) s')

theorem unfolds {level : (ι → Parser α) → ι → Parser α} {within : Nat → ι → Parser α}
    {least : α → Nat} {post : Pairing.Phase} {g : (Span → Span) → α → α}
    (hn : ∀ P : Pairing, P.Nesting post g level within) (hg : ∀ a, g id a = a)
    (hlead : ∀ i, t.cursor.Leads least ((bounded fun m => within m i).run t.cursor)) :
    Unfolds level (fun i => bounded fun m => within m i) t := by
  intro i
  refine ht.exec_eq (run_level_of_nesting hn hg ht.cursor (fun d _ hd i => ?_) i) (hlead i)
  have hleft : d.view.left < t.view.left := by
    rw [← view_cursor ht.size]
    exact hd
  rw [closer, run_bind_ok (show look.run d = .ok (d.view, d) from rfl), if_pos hleft]

end Closed

end Tape

/-! ### Where the parser stands -/

inductive IsLoop : {σ : Type} → (σ → Parser (σ × Bool)) → Prop
  | program : IsLoop Program.parseNext
  | newlines : IsLoop skipNext
  | statements (place : Place) :
    IsLoop (nextEntry fun body => do return body ++ [← Stmt.parse place])
  | elements : IsLoop (nextEntry fun elements => do return elements ++ [← ElementOf.parse])
  | entries : IsLoop (nextEntry fun entries => do return entries ++ [← Entry.parse])
  | styleRules : IsLoop (nextEntry fun rules => do return rules ++ [← StyleRule.parse])
  | styleDeclarations :
    IsLoop (nextEntry fun declarations => do return declarations ++ [← StyleDeclaration.parse])
  | componentMembers : IsLoop (nextEntry (ComponentOf.parseMember Stmt.parse))
  | classMembers : IsLoop (ClassOf.parseMember Stmt.parse)
  | attributes : IsLoop Attribute.parseNext
  | inline : IsLoop Inline.parseNext
  | accesses (start : Span) : IsLoop (Expr.nextAccess Expr.parse start)
  | arguments (close : Punct) : IsLoop (nextItem close Expr.parse)
  | params (close : Punct) : IsLoop (nextItem close FunctionOf.parseParam)
  | dashes : IsLoop nextDash
  | classes : IsLoop ElementOf.nextClass
  | elsifs (place : Place) : IsLoop (Stmt.nextElsif (indented (Stmt.parse place)))

theorem Cursor.Closed.leads_skipNext {c : Cursor} (hc : c.Closed) (s : Unit) :
    c.Leads (fun r => r.2.toNat) ((skipNext s).run c) := by
  have hadvances (h : c.cur.lexeme = .newline) : c.ahead ≠ [] := hc.advances (by simp) h
  by_cases h : c.cur.lexeme = .newline
  · have hrun : (accept .newline).run c = .ok (true, c.advance) := by
      rw [run_accept hadvances, if_pos h]
    rw [skipNext, run_bind_ok hrun]
    exact ⟨[c.cur], Cursor.passes_advance (hadvances h), by simp [h], Nat.le_refl _⟩
  · have hrun : (accept .newline).run c = .ok (false, c) := by rw [run_accept hadvances, if_neg h]
    rw [skipNext, run_bind_ok hrun]
    exact ⟨[], .refl c, by simp, Nat.le_refl _⟩

theorem IsLoop.leads {step : σ → Parser (σ × Bool)} (h : IsLoop step) {c : Cursor} (hc : c.Closed)
    (s : σ) : c.Leads (fun r => r.2.toNat) ((step s).run c) := by
  have hentries {α : Type} {g : (Span → Span) → α → α} {item : Parser α} (entries : List α)
      (hitem : ∀ (P : Pairing) n, P.Lines n 1 g item item) :
      c.Leads (fun r => r.2.toNat)
        ((nextEntry (fun entries => do return entries ++ [← item]) entries).run c) :=
    leads_of_pairs hc (nextEntry_pairs (g := fun f => List.map (g f)) (entries_pairs (hitem _ _))
      entries entries rfl)
  cases h with
  | program => exact leads_of_pairs hc (Program.parseNext_pairs s s rfl)
  | newlines => exact hc.leads_skipNext s
  | statements place => exact hentries s fun _ _ => Stmt.parse_pairs place
  | elements => exact hentries s fun _ _ => ElementOf.parse_pairs
  | entries => exact hentries s fun _ _ => Entry.parse_pairs
  | styleRules => exact hentries s fun _ _ => StyleRule.parse_pairs
  | styleDeclarations => exact hentries s fun _ _ => StyleDeclaration.parse_pairs
  | componentMembers =>
    exact leads_of_pairs hc (nextEntry_pairs (g := ComponentOf.mapSpan)
      (ComponentOf.parseMember_pairs Stmt.parse_pairs) s s rfl)
  | classMembers => exact leads_of_pairs hc (ClassOf.parseMember_pairs Stmt.parse_pairs s s rfl)
  | attributes => exact leads_of_pairs hc (Attribute.parseNext_pairs s s rfl)
  | inline => exact leads_of_pairs hc (@Inline.parseNext_pairs _ _ s s rfl)
  | accesses start => exact leads_of_pairs hc (Expr.nextAccess_pairs Expr.parse_pairs rfl s s rfl)
  | arguments close => exact leads_of_pairs hc (nextItem_pairs Expr.parse_pairs close s s rfl)
  | params close =>
    exact leads_of_pairs hc (nextItem_pairs FunctionOf.parseParam_pairs close s s rfl)
  | dashes => exact leads_of_pairs hc (nextDash_pairs s s rfl)
  | classes => exact leads_of_pairs hc (ElementOf.nextClass_pairs s s rfl)
  | elsifs place =>
    exact leads_of_pairs hc (Stmt.nextElsif_pairs (indented_pairs (Stmt.parse_pairs place)) s s rfl)

structure StopsAt (t : Tape) : Prop where
  /-- A step passes one token, and at the last one it stays. Only if this is at the last of all
  words the step would lead back to the first, but no run makes it. -/
  advance : t.pos < t.last ∧ t.advance.pos = t.pos + 1 ∨
    t.pos = t.last ∧ (t.tokens.size < UInt32.size → t.advance = t)
  program : t.Leads (fun _ => 0) (Program.parse.exec t)
  statement : ∀ place, t.Leads (fun _ => 1) ((Stmt.parse place).exec t)
  element : t.Leads (fun _ => 1) (ElementOf.parse.exec t)
  expression : t.Leads (fun _ => 1) (Expr.parse.exec t)
  statement_unfolds : t.Unfolds Stmt.parseWith Stmt.parse
  element_unfolds : t.Unfolds (fun q (_ : Unit) => ElementOf.parseWith (q ())) fun _ =>
    ElementOf.parse
  expression_unfolds : t.Unfolds (fun q (_ : Unit) => Expr.parseWith (q ())) fun _ => Expr.parse
  loop : ∀ {σ : Type} {step : σ → Parser (σ × Bool)}, IsLoop step → ∀ s,
    t.LoopRun step s ((loop step s).exec t)

namespace Tape

theorem toNat_pos_succ {t : Tape} (h : t.pos.toNat + 1 < UInt32.size) :
    (t.pos + 1).toNat = t.pos.toNat + 1 := by
  rw [UInt32.toNat_add, UInt32.toNat_one, Nat.mod_eq_of_lt h]

theorem advance_cases {t : Tape} (hsize : t.tokens.size ≤ UInt32.size) :
    t.pos < t.last ∧ t.advance.pos = t.pos + 1 ∨
      t.pos = t.last ∧ (t.tokens.size < UInt32.size → t.advance = t) := by
  have hinside := t.inside
  have hlast := toNat_last hsize
  rcases Nat.lt_or_ge t.pos.toNat t.last.toNat with h | h
  · have hnext := toNat_pos_succ (t := t) (by omega)
    refine .inl ⟨UInt32.lt_iff_toNat_lt.2 h, if_pos (UInt32.le_iff_toNat_le.2 ?_)⟩
    omega
  · have hpos : t.pos = t.last := UInt32.toNat_inj.1 (by omega)
    refine .inr ⟨hpos, fun hfewer => ?_⟩
    have hnext := toNat_pos_succ (t := t) (by omega)
    have hstay : t.advance.pos = t.pos := by
      rw [hpos]
      refine if_neg (mt UInt32.le_iff_toNat_le.1 ?_)
      omega
    exact eq_of_pos_eq rfl hstay

theorem Closed.stopsAt {t : Tape} (ht : t.Closed) : StopsAt t where
  advance := advance_cases ht.size
  program := ht.leads (leads_of_pairs ht.cursor Program.parse_pairs)
  statement place := ht.leads (leads_of_pairs ht.cursor (Stmt.parse_pairs place))
  element := ht.leads (leads_of_pairs ht.cursor ElementOf.parse_pairs)
  expression := ht.leads (leads_of_pairs ht.cursor Expr.parse_pairs)
  statement_unfolds := ht.unfolds (fun _ => Stmt.nesting) Stmt.mapSpan_id fun place =>
    leads_of_pairs ht.cursor (Stmt.parse_pairs place)
  element_unfolds := ht.unfolds (fun _ => ElementOf.nesting) ElementOf.mapSpan_id fun _ =>
    leads_of_pairs ht.cursor ElementOf.parse_pairs
  expression_unfolds := ht.unfolds (fun _ => Expr.nesting) Expr.mapSpan_id fun _ =>
    leads_of_pairs ht.cursor Expr.parse_pairs
  loop h s := by
    have hleft : t.reach.length ≤ t.view.left + 1 := by
      have : t.view.left = t.last.toNat - t.pos.toNat := rfl
      rw [length_reach]
      omega
    exact ht.loopWithin_runs (fun ht s => ht.leads (h.leads ht.cursor s)) hleft s

end Tape

namespace Token

/-- Lists of tokens that are empty or end in eof. -/
def Ended (ts : List Token) : Prop :=
  ts = [] ∨ ∃ us last, ts = us ++ [last] ∧ last.lexeme = .eof

theorem Ended.closed {ts : List Token} {t : Tape} (h : Ended ts) (hsize : ts.length ≤ UInt32.size)
    (ht : t.tokens.toList = ts) : t.Closed := by
  subst ht
  refine ⟨by rwa [Array.length_toList] at hsize, ?_⟩
  obtain hnil | ⟨us, last, hus, hlast⟩ := h
  · have hinside := t.inside
    rw [← Array.length_toList, hnil] at hinside
    cases hinside
  · have happend : t.tokens.toList.take t.pos.toNat ++ t.cursor.tokens = us ++ [last] := by
      rw [Tape.tokens_cursor, List.take_append_drop, hus]
    exact Cursor.closed_of_append happend hlast

theorem Ended.of_ofText {source : String} {code : List Char} {tokens us : List Token}
    {last : Token} (h : ofText source code = .ok (tokens ++ [last])) : Ended (us ++ [last]) := by
  obtain ⟨ts, last', hts, hlast⟩ := ofLines_closed h
  obtain ⟨-, rfl⟩ := List.append_singleton_inj.1 hts
  exact .inr ⟨us, last, rfl, hlast⟩

end Token

/-! ### Too many tokens -/

theorem Parser.exec_skipNext {t : Tape} (h : t.view.cur.lexeme = .newline) :
    (skipNext ()).exec t = .ok (((), true), t.advance) := by
  have hsees : (sees .newline).exec t = .ok (true, t) := by
    rw [← show (t.view.cur.lexeme == .newline) = true from beq_iff_eq.2 h]
    rfl
  have haccept : (accept .newline).exec t = .ok (true, t.advance) :=
    exec_bind_eq_ok.2 ⟨true, t, hsees, rfl⟩
  exact exec_bind_eq_ok.2 ⟨true, t.advance, haccept, rfl⟩

def Token.newlines (n : Nat) : List Token :=
  ⟨.newline, ⟨1, 1, 1, 1, "m"⟩⟩ ::
    (.replicate n ⟨.newline, ⟨1, 1, 1, 1, "m"⟩⟩ ++ [⟨.eof, ⟨1, 1, 1, 1, "m"⟩⟩])

theorem Token.ended_newlines (n : Nat) : Ended (newlines n) :=
  .inr ⟨⟨.newline, ⟨1, 1, 1, 1, "m"⟩⟩ :: .replicate n _, _, rfl, rfl⟩

theorem Parser.exec_skipNext_newlines {n : Nat} (hn : n + 1 = UInt32.size) :
    ∃ t ts, Token.newlines n = t :: ts ∧
      (skipNext ()).exec (Tape.start t ts) = .ok (((), true), Tape.start t ts) := by
  refine ⟨_, _, rfl, ?_⟩
  rw [exec_skipNext rfl, Tape.advance_start]
  rw [List.length_append, List.length_replicate, ← hn]
  rfl

theorem Program.ofTokens_of_stays {t : Token} {ts : List Token}
    (h : (skipNext ()).exec (Tape.start t ts) = .ok (((), true), Tape.start t ts)) :
    ofTokens (t :: ts) = .error ⟨.exhausted, t⟩ := by
  have hexec : parse.exec (Tape.start t ts) = .error ⟨.exhausted, t⟩ := by
    show (andThen (loop skipNext ()) _).exec _ = _
    rw [exec, show (loop skipNext ()).exec _ =
      _ from exec_loopWithin_of_stays (fun _ => ⟨(), h⟩) _ ()]
    rfl
  rw [ofTokens_cons, hexec]
  rfl

/-! ### Whole programs -/

namespace Program

theorem ofTokens_stops {ts : List Token} (h : Token.Ended ts) (hsize : ts.length ≤ UInt32.size) :
    (∃ p, ofTokens ts = .ok p) ∨
      ∃ e, ofTokens ts = .error e ∧ e.actual ∈ ts ∧ e.cause.isReported = true := by
  cases ts with
  | nil => exact .inl ⟨_, rfl⟩
  | cons t ts =>
    have hlead := (h.closed hsize (t := .start t ts) rfl).stopsAt.program
    rw [ofTokens_cons]
    cases hexec : parse.exec (Tape.start t ts) with
    | ok r => exact .inl ⟨r.1, rfl⟩
    | error e =>
      rw [hexec] at hlead
      have hmem : e.actual ∈ t :: ts := List.mem_of_mem_take (List.mem_of_mem_drop hlead.1)
      exact .inr ⟨e, rfl, hmem, hlead.2⟩

/-- For every list of at most `UInt32.size` tokens that is empty or ends in eof the parser gives a
program, or an error of the text at one of the tokens. Wherever it stands it moves by single tokens
and not past the last one, its recursive parsers unfold with fewer tokens left each time, and each
pass of a loop fails, leaves the loop or passes a token. The tokens of a text are such a list,
whichever of them are left out, as long as the last one stays. -/
theorem parser_stops :
    (∀ ts, Token.Ended ts → ts.length ≤ UInt32.size →
      ((∃ p, ofTokens ts = .ok p) ∨
        ∃ e, ofTokens ts = .error e ∧ e.actual ∈ ts ∧ e.cause.isReported = true) ∧
      ∀ t : Tape, t.tokens.toList = ts → StopsAt t) ∧
    ∀ source code tokens last us, Token.ofText source code = .ok (tokens ++ [last]) →
      us.Sublist tokens → Token.Ended (us ++ [last]) :=
  ⟨fun _ hts hsize => ⟨ofTokens_stops hts hsize, fun _ ht => (hts.closed hsize ht).stopsAt⟩,
    fun _ _ _ _ _ h _ => .of_ofText h⟩

theorem parser_stops_nameless :
    ∃ ts last, Token.ofText "m" "f(a, -1)\nif b\n  c".toList = .ok (ts ++ [last]) ∧
      Token.Ended (ts.tail ++ [last]) ∧ (ts.tail ++ [last]).length ≤ UInt32.size ∧
      ((∃ p, ofTokens (ts.tail ++ [last]) = .ok p) ∨
        ∃ e, ofTokens (ts.tail ++ [last]) = .error e ∧ e.actual ∈ ts.tail ++ [last] ∧
          e.cause.isReported = true) := by
  obtain ⟨tokens, htokens, hsize⟩ := @exists_ok_of_any _ _
    (Token.ofText "m" "f(a, -1)\nif b\n  c".toList) (fun tokens => tokens.length ≤ UInt32.size)
    (by decide +kernel)
  obtain ⟨ts, last, rfl, _⟩ := Token.ofLines_closed htokens
  have hfits : (ts.tail ++ [last]).length ≤ UInt32.size := by
    have := of_decide_eq_true hsize
    simp only [List.length_append, List.length_tail] at this ⊢
    omega
  have hended := parser_stops.2 _ _ ts last ts.tail htokens (List.tail_sublist ts)
  exact ⟨ts, last, htokens, hended, hfits, (parser_stops.1 _ hended hfits).1⟩

/-- With one token more than that the parser does not stop: a pass of its first loop gets nowhere
and asks for another, so no number of passes is enough. -/
theorem newlines_skipped_forever : Token.Ended (Token.newlines (UInt32.size - 1)) ∧
    (Token.newlines (UInt32.size - 1)).length = UInt32.size + 1 ∧
    (¬∃ p, ofTokens (Token.newlines (UInt32.size - 1)) = .ok p) ∧
    (¬∃ e, ofTokens (Token.newlines (UInt32.size - 1)) = .error e ∧ e.cause.isReported = true) ∧
    ∃ t, Tape.start? (Token.newlines (UInt32.size - 1)) = some t ∧
      (skipNext ()).exec t = .ok (((), true), t) ∧
      ∀ n, ¬∃ r, (loopWithin skipNext n ()).exec t = .ok r := by
  generalize hn : UInt32.size - 1 = n
  have hsize : n + 1 = UInt32.size := by
    rw [← hn]
    rfl
  obtain ⟨t, ts, hnewlines, hskip⟩ := exec_skipNext_newlines hsize
  have hlength : (Token.newlines n).length = UInt32.size + 1 := by
    rw [Token.newlines, List.length_cons, List.length_append, List.length_replicate, ← hsize]
    rfl
  have hended := Token.ended_newlines n
  rw [hnewlines] at hlength hended ⊢
  rw [ofTokens_of_stays hskip]
  refine ⟨hended, hlength, ?_, ?_, Tape.start t ts, rfl, hskip, fun m => ?_⟩
  · rintro ⟨p, ⟨⟩⟩
  · rintro ⟨e, ⟨⟩, hreported⟩
    cases hreported
  · rw [exec_loopWithin_of_stays fun _ => ⟨(), hskip⟩]
    rintro ⟨r, ⟨⟩⟩

end Program

end LayoutScript

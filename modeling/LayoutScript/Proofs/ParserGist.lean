import LayoutScript.Proofs.Gist
import LayoutScript.Proofs.ParserPairs
import LayoutScript.Proofs.RoundTrip

/-! Parsers see no more of tokens than their gist: where a parser succeeds, it succeeds on every
cursor with the same gist, and gives the same value up to spans. -/
namespace LayoutScript

open LayoutScript.Cursor (Alike)

def ComponentOf.bare (c : ComponentDecl) : ComponentDecl := c.mapSpan fun _ => .origin

namespace Program

theorem parse_run_of_tokens {c c' d : Cursor} {p : Program} (hc : c.Closed)
    (ht : c.tokens = c'.tokens) (h : parse.run c = .ok (p, d)) :
    ∃ d', parse.run c' = .ok (p, d') := by
  have hc' : c'.Closed := by
    obtain ⟨ts, last, hts, hlast⟩ := hc
    exact ⟨ts, last, ht ▸ hts, hlast⟩
  obtain ⟨us, hp, hrule⟩ := (parse_reads hc (Nat.lt_succ_self _)).1 h
  have hp' : c'.Passes us ⟨us.getLastD c'.prev, d.cur, d.ahead⟩ := ⟨ht ▸ hp.tokens, rfl⟩
  exact ⟨_, (parse_reads hc' (Nat.lt_succ_self _)).2 ⟨us, hp', hrule⟩⟩

theorem read_eq_ok_iff {c : Cursor} (hc : c.Closed) {p : Program} :
    read c.tokens = .ok p ↔ ∃ d, parse.run c = .ok (p, d) := by
  have hstart : Cursor.Closed ⟨c.cur, c.cur, c.ahead⟩ := hc
  rw [read, Cursor.tokens, Cursor.ofTokens?]
  constructor
  · intro h
    cases hrun : parse.run ⟨c.cur, c.cur, c.ahead⟩ with
    | error e => simp only [hrun, reduceCtorEq] at h
    | ok r =>
      simp only [hrun, Except.ok.injEq] at h
      obtain ⟨p, d⟩ := r
      subst h
      exact parse_run_of_tokens hstart rfl hrun
  · rintro ⟨d, h⟩
    have htokens : c.tokens = (⟨c.cur, c.cur, c.ahead⟩ : Cursor).tokens := rfl
    obtain ⟨d', hrun⟩ := parse_run_of_tokens hc htokens h
    simp only [hrun]

/-- Tokens with the same gist make the same program, up to spans. -/
theorem read_of_gist {ts ts' : List Token} {last last' before before' : Token} {p : Program}
    (hlast : last.lexeme = .eof) (hlast' : last'.lexeme = .eof)
    (hbefore : before.lexeme = .newline) (hbefore' : before'.lexeme = .newline)
    (hgist : gist before (ts ++ [last]) = gist before' (ts' ++ [last']))
    (h : read (ts ++ [last]) = .ok p) :
    ∃ p', read (ts' ++ [last']) = .ok p' ∧ p.bare = p'.bare := by
  have hcursor {ts : List Token} {last : Token} (hlast : last.lexeme = .eof) (before : Token) :
      ∃ c : Cursor, c.prev = before ∧ c.tokens = ts ++ [last] ∧ c.Closed := by
    obtain ⟨t, us, hts⟩ : ∃ t us, ts ++ [last] = t :: us := List.exists_cons_of_ne_nil (by simp)
    exact ⟨⟨before, t, us⟩, rfl, hts.symm, ts, last, hts.symm, hlast⟩
  obtain ⟨c, hprev, htokens, hc⟩ := hcursor hlast before
  obtain ⟨c', hprev', htokens', hc'⟩ := hcursor hlast' before'
  rw [← hprev] at hbefore hgist
  rw [← hprev'] at hbefore' hgist
  rw [← htokens] at h hgist
  rw [← htokens'] at hgist ⊢
  obtain ⟨d, hrun⟩ := (read_eq_ok_iff hc).1 h
  have halike : Alike c.gist.length c c' :=
    ⟨hc, hc', iff_of_true hbefore hbefore', hgist, Nat.le_refl _⟩
  have hends := parse_pairs (P := gistPairing) (Nat.le_refl _) halike
  rw [Pairing.At, hrun] at hends
  obtain ⟨p', d', hrun', hbare, _⟩ := hends.exists_ok
  exact ⟨p', (read_eq_ok_iff hc').2 ⟨d', hrun'⟩, hbare⟩

end Program

end LayoutScript

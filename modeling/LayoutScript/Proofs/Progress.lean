import LayoutScript.Proofs.ParserRelocation

/-! How far parsers get. A run that succeeds passes tokens of the text only, never eof, and a run
that fails does so at a token that was left. The bounds of recursive parsers are never reached: they
unfold. -/
namespace LayoutScript

namespace Cursor

/-- What a run from `c` may come to: a value after at least as many tokens as `least` says, none of
them eof, or an error of the text at a token that is left. -/
def Leads (c : Cursor) (least : α → Nat) : Except SyntaxError (α × Cursor) → Prop
  | .ok (a, c') => ∃ ts, c.Passes ts c' ∧ (∀ t ∈ ts, t.lexeme ≠ .eof) ∧ least a ≤ ts.length
  | .error e => e.actual ∈ c.tokens ∧ e.cause.isReported = true

end Cursor

namespace Parser

section Runs

variable {α γ : Type} {R : Pairing.Phase} {post : α → Pairing.Phase} {k : α → Nat}
  {g : (Span → Span) → α → γ} {p q : Parser α} {c : Cursor}

/-- With no change of spans, a pairing tells where the run gets to. -/
theorem leads_of_pairs (hc : c.Closed)
    (h : (Relocation.none.pairing c).Pairs (c.ahead.length + 1) R post k g p q) :
    c.Leads k (p.run c) := by
  have hends := h (Nat.le_refl _) (Relocation.none.rel_start hc)
  rw [Pairing.At] at hends
  generalize p.run c = r at hends ⊢
  generalize q.run (c.mapSpan id) = r' at hends
  cases hends with
  | value hab hd =>
    obtain ⟨-, ⟨_, ts, hp, hts⟩, hlength⟩ := hd.alike
    have := hp.length
    exact ⟨ts, hp, hts, by omega⟩
  | error he => exact he.2

end Runs

/-! ### Recursive parsers -/

section Nestings

variable {α ι : Type} {level : (ι → Parser α) → ι → Parser α} {within : Nat → ι → Parser α}

/-- A recursive parser unfolds: it does what `level` does, whatever this calls instead of the
parser, as long as the parser is met where fewer tokens are ahead. -/
theorem run_level_of_nesting {post : Pairing.Phase} {g : (Span → Span) → α → α}
    (hn : ∀ P : Pairing, P.Nesting post g level within) (hg : ∀ a, g id a = a) {c : Cursor}
    (hc : c.Closed) {q : ι → Parser α}
    (hq : ∀ d : Cursor, d.Closed → d.ahead.length < c.ahead.length → ∀ i,
      (q i).run d = (bounded fun m => within m i).run d) (i : ι) :
    (level q i).run c = (bounded fun m => within m i).run c := by
  have hinner (i : ι) : (Relocation.none.pairing c).Pairs c.ahead.length .aligned (fun _ => post)
      (fun _ => 1) g (q i) (within c.ahead.length i) := by
    intro m d d' hm hd
    have hwithin : (Relocation.none.pairing c).Pairs c.ahead.length .aligned (fun _ => post)
        (fun _ => 1) g (bounded fun m => within m i) (bounded fun _ => within c.ahead.length i) :=
      .bounded fun _ hl _ _ hj _ => (hn _).within_pairs hj hl i
    rw [Pairing.At, hq d hd.1.2.1.closed (Nat.lt_of_lt_of_le hd.1.2.2 hm) i]
    exact hwithin hm hd
  have hrun := Relocation.none.run_eq hg hc ((hn _).pairs hinner i)
  have hsame (r : Except SyntaxError (α × Cursor)) : Relocation.result id (g id) r = r := by
    cases r with
    | error e => rfl
    | ok r => rw [Relocation.result, hg, Cursor.mapSpan_id]
  rw [Cursor.mapSpan_id, hsame] at hrun
  calc (level q i).run c = (level (within c.ahead.length) i).run c := hrun.symm
    _ = (bounded fun m => within m i).run c := by
      rw [← (hn (Relocation.none.pairing c)).succ]
      rfl

end Nestings

end Parser

end LayoutScript

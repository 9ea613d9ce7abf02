import LayoutScript.Proofs.Pairing

/-! What parsers see of tokens: their lexemes, which of them touch, and where lines end, but not how
many newline tokens stand in a row. Two cursors with the same gist are led through the same steps,
and the number of tokens that matter bounds the loops on both sides. -/
namespace LayoutScript

/-- The lexemes after `prev`, each with whether it touches the token before. Of the newline tokens
in a row only the first counts. -/
def gist : Token → List Token → List (Lexeme × Bool)
  | _, [] => []
  | prev, t :: ts =>
    if prev.lexeme = .newline ∧ t.lexeme = .newline then gist t ts
    else (t.lexeme, t.lexeme.isSolid && t.follows prev) :: gist t ts

section Gist

variable {prev t : Token} {ts : List Token}

theorem gist_of_newlines (hp : prev.lexeme = .newline) (ht : t.lexeme = .newline) :
    gist prev (t :: ts) = gist t ts := by
  rw [gist, if_pos ⟨hp, ht⟩]

theorem gist_of_not_newlines (h : prev.lexeme ≠ .newline ∨ t.lexeme ≠ .newline) :
    gist prev (t :: ts) = (t.lexeme, t.lexeme.isSolid && t.follows prev) :: gist t ts := by
  rw [gist, if_neg]
  rintro ⟨hp, ht⟩
  rcases h with h | h
  · exact h hp
  · exact h ht

theorem gist_ne_nil {last : Token} (hlast : last.lexeme = .eof) (prev : Token) (ts : List Token) :
    gist prev (ts ++ [last]) ≠ [] := by
  induction ts generalizing prev with
  | nil =>
    rw [List.nil_append, gist_of_not_newlines (.inr (by simp [hlast]))]
    exact List.cons_ne_nil _ _
  | cons t ts ih =>
    rw [List.cons_append, gist]
    split
    · exact ih t
    · exact List.cons_ne_nil _ _

theorem length_gist_le (prev : Token) (ts : List Token) : (gist prev ts).length ≤ ts.length := by
  induction ts generalizing prev with
  | nil => exact Nat.le_refl 0
  | cons t ts ih =>
    have := ih t
    rw [gist]
    split <;> simp only [List.length_cons] <;> omega

end Gist

namespace Cursor

def gist (c : Cursor) : List (Lexeme × Bool) := LayoutScript.gist c.prev c.tokens

/-- Two cursors with the same gist, of at most `n` tokens. One may have more newline tokens in
front. -/
structure Alike (n : Nat) (c c' : Cursor) : Prop where
  closed : c.Closed
  closed' : c'.Closed
  line : c.prev.lexeme = .newline ↔ c'.prev.lexeme = .newline
  gist : c.gist = c'.gist
  length : c.gist.length ≤ n

variable {n m : Nat} {c c' d d' : Cursor}

theorem Alike.mono (h : Alike n c c') (hm : n ≤ m) : Alike m c c' :=
  { h with length := Nat.le_trans h.length hm }

theorem Closed.gist_ne_nil (h : c.Closed) : c.gist ≠ [] := by
  obtain ⟨ts, last, ht, hlast⟩ := h
  rw [Cursor.gist, ht]
  exact LayoutScript.gist_ne_nil hlast c.prev ts

theorem Alike.pos (h : Alike n c c') : 0 < n :=
  Nat.lt_of_lt_of_le (List.length_pos_iff.2 h.closed.gist_ne_nil) h.length

theorem gist_of_not_newlines (h : c.prev.lexeme ≠ .newline ∨ c.cur.lexeme ≠ .newline) :
    c.gist = (c.cur.lexeme, c.cur.lexeme.isSolid && c.cur.follows c.prev) ::
      LayoutScript.gist c.cur c.ahead :=
  LayoutScript.gist_of_not_newlines h

theorem Closed.gist_advance (hc : c.Closed) (he : c.cur.lexeme ≠ .eof) :
    c.advance.gist = LayoutScript.gist c.cur c.ahead := by
  have hstep := hc.passes_advance he
  have htokens : c.advance.tokens = c.ahead := (List.cons.inj hstep.tokens).2.symm
  rw [Cursor.gist, htokens, show c.advance.prev = c.cur from hstep.prev]

/-- Past a newline token, cursors may be at different ones of the newline tokens in a row. -/
theorem Alike.aligned (h : Alike n c c')
    (hnewline : c.prev.lexeme ≠ .newline ∨
      c.cur.lexeme ≠ .newline ∧ c'.cur.lexeme ≠ .newline) : Aligned Alike n c c' := by
  have hgist := h.gist
  have hc : c.prev.lexeme ≠ .newline ∨ c.cur.lexeme ≠ .newline := hnewline.imp_right And.left
  have hc' : c'.prev.lexeme ≠ .newline ∨ c'.cur.lexeme ≠ .newline :=
    hnewline.imp (mt h.line.2) And.right
  rw [gist_of_not_newlines hc, gist_of_not_newlines hc'] at hgist
  exact ⟨h, congrArg Prod.fst (List.cons.inj hgist).1⟩

namespace Aligned

theorem gist_ahead (h : Aligned Alike n c c') :
    LayoutScript.gist c.cur c.ahead = LayoutScript.gist c'.cur c'.ahead := by
  have hgist := h.alike.gist
  by_cases hnew : c.prev.lexeme = .newline ∧ c.cur.lexeme = .newline
  · have hnew' : c'.prev.lexeme = .newline ∧ c'.cur.lexeme = .newline :=
      ⟨h.alike.line.1 hnew.1, h.lexeme ▸ hnew.2⟩
    rwa [Cursor.gist, Cursor.gist, tokens, tokens, gist_of_newlines hnew.1 hnew.2,
      gist_of_newlines hnew'.1 hnew'.2] at hgist
  · have hc : c.prev.lexeme ≠ .newline ∨ c.cur.lexeme ≠ .newline := by
      rwa [ne_eq, ne_eq, ← Classical.not_and_iff_not_or_not]
    have hc' : c'.prev.lexeme ≠ .newline ∨ c'.cur.lexeme ≠ .newline := by
      rwa [ne_eq, ← h.alike.line, ← h.lexeme]
    rw [gist_of_not_newlines hc, gist_of_not_newlines hc'] at hgist
    exact (List.cons.inj hgist).2

theorem follows (h : Aligned Alike n c c') (hs : c.cur.lexeme.isSolid = true) :
    c.cur.follows c.prev = c'.cur.follows c'.prev := by
  have hgist := h.alike.gist
  have hne : c.cur.lexeme ≠ .newline := Lexeme.ne_of_isSolid hs rfl
  rw [gist_of_not_newlines (.inr hne), gist_of_not_newlines (.inr (h.lexeme ▸ hne)), ← h.lexeme,
    hs] at hgist
  exact congrArg Prod.snd (List.cons.inj hgist).1

theorem alike_advance (h : Aligned Alike n c c') (he : c.cur.lexeme ≠ .eof) :
    Alike n c.advance c'.advance := by
  have he' : c'.cur.lexeme ≠ .eof := h.lexeme ▸ he
  have hstep := h.alike.closed.passes_advance he
  have hstep' := h.alike.closed'.passes_advance he'
  have hgist := h.alike.closed.gist_advance he
  refine ⟨hstep.closed h.alike.closed, hstep'.closed h.alike.closed', ?_, ?_, ?_⟩
  · rw [show c.advance.prev = c.cur from hstep.prev, show c'.advance.prev = c'.cur from hstep'.prev,
      h.lexeme]
  · rw [hgist, h.alike.closed'.gist_advance he', h.gist_ahead]
  · have hlength := h.alike.length
    rw [Cursor.gist, tokens, LayoutScript.gist] at hlength
    rw [hgist]
    split at hlength
    · exact hlength
    · rw [List.length_cons] at hlength
      omega

theorem advance (h : Aligned Alike n c c') (hn : c.cur.lexeme ≠ .newline)
    (he : c.cur.lexeme ≠ .eof) :
    Aligned Alike (n - 1) c.advance c'.advance := by
  have halike := h.alike_advance he
  have hprev : c.advance.prev = c.cur := (h.alike.closed.passes_advance he).prev
  have hlength := h.alike.length
  rw [gist_of_not_newlines (.inr hn), List.length_cons, ← h.alike.closed.gist_advance he] at hlength
  have hshorter : Alike (n - 1) c.advance c'.advance := { halike with length := by omega }
  exact hshorter.aligned (.inl (hprev ▸ hn))

end Aligned

/-- After a newline token, further ones leave the gist as it is. -/
theorem Closed.gist_newlines {ns : List Token} (hc : c.Closed) (hp : c.Passes ns d)
    (hns : Newlines ns) (hprev : c.prev.lexeme = .newline) :
    c.gist = d.gist ∧ d.prev.lexeme = .newline := by
  induction ns generalizing c with
  | nil =>
    rw [hp.eq]
    exact ⟨rfl, hprev⟩
  | cons t ns ih =>
    have hcur : c.cur.lexeme = .newline := hp.cur_cons ▸ hns t List.mem_cons_self
    have he : c.cur.lexeme ≠ .eof := by simp [hcur]
    have hstep := hc.passes_advance he
    have hgist : c.gist = c.advance.gist := by
      rw [hc.gist_advance he, Cursor.gist, tokens, gist_of_newlines hprev hcur]
    have hnext : c.advance.prev.lexeme = .newline := by
      rwa [show c.advance.prev = c.cur from hstep.prev]
    rw [hgist]
    exact ih (hstep.closed hc) hp.advance (fun u hu => hns u (List.mem_cons_of_mem _ hu)) hnext

theorem Alike.skip (h : Alike n c c') : Aligned Alike n c.skipNewlines c'.skipNewlines := by
  obtain ⟨ns, hp, hns, hd⟩ := h.closed.skipNewlines_passes
  obtain ⟨ns', hp', hns', hd'⟩ := h.closed'.skipNewlines_passes
  generalize c.skipNewlines = d at hp hd ⊢
  generalize c'.skipNewlines = d' at hp' hd' ⊢
  have hskip {c c' : Cursor} {ns ns' : List Token} (h : Alike n c c')
      (hprev : c.prev.lexeme = .newline) (hp : c.Passes ns d) (hns : Newlines ns)
      (hp' : c'.Passes ns' d') (hns' : Newlines ns') : Aligned Alike n d d' := by
    obtain ⟨hgist, hline⟩ := h.closed.gist_newlines hp hns hprev
    obtain ⟨hgist', hline'⟩ := h.closed'.gist_newlines hp' hns' (h.line.1 hprev)
    have halike : Alike n d d' := {
      closed := hp.closed h.closed
      closed' := hp'.closed h.closed'
      line := iff_of_true hline hline'
      gist := by rw [← hgist, ← hgist', h.gist]
      length := by rw [← hgist]; exact h.length }
    exact halike.aligned (.inr ⟨hd, hd'⟩)
  by_cases hprev : c.prev.lexeme = .newline
  · exact hskip h hprev hp hns hp' hns'
  have haligned := h.aligned (.inl hprev)
  -- Both stand at the first newline token of a row, or at none.
  cases ns with
  | nil =>
    have hcur : c'.cur.lexeme ≠ .newline := by rwa [← haligned.lexeme, ← hp.eq]
    cases ns' with
    | nil =>
      rw [hp.eq, hp'.eq]
      exact haligned
    | cons t ns' => exact absurd (hp'.cur_cons ▸ hns' t List.mem_cons_self) hcur
  | cons t ns =>
    have hcur : c.cur.lexeme = .newline := hp.cur_cons ▸ hns t List.mem_cons_self
    have he : c.cur.lexeme ≠ .eof := by simp [hcur]
    cases ns' with
    | nil => exact absurd (haligned.lexeme.symm.trans hcur) (hp'.eq ▸ hd')
    | cons t' ns' =>
      have hnext : c.advance.prev.lexeme = .newline := by
        rwa [show c.advance.prev = c.cur from (h.closed.passes_advance he).prev]
      exact hskip (haligned.alike_advance he) hnext hp.advance
        (fun u hu => hns u (List.mem_cons_of_mem _ hu)) hp'.advance
        fun u hu => hns' u (List.mem_cons_of_mem _ hu)

end Cursor

def gistPairing : Pairing where
  left _ := .origin
  right _ := .origin
  Alike := Cursor.Alike
  Fails e e' := e.cause = e'.cause
  join _ _ := rfl
  closed h := ⟨h.closed, h.closed'⟩
  mono := Cursor.Alike.mono
  pos := Cursor.Alike.pos
  within h := ⟨_, h.length, length_gist_le _ _, h.gist ▸ length_gist_le _ _,
    { h with length := Nat.le_refl _ }⟩
  cur _ := rfl
  prev _ := rfl
  follows := Cursor.Aligned.follows
  alike_advance := Cursor.Aligned.alike_advance
  aligned_advance := Cursor.Aligned.advance
  skip := Cursor.Alike.skip
  fails _ _ := rfl

end LayoutScript

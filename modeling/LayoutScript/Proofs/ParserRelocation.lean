import LayoutScript.Proofs.ParserPairs

/-! Parsers commute with a change of spans, errors included, if the change keeps what parsers ask of
spans: how two of them join, and which tokens touch. The pairing that says so also follows where a
run gets to, so that with no change at all it tells how far parsers read. -/
namespace LayoutScript

open LayoutScript.Parser

/-- A change of spans that parsers do not notice. -/
structure Relocation (f : Span → Span) : Prop where
  join : ∀ a b : Span, f (a.join b) = (f a).join (f b)
  follows : ∀ t u : Token, (t.mapSpan f).follows (u.mapSpan f) = t.follows u

theorem Relocation.none : Relocation id := ⟨fun _ _ => rfl, fun _ _ => rfl⟩

namespace Cursor

def mapSpan (f : Span → Span) (c : Cursor) : Cursor :=
  ⟨c.prev.mapSpan f, c.cur.mapSpan f, c.ahead.map (Token.mapSpan f)⟩

theorem mapSpan_id (c : Cursor) : c.mapSpan id = c := by
  have hahead : c.ahead.map (Token.mapSpan id) = c.ahead := List.map_id'' (fun _ => rfl) _
  rw [mapSpan, hahead]
  rfl

theorem advance_mapSpan (f : Span → Span) (c : Cursor) :
    (c.mapSpan f).advance = c.advance.mapSpan f := by
  obtain ⟨prev, cur, ahead⟩ := c
  cases ahead <;> rfl

theorem skipNewlines_mapSpan (f : Span → Span) (c : Cursor) :
    (c.mapSpan f).skipNewlines = c.skipNewlines.mapSpan f := by
  obtain ⟨prev, cur, ahead⟩ := c
  rw [skipNewlines, skipNewlines, mapSpan]
  induction ahead generalizing prev cur with
  | nil => rfl
  | cons t ts ih =>
    rw [List.map_cons, passNewlines, passNewlines, ih]
    show (if cur.lexeme = .newline then _ else _) = _
    split <;> rfl

theorem Closed.mapSpan {c : Cursor} (f : Span → Span) (hc : c.Closed) : (c.mapSpan f).Closed := by
  obtain ⟨ts, last, hts, hlast⟩ := hc
  refine ⟨ts.map (Token.mapSpan f), last.mapSpan f, ?_, hlast⟩
  show c.tokens.map (Token.mapSpan f) = _
  rw [hts, List.map_append, List.map_singleton]

/-- A run from `c` may get to `d`: the end of the text is never passed. -/
structure Reaches (c d : Cursor) : Prop where
  closed : d.Closed
  passes : ∃ ts, c.Passes ts d ∧ ∀ t ∈ ts, t.lexeme ≠ .eof

variable {c d e : Cursor} {ts : List Token}

theorem Closed.reaches (hc : c.Closed) : c.Reaches c := ⟨hc, [], .refl c, by simp⟩

theorem Reaches.after (h : c.Reaches d) (hp : d.Passes ts e) (hts : ∀ t ∈ ts, t.lexeme ≠ .eof) :
    c.Reaches e := by
  obtain ⟨hd, us, hu, hus⟩ := h
  refine ⟨hp.closed hd, us ++ ts, hu.trans hp, fun t ht => ?_⟩
  exact (List.mem_append.1 ht).elim (hus t) (hts t)

theorem Reaches.advance (h : c.Reaches d) (he : d.cur.lexeme ≠ .eof) : c.Reaches d.advance :=
  h.after (h.closed.passes_advance he) (by simpa using he)

end Cursor

/-- A text and the same text with changed spans, read from `c` on. -/
def Relocation.pairing {f : Span → Span} (hf : Relocation f) (c : Cursor) : Pairing where
  left := f
  right := id
  Alike n d d' := d' = d.mapSpan f ∧ c.Reaches d ∧ d.ahead.length < n
  Fails e e' := e' = e.mapSpan f ∧ e.actual ∈ c.tokens ∧ e.cause.isReported = true
  join := by
    intro a b a' b' ha hb
    rw [hf.join, ha, hb]
    rfl
  closed := by
    rintro n d _ ⟨rfl, hd, _⟩
    exact ⟨hd.closed, hd.closed.mapSpan f⟩
  mono h hm := ⟨h.1, h.2.1, Nat.lt_of_lt_of_le h.2.2 hm⟩
  pos h := Nat.zero_lt_of_lt h.2.2
  within := by
    rintro n d _ ⟨rfl, hd, hn⟩
    have hlength : (d.mapSpan f).ahead.length = d.ahead.length := List.length_map _
    exact ⟨_, hn, Nat.le_refl _, by omega, rfl, hd, Nat.lt_succ_self _⟩
  cur := by
    rintro n d _ ⟨rfl, _⟩
    rfl
  prev := by
    rintro n d _ ⟨rfl, _⟩
    rfl
  follows := by
    rintro n d _ ⟨⟨rfl, _⟩, _⟩ _
    exact (hf.follows d.cur d.prev).symm
  alike_advance := by
    rintro n d _ ⟨⟨rfl, hd, hn⟩, _⟩ he
    refine ⟨Cursor.advance_mapSpan f d, hd.advance he, ?_⟩
    rw [Cursor.length_ahead_advance]
    omega
  aligned_advance := by
    rintro n d _ ⟨⟨rfl, hd, hn⟩, _⟩ _ he
    have hpos := List.length_pos_iff.2 (hd.closed.ahead_ne_nil he)
    refine ⟨⟨Cursor.advance_mapSpan f d, hd.advance he, ?_⟩, ?_⟩
    · rw [Cursor.length_ahead_advance]
      omega
    · rw [Cursor.advance_mapSpan]
      rfl
  skip := by
    rintro n d _ ⟨rfl, hd, hn⟩
    obtain ⟨ns, hp, hns, _⟩ := hd.closed.skipNewlines_passes
    have hlength := hp.length
    refine ⟨⟨Cursor.skipNewlines_mapSpan f d, hd.after hp fun t ht => ?_, by omega⟩, ?_⟩
    · simp [hns t ht]
    · rw [Cursor.skipNewlines_mapSpan]
      rfl
  fails := by
    rintro n d _ cause hr ⟨⟨rfl, ⟨_, ts, hp, _⟩, _⟩, _⟩
    refine ⟨rfl, ?_, hr⟩
    rw [hp.tokens]
    exact List.mem_append_right ts List.mem_cons_self

namespace Relocation

variable {α : Type} {f : Span → Span} (hf : Relocation f) {c : Cursor} {post : α → Pairing.Phase}
  {k : α → Nat} {R : Pairing.Phase}

theorem rel_start (hc : c.Closed) : (hf.pairing c).Rel R (c.ahead.length + 1) c (c.mapSpan f) := by
  cases R with
  | aligned => exact ⟨⟨rfl, hc.reaches, Nat.lt_succ_self _⟩, rfl⟩
  | alike => exact ⟨rfl, hc.reaches, Nat.lt_succ_self _⟩

/-- What a parser gives after a change of spans: a value changed by `g`, or the same error
elsewhere. -/
def result (f : Span → Span) (g : α → α) :
    Except SyntaxError (α × Cursor) → Except SyntaxError (α × Cursor)
  | .ok (a, c) => .ok (g a, c.mapSpan f)
  | .error e => .error (e.mapSpan f)

theorem run_eq {g : (Span → Span) → α → α} {p q : Parser α} (hg : ∀ a, g id a = a) (hc : c.Closed)
    (h : (hf.pairing c).Pairs (c.ahead.length + 1) R post k g p q) :
    q.run (c.mapSpan f) = result f (g f) (p.run c) := by
  have hends := h (Nat.le_refl _) (hf.rel_start hc)
  rw [Pairing.At] at hends
  generalize p.run c = r at hends ⊢
  generalize q.run (c.mapSpan f) = r' at hends ⊢
  cases hends with
  | @value a b d d' hab hd =>
    rw [← hg b, hd.alike.1]
    exact congrArg (fun a => Except.ok (a, d.mapSpan f)) hab.symm
  | error he =>
    rw [he.1]
    rfl

end Relocation

theorem Stmt.parse_mapSpan {f : Span → Span} (hf : Relocation f) {c : Cursor} (hc : c.Closed)
    (place : Place) :
    (parse place).run (c.mapSpan f) = Relocation.result f (mapSpan f) ((parse place).run c) :=
  hf.run_eq mapSpan_id hc (parse_pairs place)

end LayoutScript

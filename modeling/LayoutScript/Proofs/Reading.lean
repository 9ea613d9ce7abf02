import LayoutScript.Syntax.Program

/-! What parsers read. A parser that succeeds passes some tokens, and what it gives depends on these
and on the tokens around them only. `ReadsWithin` states both directions: a run that succeeds
follows the rule, and what follows the rule is read. Runs are over lists of any length here; a step
past the last token has no answer. -/
namespace LayoutScript

structure Cursor where
  /-- The token before, or the current one at the very start. -/
  prev : Token
  cur : Token
  ahead : List Token
  deriving DecidableEq, Repr

namespace Cursor

def ofTokens? : List Token → Option Cursor
  | [] => none
  | t :: ts => some ⟨t, t, ts⟩

def advance (c : Cursor) : Cursor :=
  match c.ahead with
  | [] => c
  | t :: ts => ⟨c.cur, t, ts⟩

def peek (c : Cursor) : Token := c.ahead.head?.getD c.cur

def view (c : Cursor) : View := ⟨c.prev, c.cur, c.peek, c.ahead.length⟩

@[simp] theorem length_ahead_advance (c : Cursor) :
    c.advance.ahead.length = c.ahead.length - 1 := by
  unfold advance
  split <;> simp_all

end Cursor

def Parser.run {α : Type} : Parser α → Cursor → Except SyntaxError (α × Cursor)
  | .give a, c => .ok (a, c)
  | .andThen p f, c =>
    match p.run c with
    | .error e => .error e
    | .ok (a, c) => (f a).run c
  | .look, c => .ok (c.view, c)
  | .advance, c => if c.ahead.isEmpty then .error ⟨.exhausted, c.cur⟩ else .ok ((), c.advance)
  | .fail cause, c => .error ⟨cause, c.cur⟩

def Program.read (tokens : List Token) : Except SyntaxError Program :=
  match Cursor.ofTokens? tokens with
  | none => .ok ⟨[]⟩
  | some c =>
    match parse.run c with
    | .error e => .error e
    | .ok (p, _) => .ok p

/-- How tokens make up a value: `rule ts next a` says that `ts` in front of `next` is read as
`a`. -/
abbrev Rule (α : Type) := List Token → Token → α → Prop

theorem headD_append (ts us : List Token) (next : Token) :
    (ts ++ us).headD next = ts.headD (us.headD next) := by
  cases ts <;> rfl

theorem getLastD_append (ts us : List Token) (prev : Token) :
    (ts ++ us).getLastD prev = us.getLastD (ts.getLastD prev) := by
  induction ts generalizing prev with
  | nil => rfl
  | cons t ts ih => rw [List.cons_append, List.getLastD_cons, List.getLastD_cons, ih]

theorem getLastD_of_ne_nil {ts : List Token} (h : ts ≠ []) (prev prev' : Token) :
    ts.getLastD prev = ts.getLastD prev' := by
  cases ts with
  | nil => exact absurd rfl h
  | cons t ts => rw [List.getLastD_cons, List.getLastD_cons]

namespace Cursor

def tokens (c : Cursor) : List Token := c.cur :: c.ahead

def Closed (c : Cursor) : Prop := ∃ ts last, c.tokens = ts ++ [last] ∧ last.lexeme = .eof

theorem closed_of_append {c : Cursor} {ts us : List Token} {last : Token}
    (h : ts ++ c.tokens = us ++ [last]) (hlast : last.lexeme = .eof) : c.Closed := by
  rcases List.append_eq_append_iff.1 h with ⟨vs, rfl, hv⟩ | ⟨vs, rfl, hv⟩
  · exact ⟨vs, last, hv, hlast⟩
  · cases vs with
    | nil => exact ⟨[], last, by simpa using hv.symm, hlast⟩
    | cons v vs => simp [Cursor.tokens] at hv

/-- The cursor `c'` stands after the tokens `ts` that `c` is about to read. -/
structure Passes (c : Cursor) (ts : List Token) (c' : Cursor) : Prop where
  tokens : c.tokens = ts ++ c'.tokens
  prev : c'.prev = ts.getLastD c.prev

namespace Passes

variable {c c' c'' : Cursor} {t : Token} {ts us : List Token}

theorem refl (c : Cursor) : c.Passes [] c := ⟨rfl, rfl⟩

theorem trans (h : c.Passes ts c') (h' : c'.Passes us c'') : c.Passes (ts ++ us) c'' where
  tokens := by rw [h.tokens, h'.tokens, List.append_assoc]
  prev := by rw [h'.prev, h.prev, getLastD_append]

theorem eq (h : c.Passes [] c') : c' = c := by
  obtain ⟨prev, cur, ahead⟩ := c
  obtain ⟨prev', cur', ahead'⟩ := c'
  obtain ⟨ht, hp⟩ := h
  simp only [Cursor.tokens, List.nil_append, List.cons.injEq] at ht
  obtain ⟨rfl, rfl⟩ := ht
  rw [show prev' = prev from hp]

theorem cur (h : c.Passes ts c') : c.cur = ts.headD c'.cur := by
  have ht := h.tokens
  cases ts with
  | nil => exact (List.cons.inj ht).1
  | cons t ts => exact (List.cons.inj ht).1

theorem cur_cons (h : c.Passes (t :: ts) c') : c.cur = t := h.cur

theorem advance (h : c.Passes (t :: ts) c') : c.advance.Passes ts c' := by
  obtain ⟨ht, hp⟩ := h
  obtain ⟨rfl, ha⟩ := List.cons.inj ht
  have hn : c.ahead = ts ++ c'.tokens := ha
  obtain ⟨u, us, hu⟩ : ∃ u us, ts ++ c'.tokens = u :: us := by
    cases ts with
    | nil => exact ⟨_, _, rfl⟩
    | cons v vs => exact ⟨_, _, rfl⟩
  have he : c.advance = ⟨c.cur, u, us⟩ := by rw [Cursor.advance, hn, hu]
  rw [he]
  exact ⟨hu.symm, by rw [hp, List.getLastD_cons]⟩

theorem step (h : c.Passes [t] c') : c.advance = c' := h.advance.eq.symm

theorem ahead_ne_nil (h : c.Passes (t :: ts) c') : c.ahead ≠ [] := by
  rw [show c.ahead = ts ++ c'.tokens from (List.cons.inj h.tokens).2]
  exact List.append_ne_nil_of_right_ne_nil ts (List.cons_ne_nil _ _)

theorem peek (h : c.Passes (t :: ts) c') : c.peek = ts.headD c'.cur := by
  have hn : c.ahead = ts ++ c'.tokens := (List.cons.inj h.tokens).2
  rw [Cursor.peek, hn]
  cases ts <;> rfl

theorem peek_append (h : c.Passes (t :: ts ++ us) c') :
    c.peek = ts.headD (us.headD c'.cur) := by
  rw [← headD_append]
  exact h.peek

theorem split (h : c.Passes (ts ++ us) c') : ∃ d, c.Passes ts d ∧ d.Passes us c' := by
  induction ts generalizing c with
  | nil => exact ⟨c, .refl c, h⟩
  | cons t ts ih =>
    obtain ⟨d, hd, hd'⟩ := ih h.advance
    refine ⟨d, ⟨?_, ?_⟩, hd'⟩
    · have ht := h.tokens
      rw [hd'.tokens] at *
      simpa using ht
    · rw [hd.prev, List.getLastD_cons]
      obtain ⟨v, vs, hv⟩ : ∃ v vs, c.ahead = v :: vs := by
        have hn : c.ahead = ts ++ us ++ c'.tokens := (List.cons.inj h.tokens).2
        cases hc : c.ahead with
        | nil => simp [hc, Cursor.tokens] at hn
        | cons v vs => exact ⟨v, vs, rfl⟩
      rw [Cursor.advance, hv, ← h.cur_cons]

theorem length (h : c.Passes ts c') : c.ahead.length = ts.length + c'.ahead.length := by
  have hl := congrArg List.length h.tokens
  simp only [Cursor.tokens, List.length_cons, List.length_append] at hl
  omega

theorem closed (h : c.Passes ts c') (hc : c.Closed) : c'.Closed := by
  obtain ⟨us, last, hu, hl⟩ := hc
  rw [h.tokens] at hu
  exact closed_of_append hu hl

end Passes

theorem Closed.ahead_ne_nil {c : Cursor} (hc : c.Closed) (h : c.cur.lexeme ≠ .eof) :
    c.ahead ≠ [] := by
  intro ha
  obtain ⟨ts, last, ht, hl⟩ := hc
  rw [tokens, ha] at ht
  cases ts with
  | nil => exact h ((List.cons.inj ht).1 ▸ hl)
  | cons t ts => simp at ht

theorem Closed.advances {c : Cursor} (hc : c.Closed) {lexeme : Lexeme} (heof : lexeme ≠ .eof)
    (h : c.cur.lexeme = lexeme) : c.ahead ≠ [] :=
  hc.ahead_ne_nil (h ▸ heof)

theorem passes_advance {c : Cursor} (h : c.ahead ≠ []) : c.Passes [c.cur] c.advance := by
  obtain ⟨t, ts, ht⟩ := List.exists_cons_of_ne_nil h
  rw [advance, ht]
  exact ⟨by rw [tokens, ht]; rfl, rfl⟩

theorem Closed.passes_advance {c : Cursor} (hc : c.Closed) (h : c.cur.lexeme ≠ .eof) :
    c.Passes [c.cur] c.advance :=
  Cursor.passes_advance (hc.ahead_ne_nil h)

theorem Closed.cur_advance {c : Cursor} (hc : c.Closed) (h : c.cur.lexeme ≠ .eof) :
    c.advance.cur = c.peek :=
  (hc.passes_advance h).peek.symm

end Cursor

namespace Parser

/-! Runs of the combinators. -/

@[simp] theorem run_pure (a : α) (c : Cursor) : (pure a : Parser α).run c = .ok (a, c) := rfl

theorem run_bind (p : Parser α) (f : α → Parser β) (c : Cursor) :
    (p >>= f).run c =
      match p.run c with
      | .error e => .error e
      | .ok (a, c) => (f a).run c := by
  show (andThen p f).run c = _
  rw [run]

theorem run_bind_ok {p : Parser α} {f : α → Parser β} {c c' : Cursor} {a : α}
    (h : p.run c = .ok (a, c')) : (p >>= f).run c = (f a).run c' := by
  rw [run_bind, h]

theorem run_bind_error {p : Parser α} {f : α → Parser β} {c : Cursor} {e : SyntaxError}
    (h : p.run c = .error e) : (p >>= f).run c = .error e := by
  rw [run_bind, h]

theorem run_bind_congr {p : Parser α} {f g : α → Parser β} {c : Cursor}
    (h : ∀ a c, (f a).run c = (g a).run c) : (p >>= f).run c = (p >>= g).run c := by
  rw [run_bind, run_bind]
  cases p.run c with
  | error e => rfl
  | ok r => exact h r.1 r.2

theorem run_bind_assoc (p : Parser α) (f : α → Parser β) (g : β → Parser γ) (c : Cursor) :
    (p >>= f >>= g).run c = (p >>= fun a => f a >>= g).run c := by
  rw [run_bind, run_bind, run_bind]
  cases p.run c with
  | error e => rfl
  | ok r => exact (run_bind (f r.1) g r.2).symm

theorem bind_eq_ok {p : Parser α} {f : α → Parser β} {c c'' : Cursor} {b : β} :
    (p >>= f).run c = .ok (b, c'') ↔
      ∃ a c', p.run c = .ok (a, c') ∧ (f a).run c' = .ok (b, c'') := by
  constructor
  · intro h
    cases hp : p.run c with
    | error e => rw [run_bind_error hp] at h; cases h
    | ok r => exact ⟨r.1, r.2, rfl, by rwa [run_bind_ok hp] at h⟩
  · rintro ⟨a, c', hp, hf⟩
    rw [run_bind_ok hp, hf]

theorem pure_eq_ok {a b : α} {c c' : Cursor} :
    (pure a : Parser α).run c = .ok (b, c') ↔ b = a ∧ c' = c := by
  rw [run_pure]
  constructor
  · intro h
    cases h
    exact ⟨rfl, rfl⟩
  · rintro ⟨rfl, rfl⟩
    rfl

@[simp] theorem run_current (c : Cursor) : current.run c = .ok (c.cur, c) := rfl

@[simp] theorem run_here (c : Cursor) : here.run c = .ok (c.cur.span, c) := rfl

@[simp] theorem run_prevSpan (c : Cursor) : prevSpan.run c = .ok (c.prev.span, c) := rfl

@[simp] theorem run_peek (c : Cursor) : peek.run c = .ok (c.peek, c) := rfl

theorem run_advance {c : Cursor} (h : c.ahead ≠ []) : advance.run c = .ok ((), c.advance) := by
  rw [run, if_neg (mt List.isEmpty_iff.1 h)]

@[simp] theorem run_adjacent (c : Cursor) : adjacent.run c = .ok (c.cur.follows c.prev, c) := rfl

@[simp] theorem run_sees (lexeme : Lexeme) (c : Cursor) :
    (sees lexeme).run c = .ok (c.cur.lexeme == lexeme, c) := rfl

@[simp] theorem run_seesPunct (p : Punct) (c : Cursor) :
    (seesPunct p).run c = .ok (c.cur.lexeme == .punct p, c) := rfl

@[simp] theorem run_fail (cause : SyntaxCause) (c : Cursor) :
    (fail cause : Parser α).run c = .error ⟨cause, c.cur⟩ := rfl

theorem run_accept {lexeme : Lexeme} {c : Cursor} (ha : c.cur.lexeme = lexeme → c.ahead ≠ []) :
    (accept lexeme).run c =
      if c.cur.lexeme = lexeme then .ok (true, c.advance) else .ok (false, c) := by
  rw [accept, run_bind_ok (run_sees lexeme c)]
  by_cases h : c.cur.lexeme = lexeme
  · rw [if_pos h, if_pos (beq_iff_eq.2 h), run_bind_ok (run_advance (ha h)), run_pure]
  · rw [if_neg h, if_neg (mt beq_iff_eq.1 h), run_pure]

/-- From a cursor with fewer than `n` tokens ahead, `p` reads what `rule` describes, and all of it.
The rule may depend on the token before. -/
def ReadsWithin (n : Nat) (p : Parser α) (rule : Token → Rule α) : Prop :=
  ∀ ⦃c c' : Cursor⦄ ⦃a : α⦄, c.Closed → c.ahead.length < n →
    (p.run c = .ok (a, c') ↔ ∃ ts, c.Passes ts c' ∧ rule c.prev ts c'.cur a)

def Then (first : Token → Rule α) (second : α → Token → Rule β) : Token → Rule β :=
  fun prev ts next b => ∃ us vs a,
    ts = us ++ vs ∧ first prev us (vs.headD next) a ∧ second a (us.getLastD prev) vs next b

namespace ReadsWithin

variable {n m : Nat} {p : Parser α} {f : α → Parser β} {rule rule' : Token → Rule α}
  {second : α → Token → Rule β}

theorem mono (h : p.ReadsWithin n rule) (hm : m ≤ n) : p.ReadsWithin m rule :=
  fun _ _ _ hc hl => h hc (Nat.lt_of_lt_of_le hl hm)

theorem congr (h : p.ReadsWithin n rule)
    (hr : ∀ prev ts next a, rule prev ts next a ↔ rule' prev ts next a) :
    p.ReadsWithin n rule' := by
  intro c c' a hc hl
  rw [h hc hl]
  exact exists_congr fun ts => and_congr_right fun _ => hr _ _ _ _

theorem of_run_eq {q : Parser α} (h : p.ReadsWithin n rule) (hq : ∀ c, q.run c = p.run c) :
    q.ReadsWithin n rule := by
  intro c c' a hc hl
  rw [hq, h hc hl]

/-- What is left for the second parser is shorter by what the first one passes. -/
theorem bind_within (hp : p.ReadsWithin n rule)
    (hm : ∀ {prev ts next a}, rule prev ts next a → n ≤ m + ts.length)
    (hf : ∀ a, (f a).ReadsWithin m (second a)) :
    (p >>= f).ReadsWithin n (Then rule second) := by
  intro c c'' b hc hl
  have within {c' us a} (hu : c.Passes us c') (hr : rule c.prev us c'.cur a) :
      c'.ahead.length < m := by
    have := hu.length
    have := hm hr
    omega
  rw [bind_eq_ok]
  constructor
  · rintro ⟨a, c', hpc, hfc⟩
    obtain ⟨us, hu, hr⟩ := (hp hc hl).1 hpc
    obtain ⟨vs, hv, hs⟩ := (hf a (hu.closed hc) (within hu hr)).1 hfc
    rw [hv.cur] at hr
    rw [hu.prev] at hs
    exact ⟨us ++ vs, hu.trans hv, us, vs, a, rfl, hr, hs⟩
  · rintro ⟨_, ht, us, vs, a, rfl, hr, hs⟩
    obtain ⟨c', hu, hv⟩ := ht.split
    rw [← hv.cur] at hr
    rw [← hu.prev] at hs
    exact ⟨a, c', (hp hc hl).2 ⟨us, hu, hr⟩,
      (hf a (hu.closed hc) (within hu hr)).2 ⟨vs, hv, hs⟩⟩

theorem bind (hp : p.ReadsWithin n rule) (hf : ∀ a, (f a).ReadsWithin n (second a)) :
    (p >>= f).ReadsWithin n (Then rule second) :=
  hp.bind_within (fun _ => Nat.le_add_right _ _) hf

theorem look_bind (view : Token → Token → α)
    (h : ∀ c : Cursor, p.run c = .ok (view c.prev c.cur, c))
    (hf : ∀ a, (f a).ReadsWithin n (second a)) :
    (p >>= f).ReadsWithin n fun prev ts next b =>
      second (view prev (ts.headD next)) prev ts next b := by
  intro c c' b hc hl
  rw [run_bind_ok (h c), hf _ hc hl]
  exact exists_congr fun ts => and_congr_right fun hp => by rw [hp.cur]

theorem token_bind {kind : Token → α → Prop}
    (hp : p.ReadsWithin n fun _ ts _ a => ∃ t, ts = [t] ∧ kind t a)
    (hf : ∀ a, (f a).ReadsWithin m (second a)) (hm : n ≤ m + 1) :
    (p >>= f).ReadsWithin n fun _ ts next b =>
      ∃ t us a, ts = t :: us ∧ kind t a ∧ second a t us next b := by
  refine (hp.bind_within ?_ hf).congr fun prev ts next b => ?_
  · rintro _ _ _ _ ⟨t, rfl, _⟩
    exact hm
  · constructor
    · rintro ⟨_, vs, a, rfl, ⟨t, rfl, ht⟩, hs⟩
      exact ⟨t, vs, a, rfl, ht, hs⟩
    · rintro ⟨t, us, a, rfl, ht, hs⟩
      exact ⟨[t], us, a, rfl, ⟨t, rfl, ht⟩, hs⟩

theorem ite {b : Bool} {q : Parser α} (hp : b = true → p.ReadsWithin n rule)
    (hq : b = false → q.ReadsWithin n rule') :
    (if b = true then p else q).ReadsWithin n (if b = true then rule else rule') := by
  cases b with
  | true => exact hp rfl
  | false => exact hq rfl

end ReadsWithin

section Primitives

variable {n : Nat}

theorem look_reads {p : Parser α} (view : Token → Token → α)
    (h : ∀ c : Cursor, p.run c = .ok (view c.prev c.cur, c)) :
    p.ReadsWithin n fun prev ts next a => ts = [] ∧ a = view prev next := by
  intro c c' a _ _
  rw [h, Except.ok.injEq, Prod.mk.injEq]
  constructor
  · rintro ⟨rfl, rfl⟩
    exact ⟨[], .refl c, rfl, rfl⟩
  · rintro ⟨_, hp, rfl, rfl⟩
    rw [hp.eq]
    exact ⟨rfl, rfl⟩

theorem pure_reads (a : α) :
    (pure a : Parser α).ReadsWithin n fun _ ts _ b => ts = [] ∧ b = a :=
  look_reads (fun _ _ => a) fun _ => rfl

theorem advance_bind_iff {f : Parser β} {rule : Token → Rule β} {c c' : Cursor} {b : β}
    (hf : f.ReadsWithin n rule) (hc : c.Closed) (hl : c.ahead.length < n + 1)
    (hne : c.cur.lexeme ≠ .eof) :
    (advance >>= fun _ => f).run c = .ok (b, c') ↔
      ∃ us, c.Passes (c.cur :: us) c' ∧ rule c.cur us c'.cur b := by
  have hstep := hc.passes_advance hne
  have hlen : c.advance.ahead.length < n := by
    have := hstep.length
    simp only [List.length_singleton] at this
    omega
  rw [run_bind_ok (run_advance (hc.ahead_ne_nil hne)), hf (hstep.closed hc) hlen,
    show c.advance.prev = c.cur from hstep.prev]
  exact exists_congr fun us => and_congr_left fun _ => ⟨hstep.trans, Cursor.Passes.advance⟩

theorem ReadsWithin.result {p : Parser α} {rule : Token → Rule α} (h : p.ReadsWithin n rule)
    (f : α → β) :
    (p >>= fun a => pure (f a)).ReadsWithin n fun prev ts next b =>
      ∃ a, rule prev ts next a ∧ b = f a := by
  refine (h.bind fun a => pure_reads (f a)).congr fun prev ts next b => ?_
  constructor
  · rintro ⟨us, _, a, rfl, hr, rfl, rfl⟩
    rw [List.append_nil]
    exact ⟨a, hr, rfl⟩
  · rintro ⟨a, hr, rfl⟩
    exact ⟨ts, [], a, (List.append_nil _).symm, hr, rfl, rfl⟩

theorem fail_reads (cause : SyntaxCause) :
    (fail cause : Parser α).ReadsWithin n fun _ _ _ _ => False := by
  intro c c' a _ _
  simp

theorem token_reads {p : Parser α} (view : Lexeme → Option α) (heof : view .eof = none)
    (hsome : ∀ c a, c.ahead ≠ [] → view c.cur.lexeme = some a → p.run c = .ok (a, c.advance))
    (hnone : ∀ c, view c.cur.lexeme = none → ∃ e, p.run c = .error e) :
    p.ReadsWithin n fun _ ts _ a => ∃ t, ts = [t] ∧ view t.lexeme = some a := by
  intro c c' a hc _
  have hne {b : α} (hv : view c.cur.lexeme = some b) : c.cur.lexeme ≠ .eof := by
    intro he
    rw [he, heof] at hv
    cases hv
  constructor
  · intro h
    cases hv : view c.cur.lexeme with
    | none =>
      obtain ⟨e, he⟩ := hnone c hv
      rw [he] at h
      cases h
    | some b =>
      rw [hsome c b (hc.ahead_ne_nil (hne hv)) hv] at h
      cases h
      exact ⟨_, hc.passes_advance (hne hv), _, rfl, hv⟩
  · rintro ⟨_, hp, t, rfl, hv⟩
    rw [← hp.cur_cons] at hv
    rw [hsome c a (hc.ahead_ne_nil (hne hv)) hv, hp.step]

theorem accept_reads {lexeme : Lexeme} (heof : lexeme ≠ .eof) :
    (accept lexeme).ReadsWithin n fun _ ts next b =>
      (∃ t, ts = [t] ∧ t.lexeme = lexeme ∧ b = true) ∨
        (ts = [] ∧ next.lexeme ≠ lexeme ∧ b = false) := by
  intro c c' b hc _
  rw [run_accept (hc.advances heof)]
  by_cases h : c.cur.lexeme = lexeme
  · rw [if_pos h, Except.ok.injEq, Prod.mk.injEq]
    constructor
    · rintro ⟨rfl, rfl⟩
      exact ⟨_, hc.passes_advance (h ▸ heof), .inl ⟨_, rfl, h, rfl⟩⟩
    · rintro ⟨_, hp, ⟨t, rfl, _, rfl⟩ | ⟨rfl, hn, _⟩⟩
      · exact ⟨rfl, hp.step⟩
      · rw [hp.eq] at hn
        exact absurd h hn
  · rw [if_neg h, Except.ok.injEq, Prod.mk.injEq]
    constructor
    · rintro ⟨rfl, rfl⟩
      exact ⟨_, .refl c, .inr ⟨rfl, h, rfl⟩⟩
    · rintro ⟨_, hp, ⟨t, rfl, ht, _⟩ | ⟨rfl, _, rfl⟩⟩
      · exact absurd (hp.cur_cons ▸ ht) h
      · exact ⟨rfl, hp.eq.symm⟩

theorem here_bind {f : Span → Parser β} {second : Span → Token → Rule β}
    (hf : ∀ s, (f s).ReadsWithin n (second s)) :
    (here >>= f).ReadsWithin n fun prev ts next b =>
      second (ts.headD next).span prev ts next b :=
  .look_bind (fun _ next => next.span) run_here hf

theorem prevSpan_bind {f : Span → Parser β} {second : Span → Token → Rule β}
    (hf : ∀ s, (f s).ReadsWithin n (second s)) :
    (prevSpan >>= f).ReadsWithin n fun prev ts next b => second prev.span prev ts next b :=
  .look_bind (fun prev _ => prev.span) run_prevSpan hf

theorem adjacent_bind {f : Bool → Parser β} {second : Bool → Token → Rule β}
    (hf : ∀ b, (f b).ReadsWithin n (second b)) :
    (adjacent >>= f).ReadsWithin n fun prev ts next b =>
      second ((ts.headD next).follows prev) prev ts next b :=
  .look_bind (fun prev next => next.follows prev) run_adjacent hf

theorem sees_bind {lexeme : Lexeme} {f : Bool → Parser β} {second : Bool → Token → Rule β}
    (hf : ∀ b, (f b).ReadsWithin n (second b)) :
    (sees lexeme >>= f).ReadsWithin n fun prev ts next b =>
      second ((ts.headD next).lexeme == lexeme) prev ts next b :=
  .look_bind (fun _ next => next.lexeme == lexeme) (run_sees lexeme) hf

theorem seesPunct_bind {p : Punct} {f : Bool → Parser β} {second : Bool → Token → Rule β}
    (hf : ∀ b, (f b).ReadsWithin n (second b)) :
    (seesPunct p >>= f).ReadsWithin n fun prev ts next b =>
      second ((ts.headD next).lexeme == .punct p) prev ts next b :=
  sees_bind hf

theorem accept_bind {lexeme : Lexeme} {f : Bool → Parser β} {second : Bool → Token → Rule β}
    (heof : lexeme ≠ .eof) (hf : ∀ b, (f b).ReadsWithin n (second b)) :
    (accept lexeme >>= f).ReadsWithin n fun prev ts next b =>
      (∃ t us, ts = t :: us ∧ t.lexeme = lexeme ∧ second true t us next b) ∨
        ((ts.headD next).lexeme ≠ lexeme ∧ second false prev ts next b) := by
  refine ((accept_reads heof).bind hf).congr fun prev ts next b => ?_
  constructor
  · rintro ⟨_, vs, _, rfl, ⟨t, rfl, ht, rfl⟩ | ⟨rfl, hn, rfl⟩, hs⟩
    · exact .inl ⟨t, vs, rfl, ht, hs⟩
    · exact .inr ⟨hn, hs⟩
  · rintro (⟨t, us, rfl, ht, hs⟩ | ⟨hn, hs⟩)
    · exact ⟨[t], us, true, rfl, .inl ⟨t, rfl, ht, rfl⟩, hs⟩
    · exact ⟨[], ts, false, rfl, .inr ⟨rfl, hn, rfl⟩, hs⟩

theorem run_expect {lexeme : Lexeme} (cause : SyntaxCause) {c : Cursor}
    (ha : c.cur.lexeme = lexeme → c.ahead ≠ []) :
    (do if !(← accept lexeme) then fail cause : Parser Unit).run c =
      if c.cur.lexeme = lexeme then .ok ((), c.advance) else .error ⟨cause, c.cur⟩ := by
  by_cases h : c.cur.lexeme = lexeme
  · rw [run_bind_ok ((run_accept ha).trans (if_pos h)), if_pos h]
    rfl
  · rw [run_bind_ok ((run_accept ha).trans (if_neg h)), if_neg h]
    rfl

theorem expect_eq_ok {lexeme : Lexeme} {cause : SyntaxCause} {c c' : Cursor} {u : Unit} :
    (do if !(← accept lexeme) then fail cause : Parser Unit).run c = .ok (u, c') ↔
      c.cur.lexeme = lexeme ∧ c.Passes [c.cur] c' := by
  by_cases h : c.cur.lexeme = lexeme
  · by_cases ha : c.ahead = []
    · have hnone : (accept lexeme).run c = .error ⟨.exhausted, c.cur⟩ := by
        rw [accept, run_bind_ok (run_sees lexeme c), if_pos (beq_iff_eq.2 h), run_bind, run, ha]
        rfl
      rw [run_bind_error hnone]
      exact ⟨nofun, fun hp => absurd ha hp.2.ahead_ne_nil⟩
    · rw [run_expect cause fun _ => ha, if_pos h]
      constructor
      · rintro ⟨⟩
        exact ⟨h, Cursor.passes_advance ha⟩
      · rintro ⟨-, hp⟩
        rw [hp.step]
  · rw [run_expect cause fun h' => absurd h' h, if_neg h]
    exact ⟨nofun, fun hp => absurd hp.1 h⟩

theorem expect_reads {lexeme : Lexeme} (heof : lexeme ≠ .eof) (cause : SyntaxCause) :
    (do if !(← accept lexeme) then fail cause : Parser Unit).ReadsWithin n fun _ ts _ _ =>
      ∃ t, ts = [t] ∧ t.lexeme = lexeme := by
  refine (token_reads (fun l => if l = lexeme then some () else none) (if_neg heof.symm)
    ?_ ?_).congr ?_
  · intro c _ ha hv
    rw [run_expect cause fun _ => ha]
    split at hv
    · next h => rw [if_pos h]
    · cases hv
  · intro c hv
    split at hv
    · cases hv
    · next h => exact ⟨_, (run_expect cause fun h' => absurd h' h).trans (if_neg h)⟩
  · intro _ ts _ _
    refine exists_congr fun t => and_congr_right fun _ => ?_
    split <;> simp_all

theorem expectPunct_reads (p : Punct) :
    (expectPunct p).ReadsWithin n fun _ ts _ _ => ∃ t, ts = [t] ∧ t.lexeme = .punct p :=
  expect_reads (by simp) _

theorem expectKeyword_reads (k : Keyword) :
    (expectKeyword k).ReadsWithin n fun _ ts _ _ => ∃ t, ts = [t] ∧ t.lexeme = .keyword k :=
  expect_reads (by simp) _

theorem eq_identifier_of_kind {l : Lexeme} (h : l.kind = .identifier) :
    l = .identifier l.value := by
  cases l with
  | punct p => cases p <;> cases h
  | identifier name => rfl
  | _ => cases h

theorem expectIdentifier_reads :
    expectIdentifier.ReadsWithin n fun _ ts _ name =>
      ∃ t, ts = [t] ∧ t.lexeme = .identifier name := by
  have hview (l : Lexeme) (name : String) :
      (if l.kind = .identifier then some l.value else none) = some name ↔ l = .identifier name := by
    constructor
    · intro h
      obtain ⟨hk, hname⟩ := Option.ite_none_right_eq_some.1 h
      rw [← Option.some.inj hname]
      exact eq_identifier_of_kind hk
    · rintro rfl
      rfl
  refine (token_reads (fun l => if l.kind = .identifier then some l.value else none) rfl ?_
    ?_).congr
    fun _ ts _ name => exists_congr fun t => and_congr_right fun _ => hview t.lexeme name
  · intro c name ha hv
    rw [expectIdentifier, run_bind_ok (run_current c), (hview _ name).1 hv]
    exact run_bind_ok (run_advance ha)
  · intro c hv
    rw [expectIdentifier, run_bind_ok (run_current c)]
    split
    · next name h =>
      rw [(hview _ name).2 h] at hv
      cases hv
    · exact ⟨_, rfl⟩

end Primitives

end Parser

inductive Loop (turn : σ → Token → Rule (σ × Bool)) : σ → Token → Rule σ
  | stop {s s' prev ts next} : turn s prev ts next (s', false) → Loop turn s prev ts next s'
  | more {s s₁ s' prev ts us next} : turn s prev ts (us.headD next) (s₁, true) →
    Loop turn s₁ (ts.getLastD prev) us next s' → Loop turn s prev (ts ++ us) next s'

inductive LineEnd : List Token → Token → Prop
  | newline {t next} : t.lexeme = .newline → LineEnd [t] next
  | eof {next} : next.lexeme = .eof → LineEnd [] next

theorem LineEnd.head {ts : List Token} {next : Token} (h : LineEnd ts next) :
    (ts.headD next).lexeme = .newline ∨ (ts.headD next).lexeme = .eof := by
  cases h with
  | newline ht => exact .inl ht
  | eof hn => exact .inr hn

theorem LineEnd.ne_punct {ts : List Token} {next : Token} (h : LineEnd ts next) (p : Punct) :
    (ts.headD next).lexeme ≠ .punct p := by
  rcases h.head with h | h <;> simp only [h, ne_eq, reduceCtorEq, not_false_eq_true]

def Newlines (ts : List Token) : Prop := ∀ t ∈ ts, t.lexeme = .newline

theorem Newlines.nil : Newlines [] := fun _ h => absurd h List.not_mem_nil

namespace Parser

variable {n : Nat}

theorem bounded_reads {p : Nat → Parser α} {rule : Token → Rule α}
    (h : ∀ n, (p n).ReadsWithin n rule) : (bounded p).ReadsWithin n rule :=
  fun _ _ _ hc _ => h _ hc (Nat.lt_succ_self _)

variable {step : σ → Parser (σ × Bool)} {turn : σ → Token → Rule (σ × Bool)}

/-- The bound is never met: each turn that asks for more passes a token. -/
theorem loopWithin_reads (hstep : ∀ s, (step s).ReadsWithin n (turn s))
    (hne : ∀ {s s' prev ts next}, turn s prev ts next (s', true) → ts ≠ [])
    (k : Nat) (s : σ) {c c' : Cursor} {s' : σ} (hc : c.Closed) (hl : c.ahead.length < n)
    (hk : c.ahead.length < k) :
    (loopWithin step k s).run c = .ok (s', c') ↔
      ∃ ts, c.Passes ts c' ∧ Loop turn s c.prev ts c'.cur s' := by
  induction k generalizing s c with
  | zero => omega
  | succ k ih =>
    rw [loopWithin, bind_eq_ok]
    constructor
    · rintro ⟨⟨s₁, more⟩, d, hs, hd⟩
      obtain ⟨ts, ht, hturn⟩ := (hstep s hc hl).1 hs
      have hlen := ht.length
      cases more with
      | false =>
        cases hd
        exact ⟨ts, ht, .stop hturn⟩
      | true =>
        have hpos := List.length_pos_iff.2 (hne hturn)
        obtain ⟨us, hu, hloop⟩ := (ih s₁ (ht.closed hc) (by omega) (by omega)).1 hd
        rw [hu.cur] at hturn
        rw [ht.prev] at hloop
        exact ⟨ts ++ us, ht.trans hu, .more hturn hloop⟩
    · rintro ⟨ts, ht, hloop⟩
      cases hloop with
      | stop hturn => exact ⟨(s', false), c', (hstep s hc hl).2 ⟨ts, ht, hturn⟩, rfl⟩
      | @more _ s₁ _ _ ts us _ hturn hrest =>
        obtain ⟨d, hd, hd'⟩ := ht.split
        have hlen := hd.length
        have hpos := List.length_pos_iff.2 (hne hturn)
        rw [← hd'.cur] at hturn
        rw [← hd.prev] at hrest
        exact ⟨(s₁, true), d, (hstep s hc hl).2 ⟨ts, hd, hturn⟩,
          (ih s₁ (hd.closed hc) (by omega) (by omega)).2 ⟨us, hd', hrest⟩⟩

theorem loop_reads (hstep : ∀ s, (step s).ReadsWithin n (turn s))
    (hne : ∀ {s s' prev ts next}, turn s prev ts next (s', true) → ts ≠ []) (s : σ) :
    (loop step s).ReadsWithin n (Loop turn s) :=
  fun _ _ _ hc hl => loopWithin_reads hstep hne _ s hc hl (Nat.lt_succ_self _)

theorem skipNext_reads (s : Unit) :
    (skipNext s).ReadsWithin n fun _ ts next r =>
      (∃ t, ts = [t] ∧ t.lexeme = .newline ∧ r.2 = true) ∨
        (ts = [] ∧ next.lexeme ≠ .newline ∧ r.2 = false) := by
  refine ((accept_reads (by simp : Lexeme.newline ≠ .eof)).result fun b => ((), b)).congr
    fun prev ts next r => ?_
  constructor
  · rintro ⟨b, h, rfl⟩
    exact h
  · intro h
    exact ⟨r.2, h, rfl⟩

theorem skipNewlines_reads :
    skipNewlines.ReadsWithin n fun _ ts next _ => Newlines ts ∧ next.lexeme ≠ .newline := by
  refine (loop_reads skipNext_reads ?_ ()).congr fun prev ts next s => ⟨fun h => ?_, ?_⟩
  · rintro s s' prev ts next (⟨t, rfl, _⟩ | ⟨_, _, h⟩)
    · exact List.cons_ne_nil _ _
    · cases h
  · generalize () = s₀ at h
    induction h with
    | stop h =>
      obtain ⟨_, _, _, h⟩ | ⟨rfl, hn, _⟩ := h
      · cases h
      · exact ⟨.nil, hn⟩
    | more h _ ih =>
      obtain ⟨t, rfl, ht, _⟩ | ⟨_, _, h⟩ := h
      · exact ⟨List.forall_mem_cons.2 ⟨ht, ih.1⟩, ih.2⟩
      · cases h
  · rintro ⟨hns, hn⟩
    induction ts generalizing prev with
    | nil => exact .stop (.inr ⟨rfl, hn, rfl⟩)
    | cons t ts ih =>
      obtain ⟨ht, hts⟩ := List.forall_mem_cons.1 hns
      have hmore : Loop _ () prev ([t] ++ ts) next s := .more (.inl ⟨t, rfl, ht, rfl⟩) (ih t hts)
      exact hmore

theorem run_skipNewlines {c c' : Cursor} {ns : List Token} (hc : c.Closed) (hp : c.Passes ns c')
    (hns : Newlines ns) (hn : c'.cur.lexeme ≠ .newline) : skipNewlines.run c = .ok ((), c') :=
  (skipNewlines_reads hc (Nat.lt_succ_self _)).2 ⟨ns, hp, hns, hn⟩

theorem expectNewline_reads : expectNewline.ReadsWithin n fun _ ts next _ => LineEnd ts next := by
  intro c c' _ hc hl
  rw [expectNewline, run_bind_ok (run_sees .eof c)]
  by_cases h : c.cur.lexeme = .eof
  · rw [h, beq_self_eq_true, if_pos rfl, pure_eq_ok]
    constructor
    · rintro ⟨rfl, rfl⟩
      exact ⟨[], .refl _, .eof h⟩
    · rintro ⟨_, hp, he⟩
      cases he with
      | newline ht => rw [hp.cur_cons, ht] at h; cases h
      | eof _ => exact ⟨rfl, hp.eq⟩
  · rw [beq_eq_false_iff_ne.2 h, if_neg Bool.false_ne_true]
    have hexpect : ReadsWithin n _ _ :=
      expect_reads (n := n) (by simp : Lexeme.newline ≠ .eof) (.expectedKind .newline)
    refine (hexpect hc hl).trans (exists_congr fun ts => and_congr_right fun hp => ?_)
    constructor
    · rintro ⟨t, rfl, ht⟩
      exact .newline ht
    · intro he
      cases he with
      | newline ht => exact ⟨_, rfl, ht⟩
      | eof hn => rw [hp.cur] at h; exact absurd hn h

end Parser

def Lexeme.name? : Lexeme → Option String
  | .identifier name => some name
  | .keyword k => some k.text
  | _ => none

namespace Parser

theorem expectName_reads {n : Nat} :
    expectName.ReadsWithin n fun _ ts _ name => ∃ t, ts = [t] ∧ t.lexeme.name? = some name := by
  refine token_reads Lexeme.name? rfl ?_ ?_
  · intro c name ha hv
    rw [expectName, run_bind_ok (run_current c)]
    cases h : c.cur.lexeme <;> simp only [h, Lexeme.name?, Option.some.injEq, reduceCtorEq] at hv
    all_goals
      subst hv
      exact run_bind_ok (run_advance ha)
  · intro c hv
    rw [expectName, run_bind_ok (run_current c)]
    cases h : c.cur.lexeme <;> simp only [h, Lexeme.name?, reduceCtorEq] at hv <;> exact ⟨_, rfl⟩

end Parser

end LayoutScript

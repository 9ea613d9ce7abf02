import LayoutScript.Proofs.Layout
import LayoutScript.Proofs.Reading
import LayoutScript.Proofs.Relocation
import LayoutScript.Syntax.Markup

/-! Two runs of parsers in step. A pairing relates cursors that parsers cannot tell apart, and
`Pairs` says of two parsers that from such cursors they come to the same: to values that differ in
their spans only, or to errors. It composes along the combinators. The number of tokens that matter
bounds loops and nesting on both sides, so that the bounds of the parsers never decide. -/
namespace LayoutScript

namespace Cursor

def passNewlines (prev cur : Token) : List Token → Cursor
  | [] => ⟨prev, cur, []⟩
  | t :: ts => if cur.lexeme = .newline then passNewlines cur t ts else ⟨prev, cur, t :: ts⟩

def skipNewlines (c : Cursor) : Cursor := passNewlines c.prev c.cur c.ahead

theorem Closed.skipNewlines_passes {c : Cursor} (hc : c.Closed) :
    ∃ ns, c.Passes ns c.skipNewlines ∧ Newlines ns ∧ c.skipNewlines.cur.lexeme ≠ .newline := by
  obtain ⟨prev, cur, ahead⟩ := c
  rw [skipNewlines]
  induction ahead generalizing prev cur with
  | nil =>
    rw [passNewlines]
    exact ⟨[], .refl _, .nil, fun hn => hc.advances (by simp) hn rfl⟩
  | cons t ts ih =>
    rw [passNewlines]
    split
    · next hn =>
      have hstep := hc.passes_advance (by rw [hn]; simp)
      obtain ⟨ns, hp, hns, hd⟩ := ih cur t (hstep.closed hc)
      exact ⟨cur :: ns, hstep.trans hp, List.forall_mem_cons.2 ⟨hn, hns⟩, hd⟩
    · next hn => exact ⟨[], .refl _, .nil, hn⟩

theorem Closed.run_skipNewlines {c : Cursor} (hc : c.Closed) :
    Parser.skipNewlines.run c = .ok ((), c.skipNewlines) := by
  obtain ⟨ns, hp, hns, hn⟩ := hc.skipNewlines_passes
  exact Parser.run_skipNewlines hc hp hns hn

structure Aligned (R : Nat → Cursor → Cursor → Prop) (n : Nat) (c c' : Cursor) : Prop where
  alike : R n c c'
  lexeme : c.cur.lexeme = c'.cur.lexeme

end Cursor

open LayoutScript.Cursor (Aligned)

variable {α β γ δ ι : Type}

/-- Cursors that parsers cannot tell apart, and how to compare what is read from them. -/
structure Pairing where
  /-- Values are the same if they are after these changes of their spans. -/
  left : Span → Span
  right : Span → Span
  /-- At most `n` tokens are to be read. One cursor may have more newline tokens in front. -/
  Alike (n : Nat) (c c' : Cursor) : Prop
  Fails (e e' : SyntaxError) : Prop
  join {a b a' b'} : left a = right a' → left b = right b' → left (a.join b) = right (a'.join b')
  closed {n c c'} : Alike n c c' → c.Closed ∧ c'.Closed
  mono {n m c c'} : Alike n c c' → n ≤ m → Alike m c c'
  pos {n c c'} : Alike n c c' → 0 < n
  within {n c c'} : Alike n c c' →
    ∃ m, m ≤ n ∧ m ≤ c.ahead.length + 1 ∧ m ≤ c'.ahead.length + 1 ∧ Alike m c c'
  cur {n c c'} : Alike n c c' → left c.cur.span = right c'.cur.span
  prev {n c c'} : Alike n c c' → left c.prev.span = right c'.prev.span
  follows {n c c'} : Aligned Alike n c c' → c.cur.lexeme.isSolid = true →
    c.cur.follows c.prev = c'.cur.follows c'.prev
  /-- A step leads to cursors that are alike, and in step if no line ends there. -/
  alike_advance {n c c'} : Aligned Alike n c c' → c.cur.lexeme ≠ .eof → Alike n c.advance c'.advance
  aligned_advance {n c c'} : Aligned Alike n c c' → c.cur.lexeme ≠ .newline → c.cur.lexeme ≠ .eof →
    Aligned Alike (n - 1) c.advance c'.advance
  skip {n c c'} : Alike n c c' → Aligned Alike n c.skipNewlines c'.skipNewlines
  fails {n c c'} {cause : SyntaxCause} : cause.isReported = true → Aligned Alike n c c' →
    Fails ⟨cause, c.cur⟩ ⟨cause, c'.cur⟩

@[simp] def Lexeme.InLine (l : Lexeme) : Prop := l ≠ .newline ∧ l ≠ .eof

namespace Pairing

variable {P : Pairing} {n m : Nat} {c c' d d' : Cursor}

inductive Phase where
  | aligned
  | alike

def Rel (P : Pairing) : Phase → Nat → Cursor → Cursor → Prop
  | .aligned => Aligned P.Alike
  | .alike => P.Alike

theorem Rel.alike {R : Phase} (h : P.Rel R n c c') : P.Alike n c c' := by
  cases R with
  | aligned => exact h.1
  | alike => exact h

theorem Rel.of_alike {R : Phase} (h : P.Rel R n c c') (hm : P.Alike m c c') : P.Rel R m c c' := by
  cases R with
  | aligned => exact ⟨hm, h.2⟩
  | alike => exact hm

theorem Rel.mono {R : Phase} (h : P.Rel R n c c') (hm : n ≤ m) : P.Rel R m c c' :=
  h.of_alike (P.mono h.alike hm)

section Steps

variable (h : Aligned P.Alike n c c') (hl : c.cur.lexeme.InLine)

include h hl

theorem ahead_ne_nil : c.ahead ≠ [] ∧ c'.ahead ≠ [] :=
  ⟨(P.closed h.1).1.ahead_ne_nil hl.2, (P.closed h.1).2.ahead_ne_nil (h.2 ▸ hl.2)⟩

theorem cur_advance : c.advance.cur = c.peek ∧ c'.advance.cur = c'.peek :=
  ⟨(P.closed h.1).1.cur_advance hl.2, (P.closed h.1).2.cur_advance (h.2 ▸ hl.2)⟩

theorem peek_lexeme : c.peek.lexeme = c'.peek.lexeme := by
  have hnext := (P.aligned_advance h hl.1 hl.2).2
  rwa [(cur_advance h hl).1, (cur_advance h hl).2] at hnext

theorem peek_span : P.left c.peek.span = P.right c'.peek.span := by
  have hnext := P.cur (P.aligned_advance h hl.1 hl.2).1
  rwa [(cur_advance h hl).1, (cur_advance h hl).2] at hnext

theorem peek_follows (hs : c.peek.lexeme.isSolid = true) :
    c.peek.follows c.cur = c'.peek.follows c'.cur := by
  have hstep := (P.closed h.1).1.passes_advance hl.2
  have hstep' := (P.closed h.1).2.passes_advance (h.2 ▸ hl.2)
  have hcur := cur_advance h hl
  have hnext := P.follows (P.aligned_advance h hl.1 hl.2) (by rwa [hcur.1])
  rwa [hcur.1, hcur.2, show c.advance.prev = c.cur from hstep.prev,
    show c'.advance.prev = c'.cur from hstep'.prev] at hnext

end Steps

/-- What two runs come to. The values are compared by `g`. -/
inductive Ends (P : Pairing) (post : α → Cursor → Cursor → Prop) (g : (Span → Span) → α → γ) :
    Except SyntaxError (α × Cursor) → Except SyntaxError (α × Cursor) → Prop
  | value {a b d d'} : g P.left a = g P.right b → post a d d' →
    Ends P post g (.ok (a, d)) (.ok (b, d'))
  | error {e e'} : P.Fails e e' → Ends P post g (.error e) (.error e')

theorem Ends.exists_ok {post : α → Cursor → Cursor → Prop} {g : (Span → Span) → α → γ} {a : α}
    {r : Except SyntaxError (α × Cursor)} (h : P.Ends post g (.ok (a, d)) r) :
    ∃ b d', r = .ok (b, d') ∧ g P.left a = g P.right b ∧ post a d d' := by
  cases h with
  | value hab hd => exact ⟨_, _, rfl, hab, hd⟩

/-- From `c` and `c'`, where at most `n` tokens are to be read, both parsers come to the same, after
at least as many tokens as `k` says. -/
def At (P : Pairing) (n : Nat) (c c' : Cursor) (post : α → Phase) (k : α → Nat)
    (g : (Span → Span) → α → γ) (p q : Parser α) : Prop :=
  P.Ends (fun a => P.Rel (post a) (n - k a)) g (p.run c) (q.run c')

def Pairs (P : Pairing) (n : Nat) (pre : Phase) (post : α → Phase) (k : α → Nat)
    (g : (Span → Span) → α → γ) (p q : Parser α) : Prop :=
  ∀ ⦃m c c'⦄, m ≤ n → P.Rel pre m c c' → P.At m c c' post k g p q

abbrev Words (P : Pairing) (n k : Nat) (g : (Span → Span) → α → γ) (p q : Parser α) : Prop :=
  P.Pairs n .aligned (fun _ => .aligned) (fun _ => k) g p q

abbrev Lines (P : Pairing) (n k : Nat) (g : (Span → Span) → α → γ) (p q : Parser α) : Prop :=
  P.Pairs n .aligned (fun _ => .alike) (fun _ => k) g p q

abbrev plain (_ : Span → Span) (a : α) : α := a

open LayoutScript.Parser

variable {pre : Phase} {mid : α → Phase} {post : β → Phase} {k : α → Nat} {k' : β → Nat}
  {g : (Span → Span) → α → γ} {h : (Span → Span) → β → δ} {p q : Parser α} {f f' : α → Parser β}

namespace At

theorem weaken {k₀ : α → Nat} {n₀ : Nat} (hp : P.At n c c' mid k g p q)
    (hk : ∀ a, n - k a ≤ n₀ - k₀ a) : P.At n₀ c c' mid k₀ g p q := by
  rw [At] at hp ⊢
  generalize p.run c = r at hp ⊢
  generalize q.run c' = r' at hp ⊢
  cases hp with
  | value hab hd => exact .value hab (hd.mono (hk _))
  | error he => exact .error he

/-- What is left for the second parser is less by what the first one has to pass. -/
theorem bind (hp : P.At m c c' mid k g p q) (hm : m ≤ n)
    (hf : ∀ a b, g P.left a = g P.right b →
      P.Pairs (n - k a) (mid a) post (fun x => k' x - k a) h (f a) (f' b)) :
    P.At m c c' post k' h (p >>= f) (q >>= f') := by
  rw [At] at hp
  generalize hr : p.run c = r at hp
  generalize hr' : q.run c' = r' at hp
  cases hp with
  | value hab hd =>
    rw [At, run_bind_ok hr, run_bind_ok hr']
    exact (hf _ _ hab (by omega) hd).weaken fun x => by omega
  | error he =>
    rw [At, run_bind_error hr, run_bind_error hr']
    exact .error he

theorem pure {a b : β} (hc : P.Rel (post a) m c c') (hab : h P.left a = h P.right b)
    (hk : k' a = 0) : P.At m c c' post k' h (Pure.pure a) (Pure.pure b) :=
  .value hab (by rw [hk]; exact hc)

theorem fail (hc : Aligned P.Alike m c c') {cause : SyntaxCause} (hr : cause.isReported = true) :
    P.At m c c' post k' h (Parser.fail cause) (Parser.fail cause) :=
  .error (P.fails hr hc)

theorem look_bind (view : Cursor → α) (hview : ∀ c, p.run c = .ok (view c, c))
    (hf : P.At m c c' post k' h (f (view c)) (f' (view c'))) :
    P.At m c c' post k' h (p >>= f) (p >>= f') := by
  rw [At, run_bind_ok (hview c), run_bind_ok (hview c')]
  exact hf

theorem advance_then {p q : Parser β} (hc : Aligned P.Alike m c c') (hl : c.cur.lexeme.InLine)
    (hp : P.At (m - 1) c.advance c'.advance post (fun b => k' b - 1) h p q) :
    P.At m c c' post k' h (advance >>= fun _ => p) (advance >>= fun _ => q) := by
  obtain ⟨ha, ha'⟩ := ahead_ne_nil hc hl
  rw [At, run_bind_ok (run_advance ha), run_bind_ok (run_advance ha')]
  exact hp.weaken fun b => by omega

theorem advance_bind {p q : Parser β} (hc : Aligned P.Alike m c c') (hm : m ≤ n)
    (hl : c.cur.lexeme.InLine)
    (hp : P.Pairs (n - 1) .aligned post (fun b => k' b - 1) h p q) :
    P.At m c c' post k' h (advance >>= fun _ => p) (advance >>= fun _ => q) :=
  advance_then hc hl (hp (Nat.sub_le_sub_right hm 1) (P.aligned_advance hc hl.1 hl.2))

theorem advance_twice_bind {p q : Parser β} (hc : Aligned P.Alike m c c') (hm : m ≤ n)
    (hl : c.cur.lexeme.InLine) (hpeek : c.peek.lexeme.InLine)
    (hp : P.Pairs (n - 1 - 1) .aligned post (fun b => k' b - 1 - 1) h p q) :
    P.At m c c' post k' h (advance >>= fun _ => advance >>= fun _ => p)
      (advance >>= fun _ => advance >>= fun _ => q) := by
  rw [← (cur_advance hc hl).1] at hpeek
  exact advance_then hc hl
    (advance_bind (P.aligned_advance hc hl.1 hl.2) (Nat.sub_le_sub_right hm 1) hpeek hp)

end At

namespace Pairs

theorem of_zero : P.Pairs 0 pre mid k g p q := fun _ _ _ hm hc =>
  absurd (P.pos hc.alike) (Nat.not_lt.2 hm)

theorem le (hp : P.Pairs n pre mid k g p q) (hm : m ≤ n) : P.Pairs m pre mid k g p q :=
  fun _ _ _ hl hc => hp (Nat.le_trans hl hm) hc

theorem least {k₀ : α → Nat} (hp : P.Pairs n pre mid k g p q)
    (hk : ∀ a, k₀ a ≤ k a) : P.Pairs n pre mid k₀ g p q :=
  fun _ _ _ hl hc => (hp hl hc).weaken fun a => Nat.sub_le_sub_left (hk a) _

theorem of_alike (hp : P.Pairs n .alike mid k g p q) : P.Pairs n .aligned mid k g p q :=
  fun _ _ _ hl hc => hp hl hc.1

theorem to_alike (hp : P.Words n m g p q) : P.Lines n m g p q := by
  intro l c c' hl hc
  have hends := hp hl hc
  rw [At] at hends ⊢
  generalize p.run c = r at hends ⊢
  generalize q.run c' = r' at hends ⊢
  cases hends with
  | value hab hd => exact .value hab hd.1
  | error he => exact .error he

theorem bind (hp : P.Pairs n pre mid k g p q)
    (hf : ∀ a b, g P.left a = g P.right b →
      P.Pairs (n - k a) (mid a) post (fun x => k' x - k a) h (f a) (f' b)) :
    P.Pairs n pre post k' h (p >>= f) (q >>= f') :=
  fun _ _ _ hl hc => (hp hl hc).bind hl hf

theorem andThen (hp : P.Pairs n pre mid k plain p q)
    (hf : ∀ a, P.Pairs (n - k a) (mid a) post (fun x => k' x - k a) h (f a) (f' a)) :
    P.Pairs n pre post k' h (p >>= f) (q >>= f') :=
  hp.bind fun a b hab => by
    obtain rfl : a = b := hab
    exact hf a

theorem pure {a b : β} (hab : h P.left a = h P.right b) :
    P.Pairs n pre (fun _ => pre) (fun _ => 0) h (Pure.pure a) (Pure.pure b) :=
  fun _ _ _ _ hc => .pure hc hab rfl

theorem fail {cause : SyntaxCause} (hr : cause.isReported = true) :
    P.Pairs n .aligned post k' h (Parser.fail cause) (Parser.fail cause) :=
  fun _ _ _ _ hc => .fail hc hr

theorem fail_bind {f f' : α → Parser β} {cause : SyntaxCause} (hr : cause.isReported = true) :
    P.Pairs n .aligned post k' h (Parser.fail cause >>= f) (Parser.fail cause >>= f') :=
  fun _ _ _ _ hc => .error (P.fails hr hc)

theorem ite {b : Bool} {p p' q q' : Parser β} (hp : P.Pairs n pre post k' h p q)
    (hp' : P.Pairs n pre post k' h p' q') :
    P.Pairs n pre post k' h (if b = true then p else p') (if b = true then q else q') := by
  cases b with
  | true => exact hp
  | false => exact hp'

theorem map (hp : P.Pairs n pre mid k g p q) {y : α → β}
    (hy : ∀ a b, g P.left a = g P.right b → h P.left (y a) = h P.right (y b))
    (hmid : ∀ a, mid a = post (y a)) : P.Pairs n pre post (fun _ => 0) h (y <$> p) (y <$> q) :=
  hp.bind fun a b hab _ _ _ _ hc => .pure (hmid a ▸ hc) (hy a b hab) (Nat.zero_sub (k a))

theorem look_bind (view : Cursor → α) (hview : ∀ c, p.run c = .ok (view c, c))
    (hf : ∀ m c c', m ≤ n → P.Rel pre m c c' → P.At m c c' post k' h (f (view c)) (f' (view c'))) :
    P.Pairs n pre post k' h (p >>= f) (p >>= f') :=
  fun m c c' hm hc => .look_bind view hview (hf m c c' hm hc)

theorem current_bind {f f' : Token → Parser β}
    (hf : ∀ m c c', m ≤ n → Aligned P.Alike m c c' → P.At m c c' post k' h (f c.cur) (f' c'.cur)) :
    P.Pairs n .aligned post k' h (current >>= f) (current >>= f') :=
  look_bind Cursor.cur run_current hf

theorem here_bind {f f' : Span → Parser β}
    (hf : ∀ s s', P.left s = P.right s' → P.Pairs n pre post k' h (f s) (f' s')) :
    P.Pairs n pre post k' h (here >>= f) (here >>= f') :=
  look_bind (·.cur.span) run_here fun _ _ _ hm hc => hf _ _ (P.cur hc.alike) hm hc

theorem prevSpan_bind {f f' : Span → Parser β}
    (hf : ∀ s s', P.left s = P.right s' → P.Pairs n pre post k' h (f s) (f' s')) :
    P.Pairs n pre post k' h (prevSpan >>= f) (prevSpan >>= f') :=
  look_bind (·.prev.span) run_prevSpan fun _ _ _ hm hc => hf _ _ (P.prev hc.alike) hm hc

theorem sees_bind {l : Lexeme} {f f' : Bool → Parser β}
    (hf : ∀ b, P.Pairs n .aligned post k' h (f b) (f' b)) :
    P.Pairs n .aligned post k' h (sees l >>= f) (sees l >>= f') :=
  look_bind (·.cur.lexeme == l) (run_sees l) fun m c c' hm hc => by
    rw [← hc.2]
    exact hf _ hm hc

theorem touching {l : Punct} {yes yes' no no' : Parser β}
    (hyes : ∀ m c c', m ≤ n → Aligned P.Alike m c c' → c.cur.lexeme = .punct l →
      P.At m c c' post k' h yes yes') (hno : P.Pairs n .aligned post k' h no no') :
    P.Pairs n .aligned post k' h (do if (← seesPunct l) && (← adjacent) then yes else no)
      (do if (← seesPunct l) && (← adjacent) then yes' else no') := by
  refine look_bind (·.cur.lexeme == .punct l) (run_seesPunct l) fun m c c' hm hc =>
    .look_bind (fun c => c.cur.follows c.prev) run_adjacent ?_
  rw [← hc.2]
  by_cases hl : c.cur.lexeme = .punct l
  · rw [← P.follows hc (by rw [hl]; exact Lexeme.isSolid_punct l)]
    split
    · exact hyes m c c' hm hc hl
    · exact hno hm hc
  · rw [beq_eq_false_iff_ne.2 hl, Bool.false_and, Bool.false_and]
    exact hno hm hc

theorem touching_advance {l : Punct} {yes yes' no no' : Parser β}
    (hyes : P.Pairs (n - 1) .aligned post (fun b => k' b - 1) h yes yes')
    (hno : P.Pairs n .aligned post k' h no no') :
    P.Pairs n .aligned post k' h (do if (← seesPunct l) && (← adjacent) then advance; yes else no)
      (do if (← seesPunct l) && (← adjacent) then advance; yes' else no') :=
  touching (fun _ _ _ hm hc hl => .advance_bind hc hm (by simp [hl]) hyes) hno

theorem accept_bind {l : Lexeme} (hl : l.InLine) {f f' : Bool → Parser β}
    (hyes : P.Pairs (n - 1) .aligned post (fun b => k' b - 1) h (f true) (f' true))
    (hno : P.Pairs n .aligned post k' h (f false) (f' false)) :
    P.Pairs n .aligned post k' h (accept l >>= f) (accept l >>= f') := by
  intro m c c' hm hc
  by_cases hcur : c.cur.lexeme = l
  · obtain ⟨ha, ha'⟩ := ahead_ne_nil hc (hcur ▸ hl)
    have hstep : (accept l).run c = .ok (true, c.advance) :=
      (run_accept fun _ => ha).trans (if_pos hcur)
    have hstep' : (accept l).run c' = .ok (true, c'.advance) :=
      (run_accept fun _ => ha').trans (if_pos (hc.2 ▸ hcur))
    have hadvance := At.advance_bind hc hm (hcur ▸ hl) hyes
    rw [At, run_bind_ok (run_advance ha), run_bind_ok (run_advance ha')] at hadvance
    rw [At, run_bind_ok hstep, run_bind_ok hstep']
    exact hadvance
  · have hcur' : c'.cur.lexeme ≠ l := hc.2 ▸ hcur
    have hstay : (accept l).run c = .ok (false, c) :=
      (run_accept fun h => absurd h hcur).trans (if_neg hcur)
    have hstay' : (accept l).run c' = .ok (false, c') :=
      (run_accept fun h => absurd h hcur').trans (if_neg hcur')
    rw [At, run_bind_ok hstay, run_bind_ok hstay']
    exact hno hm hc

/-- The tokens that matter bound both sides. -/
theorem bounded {p q : Nat → Parser α}
    (hp : ∀ m ≤ n, ∀ j j', m ≤ j → m ≤ j' → P.Pairs m pre mid k g (p j) (q j')) :
    P.Pairs n pre mid k g (Parser.bounded p) (Parser.bounded q) := by
  intro m c c' hm hc
  obtain ⟨l, hl, hj, hj', halike⟩ := P.within hc.alike
  exact (hp l (Nat.le_trans hl hm) _ _ hj hj' (Nat.le_refl l) (hc.of_alike halike)).weaken
    fun a => Nat.sub_le_sub_right hl (k a)

end Pairs

/-! ### Loops -/

section Loops

variable {σ τ : Type} {g : (Span → Span) → σ → τ} {step step' : σ → Parser (σ × Bool)} {R J : Phase}

/-- A turn that asks for more has passed a token, and is followed by another from `R`; the last one
ends in `J`. -/
abbrev Turns (P : Pairing) (n : Nat) (R J : Phase) (g : (Span → Span) → σ → τ)
    (p q : Parser (σ × Bool)) : Prop :=
  P.Pairs n R (fun r => if r.2 then R else J) (fun r => r.2.toNat) (fun f => Prod.map (g f) id) p q

theorem Pairs.again {k : σ × Bool → Nat} {s s' : σ} (hs : g P.left s = g P.right s')
    (hk : k (s, true) = 0) : P.Pairs n R (fun r => if r.2 then R else J) k
      (fun f => Prod.map (g f) id) (Pure.pure (s, true)) (Pure.pure (s', true)) :=
  fun _ _ _ _ hc => .pure hc (Prod.ext hs rfl) hk

theorem Pairs.done {k : σ × Bool → Nat} {s s' : σ} (hs : g P.left s = g P.right s')
    (hk : k (s, false) = 0) : P.Pairs n J (fun r => if r.2 then R else J) k
      (fun f => Prod.map (g f) id) (Pure.pure (s, false)) (Pure.pure (s', false)) :=
  fun _ _ _ _ hc => .pure hc (Prod.ext hs rfl) hk

theorem loopWithin_pairs
    (hstep : ∀ s s', g P.left s = g P.right s' → P.Turns n R J g (step s) (step' s')) {j j' : Nat}
    (hj : n ≤ j) (hj' : n ≤ j') {s s' : σ} (hs : g P.left s = g P.right s') :
    P.Pairs n R (fun _ => J) (fun _ => 0) g (loopWithin step j s) (loopWithin step' j' s') := by
  induction j generalizing n j' s s' with
  | zero =>
    obtain rfl : n = 0 := by omega
    exact .of_zero
  | succ j ih =>
    cases j' with
    | zero =>
      obtain rfl : n = 0 := by omega
      exact .of_zero
    | succ j' =>
      refine (hstep s s' hs).bind fun r r' hr => ?_
      obtain ⟨s₁, more⟩ := r
      obtain ⟨s₁', more'⟩ := r'
      obtain ⟨hs₁, rfl⟩ : g P.left s₁ = g P.right s₁' ∧ more = more' := Prod.mk.inj hr
      cases more with
      | true =>
        exact ih (fun s s' hs => (hstep s s' hs).le (Nat.sub_le n 1)) (Nat.sub_le_of_le_add hj)
          (Nat.sub_le_of_le_add hj') hs₁
      | false => exact .pure hs₁

theorem loop_pairs
    (hstep : ∀ s s', g P.left s = g P.right s' → P.Turns n R J g (step s) (step' s')) {s s' : σ}
    (hs : g P.left s = g P.right s') :
    P.Pairs n R (fun _ => J) (fun _ => 0) g (loop step s) (loop step' s') :=
  .bounded fun _ hm _ _ hj hj' => loopWithin_pairs (fun s s' hs => (hstep s s' hs).le hm) hj hj' hs

end Loops

/-! ### Recursive parsers -/

/-- Levels that pass a token before they open the next one. -/
structure Nesting (P : Pairing) (post : Phase) (g : (Span → Span) → α → γ)
    (level : (ι → Parser α) → ι → Parser α) (within : Nat → ι → Parser α) : Prop where
  succ : ∀ n, within (n + 1) = level (within n)
  pairs : ∀ {n : Nat} {p q : ι → Parser α},
    (∀ i, P.Pairs n .aligned (fun _ => post) (fun _ => 1) g (p i) (q i)) →
      ∀ i, P.Pairs (n + 1) .aligned (fun _ => post) (fun _ => 1) g (level p i) (level q i)

theorem Nesting.within_pairs {post : Phase} {level : (ι → Parser α) → ι → Parser α}
    {within : Nat → ι → Parser α} (hn : P.Nesting post g level within) {j j' : Nat} (hj : n ≤ j)
    (hj' : n ≤ j') (i : ι) :
    P.Pairs n .aligned (fun _ => post) (fun _ => 1) g (within j i) (within j' i) := by
  induction n generalizing j j' i with
  | zero => exact .of_zero
  | succ n ih =>
    obtain ⟨j, rfl⟩ := Nat.exists_eq_add_of_lt (Nat.lt_of_succ_le hj)
    obtain ⟨j', rfl⟩ := Nat.exists_eq_add_of_lt (Nat.lt_of_succ_le hj')
    rw [hn.succ, hn.succ]
    exact hn.pairs (fun i => ih (Nat.le_add_right n j) (Nat.le_add_right n j') i) i

theorem Nesting.bounded_pairs {post : Phase} {level : (ι → Parser α) → ι → Parser α}
    {within : Nat → ι → Parser α} (hn : P.Nesting post g level within) (n : Nat) (i : ι) :
    P.Pairs n .aligned (fun _ => post) (fun _ => 1) g (bounded fun m => within m i)
      (bounded fun m => within m i) :=
  .bounded fun _ _ _ _ hj hj' => hn.within_pairs hj hj' i

end Pairing

/-! ### Steps and blocks -/

namespace Parser

open LayoutScript.Pairing (plain)

variable {P : Pairing} {n : Nat}

theorem expect_pairs {l : Lexeme} (hl : l.InLine) {cause : SyntaxCause}
    (hr : cause.isReported = true) :
    P.Words n 1 plain (do if !(← accept l) then fail cause) (do if !(← accept l) then fail cause) :=
  .accept_bind hl (.pure rfl) (.fail hr)

theorem expectPunct_pairs (p : Punct) : P.Words n 1 plain (expectPunct p) (expectPunct p) :=
  expect_pairs (by simp) rfl

theorem expectKeyword_pairs (w : Keyword) : P.Words n 1 plain (expectKeyword w) (expectKeyword w) :=
  expect_pairs (by simp) rfl

theorem expectDedent_pairs : P.Words n 1 plain expectDedent expectDedent :=
  expect_pairs (by simp) rfl

theorem expectIdentifier_pairs : P.Words n 1 plain expectIdentifier expectIdentifier := by
  refine .current_bind fun m c c' hm hc => ?_
  rw [← hc.lexeme]
  split
  · next name h => exact .advance_bind hc hm (by simp [h]) (.pure rfl)
  · exact .fail hc rfl

theorem expectName_pairs : P.Words n 1 plain expectName expectName := by
  refine .current_bind fun m c c' hm hc => ?_
  rw [← hc.lexeme]
  split
  · next name h => exact .advance_bind hc hm (by simp [h]) (.pure rfl)
  · next w h => exact .advance_bind hc hm (by simp [h]) (.pure rfl)
  · exact .fail hc rfl

theorem skipNewlines_pairs :
    P.Pairs n .alike (fun _ => .aligned) (fun _ => 0) plain skipNewlines skipNewlines :=
  fun _ _ _ _ hc => by
    obtain ⟨h, h'⟩ := P.closed hc
    rw [Pairing.At, h.run_skipNewlines, h'.run_skipNewlines]
    exact .value rfl (P.skip hc)

theorem expectNewline_pairs : P.Lines n 0 plain expectNewline expectNewline := by
  refine .sees_bind fun b => .ite (fun _ _ _ _ hc => .value rfl hc.1) fun m c c' _ hc => ?_
  obtain ⟨h, h'⟩ := P.closed hc.1
  rw [Pairing.At, run_expect _ (h.advances (by simp)), run_expect _ (h'.advances (by simp)),
    ← hc.lexeme]
  split
  · next hl => exact .value rfl (P.alike_advance hc (by simp [hl]))
  · exact .error (P.fails rfl hc)

variable {g : (Span → Span) → α → γ} {item item' : Parser α}

theorem map_append_eq {xs xs' : List α} {x x' : α}
    (hxs : xs.map (g P.left) = xs'.map (g P.right)) (hx : g P.left x = g P.right x') :
    (xs ++ [x]).map (g P.left) = (xs' ++ [x']).map (g P.right) := by
  rw [List.map_append, List.map_append, hxs, List.map_singleton, List.map_singleton, hx]

theorem nextItem_pairs (h : P.Words n 1 g item item') (close : Punct) (items items' : List α)
    (hitems : items.map (g P.left) = items'.map (g P.right)) :
    P.Turns n .aligned .aligned (fun f => List.map (g f)) (nextItem close item items)
      (nextItem close item' items') := by
  refine .sees_bind fun _ => .ite (.done hitems rfl) (h.bind fun x x' hx => ?_)
  have hadded := map_append_eq hitems hx
  exact .accept_bind (by simp) (.again hadded rfl) (.done hadded rfl)

theorem commaSeparated_pairs (h : P.Words n 1 g item item') (close : Punct) :
    P.Words n 1 (fun f => List.map (g f)) (commaSeparated close item)
      (commaSeparated close item') :=
  (Pairing.loop_pairs (g := fun f => List.map (g f)) (nextItem_pairs h close) rfl).bind
    fun _ _ hitems => (expectPunct_pairs close).andThen fun _ => .pure hitems

theorem nextEntry_pairs {σ τ : Type} {g : (Span → Span) → σ → τ} {entry entry' : σ → Parser σ}
    (h : ∀ s s', g P.left s = g P.right s' → P.Lines n 1 g (entry s) (entry' s')) (s s' : σ)
    (hs : g P.left s = g P.right s') :
    P.Turns n .alike .aligned g (nextEntry entry s) (nextEntry entry' s') := by
  have hentry : P.Pairs n .aligned (fun r => if r.2 then .alike else .aligned) (fun r => r.2.toNat)
      (fun f => Prod.map (g f) id) (do return (← entry s, true)) (do return (← entry' s', true)) :=
    (h s s' hs).bind fun t t' ht => .again ht rfl
  exact skipNewlines_pairs.andThen fun _ => .accept_bind (by simp)
    (.done hs rfl) (.sees_bind fun _ => .ite (.fail_bind rfl) hentry)

theorem indentedFold_pairs {σ τ : Type} {g : (Span → Span) → σ → τ} {entry entry' : σ → Parser σ}
    (h : ∀ s s', g P.left s = g P.right s' → P.Lines n 1 g (entry s) (entry' s')) {s s' : σ}
    (hs : g P.left s = g P.right s') :
    P.Words n 0 g (indentedFold s entry) (indentedFold s' entry') :=
  expectNewline_pairs.andThen fun _ => skipNewlines_pairs.andThen fun _ =>
    .accept_bind (by simp)
      ((Pairing.loop_pairs (nextEntry_pairs fun s s' hs => (h s s' hs).le (by omega)) hs).of_alike)
      (.pure hs)

theorem entries_pairs (h : P.Lines n 1 g item item') (entries entries' : List α)
    (hentries : entries.map (g P.left) = entries'.map (g P.right)) :
    P.Lines n 1 (fun f => List.map (g f)) (do return entries ++ [← item])
      (do return entries' ++ [← item']) :=
  h.bind fun _ _ hx => .pure (map_append_eq hentries hx)

theorem indented_pairs (h : P.Lines n 1 g item item') :
    P.Words n 0 (fun f => List.map (g f)) (indented item) (indented item') :=
  indentedFold_pairs (entries_pairs h) rfl

theorem closeBlock_pairs {start start' : Span} (hstart : P.left start = P.right start') :
    P.Lines n 1 id (closeBlock start) (closeBlock start') :=
  skipNewlines_pairs.of_alike.andThen fun _ => (expectKeyword_pairs _).andThen fun _ =>
    .prevSpan_bind fun _ _ hlast => expectNewline_pairs.andThen fun _ => .pure (P.join hstart hlast)

theorem nextDash_pairs (name name' : String) (h : name = name') :
    P.Turns n .aligned .aligned plain (nextDash name) (nextDash name') := by
  subst h
  exact .touching_advance (expectName_pairs.andThen fun _ => .again rfl rfl) (.done rfl rfl)

theorem dashedName_pairs : P.Words n 1 plain dashedName dashedName :=
  expectName_pairs.andThen fun _ => Pairing.loop_pairs nextDash_pairs rfl

end Parser

end LayoutScript

import LayoutScript.Proofs.Blocks
import LayoutScript.Proofs.Printer
import LayoutScript.Proofs.Spelling
import LayoutScript.Proofs.StatementGrammar

/-! Texts that are read by a rule, wherever they stand. `Denotes` is for a part of a line and says
what may follow it; `LinesDenote` is for whole lines inside a number of blocks. -/
namespace LayoutScript

theorem Text.isBlank_of_mem_replicate (n : Nat) : ∀ c ∈ List.replicate n ' ', isBlank c = true := by
  intro c hc
  rw [(List.mem_replicate.1 hc).2]
  rfl

namespace Token

variable {source : String} {line column : Nat} {stop stop' : List Char → Prop}
  {cs ds : List Char} {ts us : List Token}

/-- In front of every text that satisfies `stop`, the text `cs` gives the tokens `ts`. -/
structure Lexes (source : String) (line column : Nat) (stop : List Char → Prop) (cs : List Char)
    (ts : List Token) : Prop where
  clean : Clean cs
  run : ∀ rest, stop rest → ofChars source line column 0 (cs ++ rest) =
    (ofChars source line (column + cs.length) 0 rest).map (ts ++ ·)

theorem ofChars_covered (cs rest : List Char) : ofChars source line column cs.length (cs ++ rest) =
    ofChars source line (column + cs.length) 0 rest := by
  induction cs generalizing column with
  | nil => rfl
  | cons c cs ih =>
    rw [List.length_cons, List.cons_append, ofChars, ih, Nat.add_right_comm, Nat.add_assoc]

theorem ofChars_blanks {line column : Nat} {front cs : List Char}
    (h : ∀ c ∈ front, Text.isBlank c = true) :
    ofChars source line column 0 (front ++ cs) =
      ofChars source line (column + front.length) 0 cs := by
  induction front generalizing column with
  | nil => rfl
  | cons c front ih =>
    rw [List.cons_append, ofChars, if_pos (h c List.mem_cons_self),
      ih fun d hd => h d (List.mem_cons_of_mem _ hd), List.length_cons, Nat.add_assoc,
      Nat.add_comm 1]

theorem Lexes.of_scan {l : Lexeme} {c : Char} (hclean : Clean (c :: cs))
    (hscan : ∀ rest, stop rest → Lexeme.scan c (cs ++ rest) = .ok (l, cs.length + 1)) :
    Lexes source line column stop (c :: cs)
      [⟨l, .ofWidth source line column (c :: cs).length⟩] where
  clean := hclean
  run rest hrest := by
    obtain ⟨d, ds, hds, hblank, _⟩ := hclean.head
    obtain ⟨rfl, rfl⟩ := List.cons.inj hds
    rw [List.cons_append, ofChars, if_neg (by simp [hblank]), hscan rest hrest]
    simp only [Nat.add_sub_cancel, ofChars_covered, List.length_cons]
    rw [show column + 1 + cs.length = column + (cs.length + 1) by omega]
    cases ofChars source line (column + (cs.length + 1)) 0 rest <;> rfl

theorem Lexes.token {l : Lexeme} (hp : l.isPlain = true) (hl : l.WellFormed)
    (hstop : ∀ rest, stop rest → l.StopsAt rest) :
    Lexes source line column stop l.text.toList
      [⟨l, .ofWidth source line column l.text.toList.length⟩] := by
  have hclean := l.clean_text hp hl
  obtain ⟨c, cs, hcs, _⟩ := hclean.head
  rw [hcs] at hclean ⊢
  refine .of_scan hclean fun rest hrest => ?_
  obtain ⟨d, ds, hds, hscan⟩ := Lexeme.scan_text hp hl (hstop rest hrest)
  rw [hcs] at hds
  cases hds
  exact hscan

theorem Lexes.mono (h : Lexes source line column stop cs ts)
    (hstop : ∀ rest, stop' rest → stop rest) : Lexes source line column stop' cs ts where
  clean := h.clean
  run rest hrest := h.run rest (hstop rest hrest)

theorem Lexes.append_blanks (n : Nat) (h : Lexes source line column stop cs ts)
    (h' : Lexes source line (column + cs.length + n) stop' ds us)
    (hstop : ∀ rest, stop' rest → stop (List.replicate n ' ' ++ (ds ++ rest))) :
    Lexes source line column stop' (cs ++ List.replicate n ' ' ++ ds) (ts ++ us) where
  clean := h.clean.append _ (by simp) h'.clean
  run rest hrest := by
    rw [List.append_assoc, List.append_assoc, h.run _ (hstop rest hrest),
      ofChars_blanks (Text.isBlank_of_mem_replicate n),
      List.length_replicate, h'.run rest hrest, List.length_append, List.length_append,
      List.length_replicate, Nat.add_assoc, Nat.add_assoc, Nat.add_assoc]
    cases ofChars source line (column + (cs.length + (n + ds.length))) 0 rest with
    | error e => rfl
    | ok vs => exact congrArg Except.ok (List.append_assoc ..).symm

theorem Lexes.append (h : Lexes source line column stop cs ts)
    (h' : Lexes source line (column + cs.length) stop' ds us)
    (hstop : ∀ rest, stop' rest → stop (ds ++ rest)) :
    Lexes source line column stop' (cs ++ ds) (ts ++ us) := by
  simpa using h.append_blanks 0 h' hstop

theorem Lexes.append_blank (h : Lexes source line column stop cs ts)
    (h' : Lexes source line (column + cs.length + 1) stop' ds us)
    (hstop : ∀ rest, stop (' ' :: rest)) :
    Lexes source line column stop' (cs ++ ' ' :: ds) (ts ++ us) := by
  simpa using h.append_blanks 1 h' fun _ _ => hstop _

end Token

/-- What follows an expression in a canonical text. -/
def Loose (rest : List Char) : Prop := ∀ c ∈ rest.head?, c = ' ' ∨ c = ',' ∨ c = ')'

/-- What follows a name or a closing parenthesis in a canonical text. -/
def Tight (rest : List Char) : Prop :=
  ∀ c ∈ rest.head?, c = ' ' ∨ c = ',' ∨ c = ')' ∨ c = '.' ∨ c = '('

theorem Loose.tight {rest : List Char} (h : Loose rest) : Tight rest := by
  intro c hc
  rcases h c hc with rfl | rfl | rfl <;> simp

theorem Loose.stopsAt {rest : List Char} (h : Loose rest) (l : Lexeme) : l.StopsAt rest := by
  cases l with
  | punct p =>
    intro c hc
    rcases h c hc with rfl | rfl | rfl <;> cases p <;> rfl
  | keyword _ | identifier _ | instanceVar _ | number _ =>
    intro c hc
    rcases h c hc with rfl | rfl | rfl <;> decide
  | string _ | template _ | interpolation _ | indent | dedent | newline | eof => trivial

theorem Tight.stopsAt {rest : List Char} (h : Tight rest) {l : Lexeme}
    (hl : ∀ raw, l ≠ .number raw) : l.StopsAt rest := by
  cases l with
  | number raw => exact absurd rfl (hl raw)
  | punct p =>
    intro c hc
    rcases h c hc with rfl | rfl | rfl | rfl | rfl <;> cases p <;> rfl
  | keyword _ | identifier _ | instanceVar _ =>
    intro c hc
    rcases h c hc with rfl | rfl | rfl | rfl | rfl <;> decide
  | string _ | template _ | interpolation _ | indent | dedent | newline | eof => trivial

theorem Loose.blank (rest : List Char) : Loose (' ' :: rest) := by
  rintro c ⟨⟩
  exact .inl rfl

theorem Loose.nil : Loose [] := by
  rintro c ⟨⟩

theorem Token.Lexes.lone {source : String} {line column : Nat} {l : Lexeme} (hp : l.isPlain = true)
    (hl : l.WellFormed) : Lexes source line column Loose l.text.toList
      [⟨l, .ofWidth source line column l.text.toList.length⟩] :=
  .token hp hl fun _ hrest => Loose.stopsAt hrest l

/-- Wherever `cs` stands in front of a text that satisfies `stop`, the rule reads it as something
that is `same`, if a token that satisfies `follow` comes next. -/
def Denotes (stop : List Char → Prop) (follow : Token → Prop) (rule : Rule α) (same : α → Prop)
    (cs : List Char) : Prop :=
  ∀ source line column, ∃ ts a, Token.Lexes source line column stop cs ts ∧ same a ∧
    ∀ next, follow next → rule ts next a

namespace Token.Lexes

variable {source : String} {line column : Nat} {stop : List Char → Prop} {cs : List Char}
  {ts : List Token}

theorem after {l : Lexeme} (hp : l.isPlain = true) (hl : l.WellFormed)
    (h : Lexes source line (column + l.text.toList.length + 1) stop cs ts) :
    Lexes source line column stop (l.text.toList ++ ' ' :: cs)
      (⟨l, .ofWidth source line column l.text.toList.length⟩ :: ts) :=
  (Lexes.token hp hl fun _ hrest => Loose.stopsAt hrest l).append_blank h Loose.blank

theorem openParen (h : Lexes source line (column + 1) stop cs ts) :
    Lexes source line column stop ('(' :: cs)
      (⟨.punct .openParen, .ofWidth source line column 1⟩ :: ts) := by
  have hopen : Lexes source line column (fun _ => True) ['(']
      [⟨.punct .openParen, .ofWidth source line column 1⟩] :=
    Lexes.token (l := .punct .openParen) rfl trivial fun _ _ _ _ => rfl
  exact hopen.append h fun _ _ => trivial

theorem closeParen (h : Lexes source line column Loose cs ts) :
    Lexes source line column Tight (cs ++ [')'])
      (ts ++ [⟨.punct .closeParen,
        .ofWidth source line (column + cs.length) 1⟩]) := by
  refine h.append (Lexes.token (l := .punct .closeParen) rfl trivial fun rest hrest =>
    Tight.stopsAt hrest (by simp)) fun rest _ => ?_
  rintro c ⟨⟩
  exact .inr (.inr rfl)

end Token.Lexes

inductive Parenthesized (rule : Rule α) : Rule α
  | mk {o us close next a} : o.lexeme = .punct .openParen → rule us close a →
    close.lexeme = .punct .closeParen → Parenthesized rule (o :: us ++ [close]) next a

inductive Single (l : Lexeme) : Rule Token
  | mk {t next} : t.lexeme = l → Single l [t] next t

inductive Pair (first : Rule α) (second : Rule β) : Rule (α × β)
  | mk {us vs next a b} : first us (vs.headD next) a → second vs next b →
    Pair first second (us ++ vs) next (a, b)

namespace Denotes

variable {stop : List Char → Prop} {follow : Token → Prop} {rule : Rule α} {same : α → Prop}
  {cs : List Char}

theorem of_follow {follow' : Token → Prop} (h : Denotes stop follow rule same cs)
    (hf : ∀ next, follow' next → follow next) : Denotes stop follow' rule same cs := by
  intro source line column
  obtain ⟨ts, a, hlex, hsame, hrule⟩ := h source line column
  exact ⟨ts, a, hlex, hsame, fun next hnext => hrule next (hf next hnext)⟩

theorem imp {rule' : Rule β} {same' : β → Prop} (h : Denotes stop follow rule same cs)
    (himp : ∀ {a}, same a → ∃ b, same' b ∧
      ∀ {ts next}, follow next → rule ts next a → rule' ts next b) :
    Denotes stop follow rule' same' cs := by
  intro source line column
  obtain ⟨ts, a, hlex, ha, h⟩ := h source line column
  obtain ⟨b, hb, hrule⟩ := himp ha
  exact ⟨ts, b, hlex, hb, fun next hnext => hrule hnext (h next hnext)⟩

theorem map {f : α → β} {rule' : Rule β} {same' : β → Prop} (h : Denotes stop follow rule same cs)
    (hrule : ∀ {ts next a}, follow next → rule ts next a → rule' ts next (f a))
    (hsame : ∀ {a}, same a → same' (f a)) : Denotes stop follow rule' same' cs :=
  h.imp fun {a} ha => ⟨f a, hsame ha, hrule⟩

theorem token {l : Lexeme} (hp : l.isPlain = true) (hl : l.WellFormed)
    (hstop : ∀ rest, stop rest → l.StopsAt rest) :
    Denotes stop (fun _ => True) (Single l) (fun _ => True) l.text.toList :=
  fun _ _ _ => ⟨_, _, .token hp hl hstop, trivial, fun _ _ => .mk rfl⟩

theorem lone (follow : Token → Prop) {l : Lexeme} (hp : l.isPlain = true) (hl : l.WellFormed) :
    Denotes Loose follow (Single l) (fun _ => True) l.text.toList :=
  (token hp hl fun _ hrest => Loose.stopsAt hrest l).of_follow fun _ _ => trivial

section Sequence

variable {second : Rule β} {stop' : List Char → Prop} {follow' : Token → Prop} {same' : β → Prop}
  {ds : List Char}

theorem blanks (n : Nat) (h : Denotes stop follow rule same cs)
    (h' : Denotes stop' follow' second same' ds)
    (hstop : ∀ rest, stop' rest → stop (List.replicate n ' ' ++ (ds ++ rest)))
    (hfollow : ∀ {vs next b}, second vs next b → follow (vs.headD next)) :
    Denotes stop' follow' (Pair rule second) (fun r => same r.1 ∧ same' r.2)
      (cs ++ List.replicate n ' ' ++ ds) := by
  intro source line column
  obtain ⟨us, a, hlex, ha, hfirst⟩ := h source line column
  obtain ⟨vs, b, hlex', hb, hsecond⟩ := h' source line (column + cs.length + n)
  refine ⟨us ++ vs, (a, b), hlex.append_blanks n hlex' hstop, ⟨ha, hb⟩, fun next hnext => ?_⟩
  exact .mk (hfirst _ (hfollow (hsecond next hnext))) (hsecond next hnext)

theorem seq (h : Denotes stop follow rule same cs) (h' : Denotes stop' follow' second same' ds)
    (hstop : ∀ rest, stop' rest → stop (ds ++ rest))
    (hfollow : ∀ {vs next b}, second vs next b → follow (vs.headD next)) :
    Denotes stop' follow' (Pair rule second) (fun r => same r.1 ∧ same' r.2) (cs ++ ds) := by
  simpa using h.blanks 0 h' hstop hfollow

theorem blank (h : Denotes stop follow rule same cs) (h' : Denotes stop' follow' second same' ds)
    (hstop : ∀ rest, stop (' ' :: rest))
    (hfollow : ∀ {vs next b}, second vs next b → follow (vs.headD next)) :
    Denotes stop' follow' (Pair rule second) (fun r => same r.1 ∧ same' r.2)
      (cs ++ ' ' :: ds) := by
  simpa using h.blanks 1 h' (fun _ _ => hstop _) hfollow

end Sequence

theorem after {l : Lexeme} (hp : l.isPlain = true) (hl : l.WellFormed)
    (h : Denotes stop follow rule same cs) :
    Denotes stop follow (Pair (Single l) rule) (fun r => same r.2) (l.text.toList ++ ' ' :: cs) :=
  ((token hp hl fun _ hrest => Loose.stopsAt hrest l).blank h Loose.blank fun _ => trivial).map
    (f := id) (fun _ h => h) And.right

theorem parenthesized (h : Denotes Loose (·.lexeme = .punct .closeParen) rule same cs) :
    Denotes Tight (fun _ => True) (Parenthesized rule) same (Text.parenthesized cs) := by
  intro source line column
  obtain ⟨ts, a, hlex, hsame, hrule⟩ := h source line (column + 1)
  exact ⟨_, a, hlex.closeParen.openParen, hsame, fun next _ => .mk rfl (hrule _ rfl) rfl⟩

theorem commas {text : α → List Char} {bare : α → β} {as : List α} (hne : as ≠ [])
    (hcomma : ∀ t, t.lexeme = .punct .comma → follow t)
    (hclose : ∀ t, t.lexeme = .punct .closeParen → follow t)
    (h : ∀ a ∈ as, Denotes Loose follow rule (fun b => bare b = bare a) (text a)) :
    Denotes Loose (·.lexeme = .punct .closeParen) (Separated rule)
      (fun bs => bs.map bare = as.map bare) (Text.commas (as.map text)) := by
  induction as with
  | nil => exact absurd rfl hne
  | cons a as ih =>
    intro source line column
    obtain ⟨ts, b, hlex, hsame, hrule⟩ := h a List.mem_cons_self source line column
    cases as with
    | nil =>
      refine ⟨ts, [b], ?_, ?_, fun next hnext => .last (hrule next (hclose next hnext))⟩
      · rwa [List.map_singleton, Text.commas_singleton]
      · exact congrArg (fun c => [c]) hsame
    | cons a' as =>
      have hitems := ih (List.cons_ne_nil _ _) fun a ha => h a (List.mem_cons_of_mem _ ha)
      have hlexComma := hlex.append (Token.Lexes.token (l := .punct .comma) rfl trivial
        fun rest hrest => Loose.stopsAt hrest _) fun rest _ => by
          rintro c ⟨⟩
          exact .inr (.inl rfl)
      obtain ⟨us, bs, hlex', hsame', hrule'⟩ :=
        hitems source line (column + (text a ++ [',']).length + 1)
      have hlexAll := hlexComma.append_blank hlex' Loose.blank
      rw [List.append_assoc, List.append_assoc] at hlexAll
      rw [List.map_cons, List.map_cons, Text.commas_cons_cons]
      refine ⟨_, b :: bs, hlexAll, List.cons_eq_cons.2 ⟨hsame, hsame'⟩, fun next hnext => ?_⟩
      exact .cons (hrule _ (hcomma _ rfl)) rfl (hrule' next hnext)

theorem arguments {text : α → List Char} {bare : α → β} {as : List α}
    (hcomma : ∀ t, t.lexeme = .punct .comma → follow t)
    (hclose : ∀ t, t.lexeme = .punct .closeParen → follow t)
    (h : ∀ a ∈ as, Denotes Loose follow rule (fun b => bare b = bare a) (text a)) :
    Denotes Tight (fun _ => True) (Parenthesized (Separated rule))
      (fun bs => bs.map bare = as.map bare) (Text.arguments (as.map text)) := by
  by_cases hne : as = []
  · subst hne
    intro source line column
    have hclose : Token.Lexes source line (column + 1) Tight [')']
        [⟨.punct .closeParen, .ofWidth source line (column + 1) 1⟩] :=
      Token.Lexes.token (l := .punct .closeParen) rfl trivial fun _ hrest =>
        Tight.stopsAt hrest (by simp)
    refine ⟨_, [], hclose.openParen, rfl, fun next _ => ?_⟩
    show Parenthesized _ (_ :: [] ++ [_]) next []
    exact .mk rfl .none rfl
  · exact (commas hne hcomma hclose h).parenthesized

end Denotes

/-! ### Lines -/

namespace Levels

def nest : Nat → Levels
  | 0 => initial
  | n + 1 => (nest n).push (2 * (n + 1))

theorem top_nest (n : Nat) : (nest n).top = 2 * n := by
  cases n <;> rfl

theorem move?_nest (n : Nat) : (nest n).move? (2 * n) = some ([], nest n) :=
  move?_of_top_eq (top_nest n)

theorem move?_deeper (n : Nat) : (nest n).move? (2 * (n + 1)) = some ([.indent], nest (n + 1)) :=
  move?_of_top_lt (by rw [top_nest]; omega)

theorem move?_back (n : Nat) : (nest (n + 1)).move? (2 * n) = some ([.dedent], nest n) := by
  rw [move?_of_lt_top (by rw [top_nest]; omega)]
  show (if (nest n).top < 2 * n then none else ((nest n).move? (2 * n)).map _) = _
  rw [top_nest, if_neg (Nat.lt_irrefl _), move?_nest]
  rfl

end Levels

namespace Token

variable {source : String} {number : Nat} {levels levels' levels'' : Levels}

theorem trimLeft_indented {level : Nat} {cs : List Char} (h : Clean cs) :
    Text.trimLeft (Text.indented level cs) = cs := by
  obtain ⟨c, ds, rfl, hblank, _⟩ := h.head
  refine dropWhile_append_of_head (Text.isBlank_of_mem_replicate _) fun d hd => ?_
  cases hd
  exact hblank

theorem length_takeWhile_indented {level : Nat} {cs : List Char} (h : Clean cs) :
    ((Text.indented level cs).takeWhile Text.isBlank).length = 2 * level := by
  obtain ⟨c, ds, rfl, hblank, _⟩ := h.head
  rw [Text.indented, takeWhile_append_of_head (Text.isBlank_of_mem_replicate _) fun d hd => ?_,
    List.length_replicate]
  cases hd
  exact hblank

theorem isSkipped_indented {level : Nat} {cs : List Char} (h : Clean cs) :
    isSkipped (Text.indented level cs) = false := by
  rw [isSkipped, trimLeft_indented h]
  obtain ⟨c, ds, rfl, -, hc⟩ := h.head
  simpa using hc

theorem dropReturn_indented {level : Nat} {cs : List Char} (h : Clean cs) :
    Text.dropReturn (Text.indented level cs) = Text.indented level cs := by
  obtain ⟨ds, c, rfl, hc⟩ := h.last
  rw [Text.dropReturn, if_neg]
  rw [Text.indented, ← List.append_assoc, List.getLast?_concat]
  simpa using hc

theorem ofLine_indented {level : Nat} {layout : List Lexeme} {stop : List Char → Prop}
    {cs : List Char} {ts : List Token} (h : Lexes source number (1 + 2 * level) stop cs ts)
    (hstop : stop []) (hm : levels.move? (2 * level) = some (layout, levels')) :
    let stop := 1 + 2 * level + cs.length
    ofLine source number levels (Text.indented level cs) =
      .ok (layout.map (⟨·, .onLine source number 1 (2 * level + 1)⟩) ++
        (ts ++ [⟨.newline, .onLine source number stop stop⟩]), levels') := by
  have hrun := h.run [] hstop
  rw [List.append_nil] at hrun
  rw [ofLine, isSkipped_indented h.clean, if_neg Bool.false_ne_true]
  simp only [dropReturn_indented h.clean, length_takeWhile_indented h.clean, hm]
  rw [Text.indented, ofChars_blanks (Text.isBlank_of_mem_replicate _), List.length_replicate, hrun]
  rfl

theorem LinesGive.line {level : Nat} {layout : List Lexeme} {stop : List Char → Prop}
    {cs : List Char} {ts : List Token} (h : Lexes source number (1 + 2 * level) stop cs ts)
    (hstop : stop []) (hm : levels.move? (2 * level) = some (layout, levels')) :
    ∃ span last, LinesGive source number levels [Text.indented level cs]
      (layout.map (⟨·, span⟩) ++ (ts ++ [⟨.newline, last⟩])) levels' := by
  have hgive := LinesGive.cons (ofLine_indented h hstop hm) .nil
  rw [List.append_nil] at hgive
  exact ⟨_, _, hgive⟩

theorem LinesGive.trans {lines lines' : List (List Char)} {ts us : List Token}
    (h : LinesGive source number levels lines ts levels')
    (h' : LinesGive source (number + lines.length) levels' lines' us levels'') :
    LinesGive source number levels (lines ++ lines') (ts ++ us) levels'' where
  append more := by
    rw [List.append_assoc, h.append, h'.append, List.length_append, Nat.add_assoc]
    cases ofLines source (number + (lines.length + lines'.length)) levels'' more with
    | error e => rfl
    | ok vs => exact congrArg Except.ok (List.append_assoc ..).symm
  grounded hl := h'.grounded (h.grounded hl)
  ne_eof t ht := (List.mem_append.1 ht).elim (h.ne_eof t) (h'.ne_eof t)
  newline := by
    rcases h'.newline with ⟨rfl, rfl⟩ | ⟨vs, t, rfl, ht⟩
    · rw [List.append_nil, List.append_nil]
      exact h.newline
    · exact .inr ⟨_, t, (List.append_assoc ..).symm, ht⟩

end Token

/-- Wherever the lines stand inside `level` blocks, the rule reads them as something that is `same`,
after the tokens that lead from the levels before them to their own. -/
structure LinesDenote (level : Nat) (rule : Rule α) (same : α → Prop) (lines : List (List Char)) :
    Prop where
  unbroken : ∀ line ∈ lines, '\n' ∉ line
  reads : ∀ source number levels layout, levels.move? (2 * level) = some (layout, .nest level) →
    ∃ span ts a, Token.LinesGive source number levels lines (layout.map (⟨·, span⟩) ++ ts)
      (.nest level) ∧ same a ∧ ∀ next, rule ts next a

/-- The lines are read as entries that change `s` to something that is `same`. There may be none. -/
structure EntryLines (level : Nat) (entry : σ → Rule σ) (s : σ) (same : σ → Prop)
    (lines : List (List Char)) : Prop where
  unbroken : ∀ line ∈ lines, '\n' ∉ line
  reads : (lines = [] ∧ same s) ∨
    ∀ source number levels layout, levels.move? (2 * level) = some (layout, .nest level) →
      ∃ span us s', Token.LinesGive source number levels lines (layout.map (⟨·, span⟩) ++ us)
        (.nest level) ∧ same s' ∧
        ∀ vs next s'', Entries entry s' vs next s'' → Entries entry s (us ++ vs) next s''

theorem unbroken_append {lines lines' : List (List Char)} (h : ∀ line ∈ lines, '\n' ∉ line)
    (h' : ∀ line ∈ lines', '\n' ∉ line) : ∀ line ∈ lines ++ lines', '\n' ∉ line :=
  fun line hline => (List.mem_append.1 hline).elim (h line) (h' line)

section Entries

variable {level : Nat} {entry : σ → Rule σ} {s : σ} {same same' : σ → Prop}
  {lines lines' : List (List Char)}

theorem LinesDenote.entries (h : LinesDenote level (entry s) same lines)
    (hopens : ∀ {ts next s'}, entry s ts next s' → ∃ t us, ts = t :: us ∧ Opens t) :
    EntryLines level entry s same lines := by
  refine ⟨h.unbroken, .inr fun source number levels layout hm => ?_⟩
  obtain ⟨span, ts, s', hgive, hsame, hrule⟩ := h.reads source number levels layout hm
  refine ⟨span, ts, s', hgive, hsame, fun vs next s'' hs => ?_⟩
  have hentry := hrule (vs.headD next)
  obtain ⟨t, us, rfl, ht⟩ := hopens hentry
  exact .entry Newlines.nil ht hentry hs

theorem EntryLines.exists_same (h : EntryLines level entry s same lines) : ∃ s', same s' := by
  rcases h.reads with ⟨_, hs⟩ | h
  · exact ⟨s, hs⟩
  · obtain ⟨_, _, s', _, hs', _⟩ := h "" 0 _ [] (Levels.move?_nest level)
    exact ⟨s', hs'⟩

theorem EntryLines.append (h : EntryLines level entry s same lines)
    (h' : ∀ s', same s' → EntryLines level entry s' same' lines') :
    EntryLines level entry s same' (lines ++ lines') := by
  obtain ⟨s₀, hs₀⟩ := h.exists_same
  refine ⟨unbroken_append h.unbroken (h' s₀ hs₀).unbroken, ?_⟩
  rcases h.reads with ⟨rfl, hs⟩ | h
  · exact (h' s hs).reads
  · refine .inr fun source number levels layout hm => ?_
    obtain ⟨span, us, s₁, hgive, hsame, hentries⟩ := h source number levels layout hm
    rcases (h' s₁ hsame).reads with ⟨rfl, hs₁⟩ | h'
    · rw [List.append_nil]
      exact ⟨span, us, s₁, hgive, hs₁, hentries⟩
    · obtain ⟨_, vs, s₂, hgive', hsame', hentries'⟩ :=
        h' source (number + lines.length) _ [] (Levels.move?_nest level)
      refine ⟨span, us ++ vs, s₂, ?_, hsame', fun ws next s'' hs => ?_⟩
      · rw [← List.append_assoc]
        exact hgive.trans hgive'
      · rw [List.append_assoc]
        exact hentries _ next s'' (hentries' ws next s'' hs)

/-- Entries one after the other. What holds of the state once some of them are read is `after`. -/
theorem EntryLines.flatMap (after : List α → σ → Prop) {text : α → List (List Char)} {as : List α}
    (h : ∀ done s, ∀ a ∈ as, after done s → EntryLines level entry s (after (done ++ [a])) (text a))
    (done : List α) (hs : after done s) :
    EntryLines level entry s (after (done ++ as)) (as.flatMap text) := by
  induction as generalizing s done with
  | nil =>
    rw [List.append_nil]
    exact ⟨fun _ h => absurd h List.not_mem_nil, .inl ⟨rfl, hs⟩⟩
  | cons a as ih =>
    rw [List.flatMap_cons]
    refine (h done s a List.mem_cons_self hs).append fun s' hs' => ?_
    rw [← List.singleton_append, ← List.append_assoc]
    exact ih (fun done s a ha => h done s a (List.mem_cons_of_mem _ ha)) _ hs'

/-- After the line above it, the block is there if it has lines. What leads back to the level of
that line belongs to it. -/
theorem EntryLines.block (h : EntryLines (level + 1) entry s same lines) (source : String)
    (number : Nat) :
    ∃ us levels layout s', Token.LinesGive source number (.nest level) lines us levels ∧ same s' ∧
      levels.move? (2 * level) = some (layout, .nest level) ∧
      ∀ nl span next, nl.lexeme = .newline → next.lexeme ≠ .newline → next.lexeme ≠ .indent →
        Block entry s (nl :: us ++ layout.map (⟨·, span⟩)) next s' := by
  rcases h.reads with ⟨rfl, hs⟩ | h
  · refine ⟨[], .nest level, [], s, .nil, hs, Levels.move?_nest level,
      fun nl span next hnl hne hni => ?_⟩
    exact .empty (.newline hnl) Newlines.nil hne hni
  · obtain ⟨span, us, s', hgive, hsame, hentries⟩ :=
      h source number _ _ (Levels.move?_deeper level)
    refine ⟨_, _, [.dedent], s', hgive, hsame, Levels.move?_back level,
      fun nl span' next hnl hne hni => ?_⟩
    have hclose : Entries entry s (us ++ [⟨.dedent, span'⟩]) next s' :=
      hentries _ next s' (.close Newlines.nil rfl)
    have hindent : (Token.mk .indent span).lexeme = .indent := rfl
    have hblock := Block.indented (.newline hnl) .nil hindent hclose
    exact hblock

end Entries

theorem LinesDenote.map {level : Nat} {f : α → β} {rule : Rule α} {rule' : Rule β}
    {same : α → Prop} {same' : β → Prop} {lines : List (List Char)}
    (h : LinesDenote level rule same lines)
    (hrule : ∀ {ts next a}, rule ts next a → rule' ts next (f a))
    (hsame : ∀ {a}, same a → same' (f a)) : LinesDenote level rule' same' lines where
  unbroken := h.unbroken
  reads source number levels layout hm := by
    obtain ⟨span, ts, a, hgive, ha, h⟩ := h.reads source number levels layout hm
    exact ⟨span, ts, f a, hgive, hsame ha, fun next => hrule (h next)⟩

theorem Denotes.unbroken {stop : List Char → Prop} {follow : Token → Prop} {rule : Rule α}
    {same : α → Prop} {cs : List Char} (h : Denotes stop follow rule same cs) (level : Nat) :
    ∀ line ∈ [Text.indented level cs], '\n' ∉ line := by
  obtain ⟨_, _, hlex, _⟩ := h "" 0 0
  intro line hline
  rw [List.mem_singleton.1 hline, Text.indented, List.mem_append, not_or]
  exact ⟨fun hc => absurd (List.mem_replicate.1 hc).2 (by decide), hlex.clean.line⟩

theorem LinesDenote.line {rule : Rule α} {same : α → Prop} {cs : List Char}
    (h : Denotes Loose (·.lexeme = .newline) rule same cs) (level : Nat) :
    LinesDenote level (LineOf rule) same [Text.indented level cs] where
  unbroken := h.unbroken level
  reads source number levels layout hm := by
    obtain ⟨ts, a, hlex, hsame, hrule⟩ := h source number (1 + 2 * level)
    obtain ⟨span, last, hline⟩ := Token.LinesGive.line hlex Loose.nil hm
    exact ⟨span, _, a, hline, hsame, fun next => .mk (hrule _ rfl) (.newline rfl)⟩

inductive Headed (head : Rule α) (entry : σ → Rule σ) (s : σ) (tail : α → Rule β) :
    Rule (α × σ × β)
  | mk {us vs ws next a s' b} : head us ((vs ++ ws).headD next) a →
    Block entry s vs (ws.headD next) s' → tail a ws next b →
    Headed head entry s tail (us ++ vs ++ ws) next (a, s', b)

def Lexeme.isKeyword : Lexeme → Bool
  | .keyword _ => true
  | _ => false

/-- A phrase that starts with a keyword, so that no block is taken for a part of it. -/
def Keyed (rule : Rule α) : Rule α := fun ts next a =>
  StartsWith Lexeme.isKeyword ts ∧ rule ts next a

theorem LinesDenote.headed {level : Nat} {head : Rule α} {entry : σ → Rule σ} {s : σ}
    {tail : α → Rule β} {sameHead : α → Prop} {sameBody : σ → Prop} {sameTail : β → Prop}
    {cs : List Char} {body lines : List (List Char)}
    (hh : Denotes Loose (·.lexeme = .newline) head sameHead cs)
    (hb : EntryLines (level + 1) entry s sameBody body)
    (ht : ∀ a, LinesDenote level (Keyed (tail a)) sameTail lines) :
    LinesDenote level (Headed head entry s tail)
      (fun r => sameHead r.1 ∧ sameBody r.2.1 ∧ sameTail r.2.2)
      (Text.indented level cs :: body ++ lines) := by
  obtain ⟨_, a₀, _⟩ := hh "" 0 0
  refine ⟨unbroken_append (unbroken_append (hh.unbroken level) hb.unbroken) (ht a₀).unbroken,
    fun source number levels layout hm => ?_⟩
  obtain ⟨us, a, hlex, hsameHead, hhead⟩ := hh source number (1 + 2 * level)
  obtain ⟨span, last, hline⟩ := Token.LinesGive.line hlex Loose.nil hm
  obtain ⟨vs, levels', layout', s', hbody, hsameBody, hm', hblock⟩ := hb.block source (number + 1)
  obtain ⟨span', ws, b, htail, hsameTail, hclose⟩ :=
    (ht a).reads source (number + 1 + body.length) levels' layout' hm'
  let nl : Token := ⟨.newline, last⟩
  refine ⟨span, us ++ (nl :: vs ++ layout'.map (⟨·, span'⟩)) ++ ws, (a, s', b), ?_,
    ⟨hsameHead, hsameBody, hsameTail⟩, fun next => ?_⟩
  · have hgive := (hline.trans hbody).trans (by
      rw [List.length_append, ← Nat.add_assoc]
      exact htail)
    simpa [nl] using hgive
  · obtain ⟨hstarts, hrule⟩ := hclose next
    exact .mk (hhead _ rfl)
      (hblock nl span' _ rfl (hstarts.lexeme_ne rfl) (hstarts.lexeme_ne rfl)) hrule

end LayoutScript

import LayoutScript.Proofs.LineTokens

/-! The layout of a text as a run of the scanner, one token at a time. The open levels grow from the
margin upwards and there is one for each indent that no dedent has met, so the layout tokens of a
whole text are balanced. -/
namespace LayoutScript

namespace Text

def margin (line : List Char) : Nat := (line.takeWhile isBlank).length

theorem takeWhile_append_of_exists {p : α → Bool} {xs ys : List α} (h : ∃ x ∈ xs, p x = false) :
    (xs ++ ys).takeWhile p = xs.takeWhile p := by
  induction xs with
  | nil => simp at h
  | cons x xs ih =>
    rw [List.cons_append, List.takeWhile_cons, List.takeWhile_cons]
    split
    · next hx =>
      rw [ih]
      obtain ⟨y, hy, hp⟩ := h
      rcases List.mem_cons.1 hy with rfl | hy
      · rw [hx] at hp
        cases hp
      · exact ⟨y, hy, hp⟩
    · rfl

theorem exists_not_blank {line : List Char} (h : isSkipped line = false) :
    ∃ c ∈ line, isBlank c = false := by
  have hne : trimLeft line ≠ [] := by
    intro hnil
    rw [isSkipped, hnil] at h
    cases h
  rw [ne_eq, trimLeft_eq_nil_iff, allBlank] at hne
  simpa using hne

/-- The carriage return at the end of a line does not count, since some other character comes before
it. -/
theorem margin_dropReturn {line : List Char} (h : isSkipped line = false) :
    margin (dropReturn line) = margin line := by
  obtain ⟨tail, hline, htail⟩ := dropReturn_append line
  have hex : ∃ c ∈ dropReturn line, isBlank c = false := by
    obtain ⟨c, hc, hb⟩ := exists_not_blank h
    rw [hline] at hc
    rcases List.mem_append.1 hc with hc | hc
    · exact ⟨c, hc, hb⟩
    · rw [htail c hc] at hb
      cases hb
  calc margin (dropReturn line) = margin (dropReturn line ++ tail) := by
        rw [margin, margin, takeWhile_append_of_exists hex]
    _ = margin line := by rw [← hline]

end Text

/-! ### Levels -/

namespace Levels

/-- The lowest level is the margin and every other one is above the level before. -/
structure Rising (levels : Levels) : Prop where
  bottom : levels.toList.head? = some 0
  increasing : levels.toList.Pairwise (· < ·)

variable {levels levels' : Levels} {width : Nat}

theorem rising_iff {es : List Nat} :
    Rising ⟨es⟩ ↔ es.getLast? = some 0 ∧ es.Pairwise (· > ·) := by
  constructor
  · rintro ⟨hb, hi⟩
    rw [Stack.toList] at hb hi
    rw [List.head?_reverse] at hb
    exact ⟨hb, List.pairwise_reverse.1 hi⟩
  · rintro ⟨hb, hi⟩
    refine ⟨?_, ?_⟩
    · rw [Stack.toList, List.head?_reverse]
      exact hb
    · rw [Stack.toList]
      exact List.pairwise_reverse.2 hi

theorem initial_rising : initial.Rising := ⟨rfl, List.pairwise_singleton _ _⟩

theorem Rising.size_pos (h : levels.Rising) : 0 < levels.size := by
  obtain ⟨es⟩ := levels
  cases es with
  | nil => cases h.bottom
  | cons e es => exact Nat.succ_pos _

theorem Rising.push (h : levels.Rising) (hw : levels.top < width) : Rising (levels.push width) := by
  obtain ⟨es⟩ := levels
  rw [rising_iff] at h
  apply rising_iff.2
  constructor
  · rw [List.getLast?_cons, h.1]
    rfl
  · apply List.pairwise_cons.2
    refine ⟨?_, h.2⟩
    intro e he
    cases es with
    | nil => cases he
    | cons top es =>
      have htop : top < width := hw
      rcases List.mem_cons.1 he with rfl | he
      · exact htop
      · have := (List.pairwise_cons.1 h.2).1 e he
        omega

theorem Rising.pop (h : levels.Rising) (hs : 1 < levels.size) : Rising levels.pop := by
  obtain ⟨es⟩ := levels
  match es with
  | [] | [_] => simp [Stack.size] at hs
  | e :: d :: es =>
    rw [rising_iff, List.getLast?_cons_cons] at h
    exact rising_iff.2 ⟨h.1, (List.pairwise_cons.1 h.2).2⟩

theorem size_pop (h : 0 < levels.size) : levels.pop.size + 1 = levels.size := by
  obtain ⟨es⟩ := levels
  cases es with
  | nil => cases h
  | cons e es => rfl

@[simp] theorem top_push : top (levels.push width) = width := rfl

@[simp] theorem size_push : (levels.push width).size = levels.size + 1 := rfl

theorem Rising.one_lt_size (h : levels.Rising) (ht : 0 < levels.top) : 1 < levels.size := by
  obtain ⟨es⟩ := levels
  match es with
  | [] => cases h.bottom
  | [e] =>
    obtain rfl : e = 0 := by simpa [Stack.toList] using h.bottom
    simp [top, Stack.peek?] at ht
  | e :: d :: es => simp [Stack.size]

/-- Closing the levels above a width meets the width exactly if it is a level. -/
theorem top_dropWhile_eq_iff {es : List Nat} (hlast : es.getLast? = some 0)
    (hdesc : es.Pairwise (· > ·)) : top ⟨es.dropWhile (width < ·)⟩ = width ↔ width ∈ es := by
  induction es with
  | nil => cases hlast
  | cons e es ih =>
    obtain ⟨hbelow, hdesc⟩ := List.pairwise_cons.1 hdesc
    rw [List.dropWhile_cons, List.mem_cons]
    split
    · next he =>
      have he : width < e := by simpa using he
      cases es with
      | nil =>
        obtain rfl : e = 0 := by simpa using hlast
        omega
      | cons d es =>
        rw [List.getLast?_cons_cons] at hlast
        rw [ih hlast hdesc, or_iff_right]
        omega
    · next he =>
      have he : e ≤ width := by simpa using he
      show e = width ↔ width = e ∨ width ∈ es
      rw [or_iff_left, eq_comm]
      intro hw
      have := hbelow width hw
      omega

theorem Rising.move?_eq_none_iff (h : levels.Rising) :
    levels.move? width = none ↔ width < levels.top ∧ width ∉ levels.toList := by
  obtain ⟨es⟩ := levels
  obtain ⟨hlast, hdesc⟩ := rising_iff.1 h
  have hkept : top ⟨es.dropWhile (width < ·)⟩ = width ↔ width ∈ es :=
    top_dropWhile_eq_iff hlast hdesc
  rw [Stack.toList, List.mem_reverse]
  by_cases hlt : top ⟨es⟩ < width
  · rw [move?_of_top_lt hlt]
    simp only [reduceCtorEq, false_iff, not_and]
    omega
  · rw [move?_of_not_lt hlt]
    split
    · next hw => simp [hkept.1 hw]
    · next hw =>
      have hnot : width ∉ es := fun hmem => hw (hkept.2 hmem)
      have hne : top ⟨es⟩ ≠ width := by
        rintro rfl
        cases es with
        | nil => cases hlast
        | cons e es => exact hnot List.mem_cons_self
      simp only [hnot, not_false_eq_true, and_true, true_iff]
      omega

end Levels

/-! ### Steps -/

namespace LayoutRun

inductive Phase where
  | atLine (i : Nat)
  | closing (i : Nat)
  | settled (i : Nat)
  | inLine (i : Nat) (rest : List Token)
  | atEnd
  | done
  deriving DecidableEq, Repr

structure State where
  phase : Phase
  levels : Levels
  deriving DecidableEq, Repr

def State.initial : State := ⟨.atLine 0, .initial⟩

def layoutSpan (source : String) (i : Nat) (line : List Char) : Span :=
  .onLine source (i + 1) 1 (Text.margin line + 1)

def endSpan (source : String) (lines : List (List Char)) : Span := .onLine source lines.length 1 1

/-- One step over the lines, and the token that it emits. A line that is less indented than the
levels and meets none of them is stuck in `closing`, and one with a character that starts no token
in `settled`. -/
inductive Step (source : String) (lines : List (List Char)) : State → Option Token → State → Prop
  | skip {i line levels} : lines[i]? = some line → isSkipped line = true →
    Step source lines ⟨.atLine i, levels⟩ (some ⟨.newline, .onLine source (i + 1) 1 1⟩)
      ⟨.atLine (i + 1), levels⟩
  | indent {i line levels} : lines[i]? = some line → isSkipped line = false →
    levels.top < Text.margin line →
    Step source lines ⟨.atLine i, levels⟩ (some ⟨.indent, layoutSpan source i line⟩)
      ⟨.settled i, levels.push (Text.margin line)⟩
  | close {i line levels} : lines[i]? = some line → isSkipped line = false →
    Text.margin line ≤ levels.top → Step source lines ⟨.atLine i, levels⟩ none ⟨.closing i, levels⟩
  | dedent {i line levels} : lines[i]? = some line → Text.margin line < levels.top →
    Step source lines ⟨.closing i, levels⟩ (some ⟨.dedent, layoutSpan source i line⟩)
      ⟨.closing i, levels.pop⟩
  | settle {i line levels} : lines[i]? = some line → levels.top = Text.margin line →
    Step source lines ⟨.closing i, levels⟩ none ⟨.settled i, levels⟩
  | scan {i line levels rest} : lines[i]? = some line →
    Token.ofChars source (i + 1) 1 0 (Text.dropReturn line) = .ok rest →
    Step source lines ⟨.settled i, levels⟩ none ⟨.inLine i rest, levels⟩
  | emit {i t rest levels} :
    Step source lines ⟨.inLine i (t :: rest), levels⟩ (some t) ⟨.inLine i rest, levels⟩
  | endLine {i levels} : Step source lines ⟨.inLine i [], levels⟩ none ⟨.atLine (i + 1), levels⟩
  | endLines {levels} :
    Step source lines ⟨.atLine lines.length, levels⟩ none ⟨.atEnd, levels⟩
  | unwind {levels} : 1 < levels.size →
    Step source lines ⟨.atEnd, levels⟩ (some ⟨.dedent, endSpan source lines⟩) ⟨.atEnd, levels.pop⟩
  | eof {levels} : levels.size ≤ 1 →
    Step source lines ⟨.atEnd, levels⟩ (some ⟨.eof, endSpan source lines⟩) ⟨.done, levels⟩

/-- The states of the run, each with the tokens emitted before it. -/
inductive Reaches (source : String) (lines : List (List Char)) : List Token → State → Prop
  | initial : Reaches source lines [] .initial
  | step {ts s t s'} : Reaches source lines ts s → Step source lines s t s' →
    Reaches source lines (ts ++ t.toList) s'

def indents (ts : List Token) : Nat := ts.countP fun t => t.lexeme == .indent

def dedents (ts : List Token) : Nat := ts.countP fun t => t.lexeme == .dedent

def newlines (ts : List Token) : Nat := ts.countP fun t => t.lexeme == .newline

@[simp] theorem indents_append (ts us : List Token) :
    indents (ts ++ us) = indents ts + indents us :=
  List.countP_append

@[simp] theorem dedents_append (ts us : List Token) :
    dedents (ts ++ us) = dedents ts + dedents us :=
  List.countP_append

@[simp] theorem newlines_append (ts us : List Token) :
    newlines (ts ++ us) = newlines ts + newlines us :=
  List.countP_append

/-- Tokens of the text of a line: neither changes of level nor the end of the text. -/
def Inner (ts : List Token) : Prop :=
  ∀ t ∈ ts, t.lexeme ≠ .indent ∧ t.lexeme ≠ .dedent ∧ t.lexeme ≠ .eof

theorem ofChars_inner {source : String} {number : Nat} {cs : List Char} {ts : List Token}
    (h : Token.ofChars source number 1 0 cs = .ok ts) : Inner ts ∧ newlines ts = 1 := by
  obtain ⟨us, t, rfl, ht, hsolid⟩ := Token.ofChars_tokens h
  constructor
  · intro u hu
    rcases List.mem_append.1 hu with hu | hu
    · have hu := hsolid u hu
      exact ⟨Lexeme.ne_of_isSolid hu rfl, Lexeme.ne_of_isSolid hu rfl, Lexeme.ne_of_isSolid hu rfl⟩
    · rw [List.mem_singleton.1 hu, ht]
      simp
  · have hus : newlines us = 0 := by
      apply List.countP_eq_zero.2
      intro u hu
      simpa using Lexeme.ne_of_isSolid (hsolid u hu) rfl
    have hnewline : newlines [t] = 1 := by simp [newlines, ht]
    rw [newlines_append, hus, hnewline]

def Phase.Fits (lines : List (List Char)) (ts : List Token) (levels : Levels) : Phase → Prop
  | .atLine i => newlines ts = i ∧ (∀ t ∈ ts, t.lexeme ≠ .eof) ∧
    ∀ j line, i = j + 1 → lines[j]? = some line → isSkipped line = false →
      levels.top = Text.margin line
  | .closing i => newlines ts = i ∧ (∀ t ∈ ts, t.lexeme ≠ .eof) ∧
    ∀ line, lines[i]? = some line → isSkipped line = false
  | .settled i => newlines ts = i ∧ (∀ t ∈ ts, t.lexeme ≠ .eof) ∧
    ∀ line, lines[i]? = some line → levels.top = Text.margin line
  | .inLine i rest => newlines ts + newlines rest = i + 1 ∧ (∀ t ∈ ts, t.lexeme ≠ .eof) ∧
    Inner rest ∧ ∀ line, lines[i]? = some line → levels.top = Text.margin line
  | .atEnd => newlines ts = lines.length ∧ (∀ t ∈ ts, t.lexeme ≠ .eof)
  | .done => newlines ts = lines.length ∧ levels.size ≤ 1 ∧
    ∃ us last, ts = us ++ [last] ∧ last.lexeme = .eof ∧ ∀ t ∈ us, t.lexeme ≠ .eof

structure Sound (lines : List (List Char)) (ts : List Token) (s : State) : Prop where
  rising : s.levels.Rising
  balance : indents ts = dedents ts + (s.levels.size - 1)
  fits : s.phase.Fits lines ts s.levels

variable {source : String} {lines : List (List Char)} {ts : List Token} {s s' : State}
  {o : Option Token}

theorem Step.rising (h : Step source lines s o s') (hs : Sound lines ts s) : s'.levels.Rising := by
  cases h with
  | indent _ _ hw => exact hs.rising.push hw
  | dedent _ hw => exact hs.rising.pop (hs.rising.one_lt_size (Nat.zero_lt_of_lt hw))
  | unwind hsize => exact hs.rising.pop hsize
  | skip _ _ | close _ _ _ | settle _ _ | scan _ _ | emit | endLine | endLines | eof _ =>
    exact hs.rising

theorem Step.balance (h : Step source lines s o s') (hs : Sound lines ts s) :
    indents (ts ++ o.toList) = dedents (ts ++ o.toList) + (s'.levels.size - 1) := by
  have hpos := hs.rising.size_pos
  have hbalance := hs.balance
  rw [indents_append, dedents_append]
  cases h with
  | skip _ _ | close _ _ _ | settle _ _ | scan _ _ | endLine | endLines | eof _ => exact hbalance
  | @indent _ _ levels _ _ _ =>
    show indents ts + 1 = dedents ts + 0 + (levels.size + 1 - 1)
    dsimp only at hbalance hpos
    omega
  | @dedent _ _ levels _ hw =>
    have hsize := hs.rising.one_lt_size (Nat.zero_lt_of_lt hw)
    have hpop := Levels.size_pop hpos
    show indents ts + 0 = dedents ts + 1 + (levels.pop.size - 1)
    dsimp only at hbalance hpos hpop hsize
    omega
  | @unwind levels hsize =>
    have hpop := Levels.size_pop hpos
    show indents ts + 0 = dedents ts + 1 + (levels.pop.size - 1)
    dsimp only at hbalance hpop
    omega
  | @emit i t rest levels =>
    obtain ⟨hindent, hdedent, _⟩ := hs.fits.2.2.1 t List.mem_cons_self
    have hi : indents [t] = 0 := by simp [indents, hindent]
    have hd : dedents [t] = 0 := by simp [dedents, hdedent]
    simp only [Option.toList_some, hi, hd]
    exact hbalance

theorem ne_eof_append {us : List Token} (h : ∀ t ∈ ts, t.lexeme ≠ .eof)
    (h' : ∀ t ∈ us, t.lexeme ≠ .eof) : ∀ t ∈ ts ++ us, t.lexeme ≠ .eof := by
  intro t ht
  rcases List.mem_append.1 ht with ht | ht
  · exact h t ht
  · exact h' t ht

theorem Step.fits (h : Step source lines s o s') (hs : Sound lines ts s) :
    s'.phase.Fits lines (ts ++ o.toList) s'.levels := by
  have hfits := hs.fits
  cases h with
  | @skip i line levels hline hskip =>
    refine ⟨?_, ne_eof_append hfits.2.1 (by simp), ?_⟩
    · rw [newlines_append, hfits.1]
      rfl
    · rintro j line' hj hline' hskip'
      obtain rfl : i = j := by omega
      rw [hline] at hline'
      cases hline'
      rw [hskip] at hskip'
      cases hskip'
  | @indent i line levels hline _ _ =>
    refine ⟨?_, ne_eof_append hfits.2.1 (by simp), ?_⟩
    · rw [newlines_append, hfits.1]
      rfl
    · intro line' hline'
      rw [hline] at hline'
      cases hline'
      rfl
  | @close i line levels hline hskip _ =>
    rw [Option.toList_none, List.append_nil]
    refine ⟨hfits.1, hfits.2.1, ?_⟩
    intro line' hline'
    rw [hline] at hline'
    cases hline'
    exact hskip
  | dedent _ _ =>
    refine ⟨?_, ne_eof_append hfits.2.1 (by simp), hfits.2.2⟩
    rw [newlines_append, hfits.1]
    rfl
  | @settle i line levels hline htop =>
    rw [Option.toList_none, List.append_nil]
    refine ⟨hfits.1, hfits.2.1, ?_⟩
    intro line' hline'
    rw [hline] at hline'
    cases hline'
    exact htop
  | scan _ hscan =>
    obtain ⟨hinner, hnewline⟩ := ofChars_inner hscan
    rw [Option.toList_none, List.append_nil]
    exact ⟨by rw [hfits.1, hnewline], hfits.2.1, hinner, hfits.2.2⟩
  | @emit i t rest levels =>
    obtain ⟨hnewlines, hne, hinner, htop⟩ := hfits
    refine ⟨?_, ne_eof_append hne ?_, fun u hu => hinner u (List.mem_cons_of_mem _ hu), htop⟩
    · rw [← hnewlines, newlines_append, Nat.add_assoc, ← newlines_append]
      rfl
    · intro u hu
      rw [List.mem_singleton.1 hu]
      exact (hinner t List.mem_cons_self).2.2
  | @endLine i levels =>
    obtain ⟨hnewlines, hne, _, htop⟩ := hfits
    rw [Option.toList_none, List.append_nil]
    refine ⟨hnewlines, hne, ?_⟩
    rintro j line hj hline _
    obtain rfl : i = j := by omega
    exact htop line hline
  | endLines =>
    rw [Option.toList_none, List.append_nil]
    exact ⟨hfits.1, hfits.2.1⟩
  | unwind _ =>
    refine ⟨?_, ne_eof_append hfits.2 (by simp)⟩
    rw [newlines_append, hfits.1]
    rfl
  | eof hsize =>
    refine ⟨?_, hsize, ts, _, rfl, rfl, hfits.2⟩
    rw [newlines_append, hfits.1]
    rfl

theorem Step.sound (h : Step source lines s o s') (hs : Sound lines ts s) :
    Sound lines (ts ++ o.toList) s' :=
  ⟨h.rising hs, h.balance hs, h.fits hs⟩

theorem Reaches.sound (h : Reaches source lines ts s) : Sound lines ts s := by
  induction h with
  | initial =>
    refine ⟨Levels.initial_rising, rfl, rfl, by simp, ?_⟩
    intro j line hj
    cases hj
  | step _ hstep ih => exact hstep.sound ih

/-! ### The run and the tokens of the text -/

def misfit (source : String) (i : Nat) (line : List Char) : LexError :=
  ⟨.ofNat (i + 1), .ofNat (Text.margin line + 1), .indentation (Text.margin line), source⟩

def andLater (source : String) (lines : List (List Char)) (levels : Levels) (i : Nat)
    (ts : List Token) : Except LexError (List Token) :=
  (Token.ofLines source (i + 2) levels (lines.drop (i + 1))).map (ts ++ ·)

def State.rest (source : String) (lines : List (List Char)) (s : State) :
    Except LexError (List Token) :=
  match s.phase with
  | .atLine i => Token.ofLines source (i + 1) s.levels (lines.drop i)
  | .closing i =>
    if s.levels.top < Text.margin (lines[i]?.getD []) then
      .error (misfit source i (lines[i]?.getD []))
    else Token.ofLines source (i + 1) s.levels (lines.drop i)
  | .settled i =>
    (Token.ofChars source (i + 1) 1 0 (Text.dropReturn (lines[i]?.getD []))).bind
      (andLater source lines s.levels i)
  | .inLine i ts => andLater source lines s.levels i ts
  | .atEnd => .ok (.replicate (s.levels.size - 1) ⟨.dedent, endSpan source lines⟩ ++
      [⟨.eof, endSpan source lines⟩])
  | .done => .ok []

section Rest

variable {i : Nat} {line : List Char} {levels levels' : Levels} {layout : List Lexeme}

theorem ofLine_skipped (hskip : isSkipped line = true) : Token.ofLine source (i + 1) levels line =
    .ok ([⟨.newline, .onLine source (i + 1) 1 1⟩], levels) := by
  rw [Token.ofLine, if_pos hskip]

theorem ofLine_misfit (hskip : isSkipped line = false)
    (hm : levels.move? (Text.margin line) = none) :
    Token.ofLine source (i + 1) levels line = .error (misfit source i line) := by
  rw [← Text.margin_dropReturn hskip, Text.margin] at hm
  rw [misfit, ← Text.margin_dropReturn hskip, Text.margin, Token.ofLine, if_neg (by simp [hskip])]
  simp only [hm]

theorem ofLine_settled (hskip : isSkipped line = false)
    (hm : levels.move? (Text.margin line) = some (layout, levels')) :
    Token.ofLine source (i + 1) levels line =
      (Token.ofChars source (i + 1) 1 0 (Text.dropReturn line)).map fun ts =>
        (layout.map (⟨·, layoutSpan source i line⟩) ++ ts, levels') := by
  rw [← Text.margin_dropReturn hskip, Text.margin] at hm
  rw [layoutSpan, ← Text.margin_dropReturn hskip, Text.margin, Token.ofLine,
    if_neg (by simp [hskip])]
  simp only [hm]
  cases Token.ofChars source (i + 1) 1 0 (Text.dropReturn line) <;> rfl

theorem drop_of_getElem? {lines : List (List Char)} (h : lines[i]? = some line) :
    lines.drop i = line :: lines.drop (i + 1) := by
  obtain ⟨hi, rfl⟩ := List.getElem?_eq_some_iff.1 h
  exact List.drop_eq_getElem_cons hi

theorem map_append_append (r : Except ε (List α)) (xs ys : List α) :
    (r.map (ys ++ ·)).map (xs ++ ·) = r.map (xs ++ ys ++ ·) := by
  cases r with
  | error e => rfl
  | ok zs => exact congrArg Except.ok (List.append_assoc ..).symm

@[simp] theorem map_nil_append (r : Except ε (List α)) : r.map ([] ++ ·) = r := by
  cases r <;> rfl

theorem rest_misfit (hline : lines[i]? = some line) (hskip : isSkipped line = false)
    (hm : levels.move? (Text.margin line) = none) :
    Token.ofLines source (i + 1) levels (lines.drop i) = .error (misfit source i line) := by
  rw [drop_of_getElem? hline]
  simp only [Token.ofLines, ofLine_misfit hskip hm]

theorem rest_settled (hline : lines[i]? = some line) (hskip : isSkipped line = false)
    (hm : levels.move? (Text.margin line) = some (layout, levels')) :
    Token.ofLines source (i + 1) levels (lines.drop i) =
      (State.rest source lines ⟨.settled i, levels'⟩).map
        (layout.map (⟨·, layoutSpan source i line⟩) ++ ·) := by
  rw [drop_of_getElem? hline, State.rest]
  simp only [hline, Option.getD_some, Token.ofLines, ofLine_settled hskip hm]
  cases Token.ofChars source (i + 1) 1 0 (Text.dropReturn line) with
  | error e => rfl
  | ok ts =>
    show _ = (andLater source lines levels' i ts).map _
    rw [andLater, map_append_append]
    simp only [Except.map]
    cases Token.ofLines source (i + 1 + 1) levels' (lines.drop (i + 1)) <;> rfl

end Rest

theorem Step.rest (h : Step source lines s o s') (hs : Sound lines ts s) :
    s.rest source lines = (s'.rest source lines).map (o.toList ++ ·) := by
  cases h with
  | @skip i line levels hline hskip =>
    show Token.ofLines source (i + 1) levels (lines.drop i) = _
    rw [drop_of_getElem? hline, Token.ofLines_cons (ofLine_skipped hskip)]
    rfl
  | @indent i line levels hline hskip hw =>
    exact rest_settled hline hskip (Levels.move?_of_top_lt hw)
  | @close i line levels hline hskip hw =>
    rw [Option.toList_none, map_nil_append]
    simp only [State.rest, hline, Option.getD_some]
    rw [if_neg (by omega)]
  | @dedent i line levels hline hw =>
    have hskip := hs.fits.2.2 line hline
    have hmove := Levels.move?_of_lt_top hw
    simp only [State.rest, hline, Option.getD_some]
    rw [if_neg (by omega)]
    by_cases hlt : Levels.top levels.pop < Text.margin line
    · rw [if_pos hlt] at hmove ⊢
      exact rest_misfit hline hskip hmove
    · rw [if_neg hlt] at hmove ⊢
      cases hpop : Levels.move? levels.pop (Text.margin line) with
      | none =>
        rw [hpop] at hmove
        rw [rest_misfit hline hskip hpop, rest_misfit hline hskip hmove]
        rfl
      | some moved =>
        rw [hpop] at hmove
        rw [rest_settled hline hskip hpop, rest_settled hline hskip hmove, map_append_append]
        rfl
  | @settle i line levels hline htop =>
    have hmove := Levels.move?_of_top_eq htop
    rw [Option.toList_none, map_nil_append]
    show (if levels.top < Text.margin (lines[i]?.getD []) then _ else _) = _
    rw [hline, Option.getD_some, if_neg (by omega),
      rest_settled hline (hs.fits.2.2 line hline) hmove]
    exact map_nil_append _
  | @scan i line levels rest hline hscan =>
    rw [Option.toList_none, map_nil_append]
    simp only [State.rest, hline, Option.getD_some, hscan]
    rfl
  | emit =>
    simp only [State.rest, andLater]
    rw [map_append_append]
    rfl
  | endLine => rfl
  | endLines =>
    rw [Option.toList_none, map_nil_append]
    simp only [State.rest, List.drop_length]
    rfl
  | @unwind levels hsize =>
    have hpop := Levels.size_pop (Nat.lt_trans Nat.zero_lt_one hsize)
    obtain ⟨n, hn⟩ : ∃ n, levels.pop.size = n + 1 := ⟨levels.pop.size - 1, by omega⟩
    simp only [State.rest]
    rw [← hpop, hn, Nat.add_sub_cancel, Nat.add_sub_cancel, List.replicate_succ]
    rfl
  | eof hsize =>
    simp only [State.rest]
    rw [show _ - 1 = 0 by omega]
    rfl

theorem Reaches.rest (h : Reaches source lines ts s) :
    Token.ofLines source 1 .initial lines = (s.rest source lines).map (ts ++ ·) := by
  induction h with
  | initial => exact (map_nil_append _).symm
  | step hr hstep ih => rw [ih, hstep.rest hr.sound, map_append_append]

/-! ### The run goes on to the end or to a fault -/

/-- How a run that has emitted `ts` ends, and what it gives from there: the end of the text, a line
that meets no level, or a line whose text holds something that is no token. -/
inductive Ends (source : String) (lines : List (List Char)) (ts : List Token) :
    Except LexError (List Token) → Prop
  | done {us levels} : Reaches source lines (ts ++ us) ⟨.done, levels⟩ →
  Ends source lines ts (.ok us)
  | misfit {i us line levels} : Reaches source lines us ⟨.atLine i, levels⟩ →
  lines[i]? = some line →
    isSkipped line = false → levels.move? (Text.margin line) = none →
    Ends source lines ts (.error (misfit source i line))
  | scan {i line e} : Token.ofChars source (i + 1) 1 0 (Text.dropReturn line) = .error e →
    Ends source lines ts (.error e)

section Progress

variable {i : Nat} {line : List Char} {levels levels' : Levels} {layout : List Lexeme}
  {us : List Token}

theorem Reaches.silent (h : Reaches source lines ts s) (hstep : Step source lines s none s') :
    Reaches source lines ts s' := by
  have := h.step hstep
  rwa [Option.toList_none, List.append_nil] at this

theorem Reaches.closed (h : Reaches source lines ts ⟨.closing i, levels⟩)
    (hline : lines[i]? = some line) (hw : Text.margin line ≤ levels.top)
    (hm : levels.move? (Text.margin line) = some (layout, levels')) :
    Reaches source lines (ts ++ layout.map (⟨·, layoutSpan source i line⟩))
      ⟨.settled i, levels'⟩ := by
  obtain ⟨es⟩ := levels
  -- One level closes at a time.
  induction es generalizing ts layout with
  | nil =>
    have heq : Levels.top ⟨[]⟩ = Text.margin line := (Nat.le_zero.1 hw).symm
    rw [Levels.move?_of_top_eq heq] at hm
    cases hm
    rw [List.map_nil, List.append_nil]
    exact h.silent (.settle hline heq)
  | cons e es ih =>
    rcases Nat.lt_or_eq_of_le hw with hlt | heq
    · rw [Levels.move?_of_lt_top hlt] at hm
      split at hm
      · cases hm
      · next hnot =>
        obtain ⟨⟨layout', kept⟩, hpop, hkept⟩ := Option.map_eq_some_iff.1 hm
        cases hkept
        have := ih (h.step (.dedent hline hlt)) (Nat.le_of_not_lt hnot) hpop
        rwa [List.append_assoc] at this
    · rw [Levels.move?_of_top_eq heq.symm] at hm
      cases hm
      rw [List.map_nil, List.append_nil]
      exact h.silent (.settle hline heq.symm)

theorem Reaches.settled (h : Reaches source lines ts ⟨.atLine i, levels⟩)
    (hline : lines[i]? = some line) (hskip : isSkipped line = false)
    (hm : levels.move? (Text.margin line) = some (layout, levels')) :
    Reaches source lines (ts ++ layout.map (⟨·, layoutSpan source i line⟩))
      ⟨.settled i, levels'⟩ := by
  by_cases hw : levels.top < Text.margin line
  · rw [Levels.move?_of_top_lt hw] at hm
    cases hm
    exact h.step (.indent hline hskip hw)
  · have hw := Nat.le_of_not_lt hw
    exact (h.silent (.close hline hskip hw)).closed hline hw hm

theorem Reaches.emitted (h : Reaches source lines ts ⟨.inLine i us, levels⟩) :
    Reaches source lines (ts ++ us) ⟨.atLine (i + 1), levels⟩ := by
  induction us generalizing ts with
  | nil =>
    rw [List.append_nil]
    exact h.silent .endLine
  | cons t us ih =>
    have := ih (h.step .emit)
    rwa [List.append_assoc] at this

theorem Reaches.ended (h : Reaches source lines ts ⟨.atEnd, levels⟩) :
    ∃ levels', Reaches source lines
      (ts ++ (List.replicate (levels.size - 1) ⟨.dedent, endSpan source lines⟩ ++
        [⟨.eof, endSpan source lines⟩])) ⟨.done, levels'⟩ := by
  obtain ⟨n, hn⟩ : ∃ n, levels.size - 1 = n := ⟨_, rfl⟩
  rw [hn]
  induction n generalizing ts levels with
  | zero => exact ⟨levels, h.step (.eof (by omega))⟩
  | succ n ih =>
    have hpop := Levels.size_pop (show 0 < levels.size by omega)
    obtain ⟨levels', hdone⟩ := ih (h.step (.unwind (by omega))) (by omega)
    refine ⟨levels', ?_⟩
    rwa [List.append_assoc] at hdone

theorem Ends.after {r : Except LexError (List Token)} (h : Ends source lines (ts ++ us) r) :
    Ends source lines ts (r.map (us ++ ·)) := by
  cases h with
  | done hr =>
    rw [List.append_assoc] at hr
    exact .done hr
  | misfit hr hline hskip hm => exact .misfit hr hline hskip hm
  | scan he => exact .scan he

theorem Reaches.ends (h : Reaches source lines ts ⟨.atLine i, levels⟩) (hi : i ≤ lines.length) :
    Ends source lines ts (Token.ofLines source (i + 1) levels (lines.drop i)) := by
  obtain ⟨n, hn⟩ : ∃ n, lines.length - i = n := ⟨_, rfl⟩
  induction n generalizing i ts levels with
  | zero =>
    obtain rfl : i = lines.length := by omega
    obtain ⟨levels', hdone⟩ := (h.silent .endLines).ended
    rw [List.drop_length]
    exact .done hdone
  | succ n ih =>
    obtain ⟨line, hline⟩ : ∃ line, lines[i]? = some line := ⟨_, List.getElem?_eq_getElem (by omega)⟩
    have hnext {us : List Token} {levels' : Levels}
        (hof : Token.ofLine source (i + 1) levels line = .ok (us, levels'))
        (hr : Reaches source lines (ts ++ us) ⟨.atLine (i + 1), levels'⟩) :
        Ends source lines ts (Token.ofLines source (i + 1) levels (lines.drop i)) := by
      rw [drop_of_getElem? hline, Token.ofLines_cons hof]
      exact (ih hr (by omega) (by omega)).after
    cases hskip : isSkipped line with
    | true => exact hnext (ofLine_skipped hskip) (h.step (.skip hline hskip))
    | false =>
      cases hm : levels.move? (Text.margin line) with
      | none =>
        rw [rest_misfit hline hskip hm]
        exact .misfit h hline hskip hm
      | some moved =>
        obtain ⟨layout, levels'⟩ := moved
        cases hscan : Token.ofChars source (i + 1) 1 0 (Text.dropReturn line) with
        | error e =>
          rw [rest_settled hline hskip hm]
          simp only [State.rest, hline, Option.getD_some, hscan]
          exact .scan hscan
        | ok us =>
          have hr := ((h.settled hline hskip hm).silent (.scan hline hscan)).emitted
          rw [List.append_assoc] at hr
          exact hnext (by rw [ofLine_settled hskip hm, hscan]; rfl) hr

end Progress

/-- Every step emits one token at most, so no prefix is left out. -/
theorem Reaches.of_prefix {us : List Token} (h : Reaches source lines ts s) (hp : us <+: ts) :
    ∃ s', Reaches source lines us s' := by
  induction h with
  | initial =>
    rw [List.prefix_nil.1 hp]
    exact ⟨_, .initial⟩
  | @step ts s o s' hr hstep ih =>
    cases o with
    | none =>
      rw [Option.toList_none, List.append_nil] at hp
      exact ih hp
    | some t =>
      rw [Option.toList_some, List.prefix_concat_iff] at hp
      rcases hp with rfl | hp
      · exact ⟨s', hr.step hstep⟩
      · exact ih hp

theorem ofChars_cause {number column covered width : Nat} {cs : List Char} {e : LexError}
    (h : Token.ofChars source number column covered cs = .error e) :
    e.cause ≠ .indentation width := by
  fun_induction Token.ofChars source number column covered cs with
  | case1 column covered => cases h
  | case2 column covered c cs ih => exact ih h
  | case3 column c cs hb ih => exact ih h
  | case4 column c cs hb cause hs =>
    cases h
    rintro rfl
    unfold Lexeme.scan at hs
    repeat' split at hs
    all_goals cases hs
  | case5 column c cs hb lexeme width hs e' he ih =>
    cases h
    exact ih he
  | case6 column c cs hb lexeme width hs rest hr ih => cases h

/-- Every dedent closes an indent and every indent is closed, each line has its newline token, and
eof is last. -/
structure Balanced (code : List Char) (tokens : List Token) : Prop where
  prefixes : ∀ ts, ts <+: tokens → dedents ts ≤ indents ts
  closed : indents tokens = dedents tokens
  lines : newlines tokens = (Text.lines code).length
  eof : ∃ ts last, tokens = ts ++ [last] ∧ last.lexeme = .eof ∧ ∀ t ∈ ts, t.lexeme ≠ .eof

theorem Reaches.balanced {code : List Char} {levels : Levels}
    (h : Reaches source (Text.lines code) ts ⟨.done, levels⟩) : Balanced code ts := by
  obtain ⟨hnewlines, hsize, heof⟩ := h.sound.fits
  have hbalance := h.sound.balance
  dsimp only at hsize hbalance
  refine ⟨?_, by omega, hnewlines, heof⟩
  intro us hus
  obtain ⟨s', hs'⟩ := h.of_prefix hus
  have := hs'.sound.balance
  omega

theorem Reaches.isPrefix {code : List Char} {tokens : List Token}
    (h : Reaches source (Text.lines code) ts s) (hok : Token.ofText source code = .ok tokens) :
    ts <+: tokens := by
  have hrest := h.rest
  rw [show Token.ofLines source 1 .initial (Text.lines code) = .ok tokens from hok] at hrest
  cases hr : s.rest source (Text.lines code) with
  | error e =>
    rw [hr] at hrest
    cases hrest
  | ok us =>
    rw [hr] at hrest
    cases hrest
    exact List.prefix_append ts us

/-- The layout of a text. If the text has tokens they are balanced, and the run goes through all
their prefixes; in every state of a run the levels rise from the margin, one for each indent that is
open, and the top is the width of the line that was read last; and a line is refused for its width
exactly if that is below the top and no level. -/
theorem ofText_layout (source : String) (code : List Char) :
    (∀ tokens, Token.ofText source code = .ok tokens → Balanced code tokens ∧
      ∀ ts, ts <+: tokens ↔ ∃ s, Reaches source (Text.lines code) ts s) ∧
    (∀ ts s, Reaches source (Text.lines code) ts s → s.levels.Rising ∧
      indents ts = dedents ts + (s.levels.size - 1) ∧
      ∀ i line, s.phase = .atLine (i + 1) → (Text.lines code)[i]? = some line →
        isSkipped line = false → s.levels.top = Text.margin line) ∧
    ∀ e, (Token.ofText source code = .error e ∧ ∃ width, e.cause = .indentation width) ↔
      ∃ i line ts levels, Reaches source (Text.lines code) ts ⟨.atLine i, levels⟩ ∧
        (Text.lines code)[i]? = some line ∧ isSkipped line = false ∧
        Text.margin line < levels.top ∧ Text.margin line ∉ levels.toList ∧
        e = misfit source i line := by
  have hends : Ends source (Text.lines code) [] (Token.ofText source code) :=
    Reaches.initial.ends (Nat.zero_le _)
  refine ⟨?_, ?_, ?_⟩
  · intro tokens hok
    rw [hok] at hends
    cases hends with
    | done hdone =>
      refine ⟨hdone.balanced, fun ts => ⟨hdone.of_prefix, ?_⟩⟩
      rintro ⟨s, hs⟩
      exact hs.isPrefix hok
  · intro ts s hs
    refine ⟨hs.sound.rising, hs.sound.balance, ?_⟩
    intro i line hphase hline hskip
    have hfits := hs.sound.fits
    rw [hphase] at hfits
    exact hfits.2.2 i line rfl hline hskip
  · intro e
    constructor
    · rintro ⟨herr, width, hcause⟩
      rw [herr] at hends
      cases hends with
      | @misfit i ts line levels hr hline hskip hm =>
        obtain ⟨hw, hmem⟩ := hr.sound.rising.move?_eq_none_iff.1 hm
        exact ⟨i, line, ts, levels, hr, hline, hskip, hw, hmem, rfl⟩
      | scan he => exact absurd hcause (ofChars_cause he)
    · rintro ⟨i, line, ts, levels, hr, hline, hskip, hw, hmem, rfl⟩
      have hm := hr.sound.rising.move?_eq_none_iff.2 ⟨hw, hmem⟩
      have hrest : State.rest source (Text.lines code) ⟨.atLine i, levels⟩ =
          .error (misfit source i line) := rest_misfit hline hskip hm
      exact ⟨hr.rest.trans (by rw [hrest]; rfl), _, rfl⟩

/-- Two levels close at once, a comment and a blank line change nothing, and a level is open at the
end. -/
def steppedText : List Char := "a\n  b\n    c\n   # d\n\n  \t e\r\nf\n\tg".toList

/-- The last line closes a level and meets none. -/
def misfitText : List Char := "a\n    b\n  c".toList

/-- Why a text has no tokens. -/
def fault? : Except LexError (List Token) → Option LexError
  | .ok _ => none
  | .error e => some e

theorem eq_error_of_fault? {r : Except LexError (List Token)} {e : LexError}
    (h : fault? r = some e) : r = .error e := by
  cases r with
  | ok tokens => cases h
  | error e =>
    cases h
    rfl

theorem ofText_layout_stepped :
    (∃ tokens, Token.ofText "m" steppedText = .ok tokens ∧ Balanced steppedText tokens ∧
      ∀ ts, ts <+: tokens ↔ ∃ s, Reaches "m" (Text.lines steppedText) ts s) ∧
    ∃ i line ts levels, Reaches "m" (Text.lines misfitText) ts ⟨.atLine i, levels⟩ ∧
      (Text.lines misfitText)[i]? = some line ∧ isSkipped line = false ∧
      Text.margin line < levels.top ∧ Text.margin line ∉ levels.toList ∧
      misfit "m" 2 "  c".toList = misfit "m" i line := by
  constructor
  · have hok : (Token.ofText "m" steppedText).isOk = true := by decide +kernel
    cases h : Token.ofText "m" steppedText with
    | error e =>
      rw [h] at hok
      cases hok
    | ok tokens => exact ⟨tokens, rfl, (ofText_layout "m" steppedText).1 tokens h⟩
  · have herr : Token.ofText "m" misfitText = .error (misfit "m" 2 "  c".toList) :=
      eq_error_of_fault? (by decide +kernel)
    exact ((ofText_layout "m" misfitText).2.2 _).1 ⟨herr, _, rfl⟩

end LayoutRun

end LayoutScript

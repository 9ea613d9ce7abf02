import LayoutScript.Proofs.Spelling

/-! The tokens of a text, line by line. The tokens of a line take pieces of it that do not overlap
and leave only blanks. -/
namespace LayoutScript

namespace Text

theorem not_mem_of_mem_split {divider : Char} {cs part : List Char}
    (h : part ∈ split divider cs) : divider ∉ part := by
  induction cs generalizing part with
  | nil =>
    rw [split, List.mem_singleton] at h
    rw [h]
    exact List.not_mem_nil
  | cons c cs ih =>
    unfold split at h
    split at h
    · rcases List.mem_cons.1 h with rfl | h
      · exact List.not_mem_nil
      · exact ih h
    · next hc =>
      split at h
      · next hs => exact absurd hs (split_ne_nil divider cs)
      · next first rest hs =>
        rcases List.mem_cons.1 h with rfl | h
        · rw [List.mem_cons, not_or]
          exact ⟨Ne.symm hc, ih (by rw [hs]; exact List.mem_cons_self)⟩
        · exact ih (by rw [hs]; exact List.mem_cons_of_mem _ h)

theorem not_mem_of_mem_lines {cs line : List Char} (h : line ∈ lines cs) : '\n' ∉ line :=
  not_mem_of_mem_split h

@[simp] theorem lines_feed (cs : List Char) : lines ('\n' :: cs) = [] :: lines cs := by
  simp [lines, split]

theorem lines_cons {c : Char} (h : c ≠ '\n') (cs : List Char) :
    ∃ first more, lines cs = first :: more ∧ lines (c :: cs) = (c :: first) :: more := by
  obtain ⟨first, more, hlines⟩ := List.exists_cons_of_ne_nil (lines_ne_nil cs)
  refine ⟨first, more, hlines, ?_⟩
  rw [lines] at hlines
  rw [lines, split, if_neg h, hlines]

theorem dropReturn_append (line : List Char) :
    ∃ tail, line = dropReturn line ++ tail ∧ ∀ c ∈ tail, isBlank c = true := by
  unfold dropReturn
  split
  · next h =>
    obtain ⟨cs, rfl⟩ := List.getLast?_eq_some_iff.1 h
    refine ⟨['\r'], by rw [List.dropLast_concat], fun c hc => ?_⟩
    rw [List.mem_singleton.1 hc]
    rfl
  · exact ⟨[], (List.append_nil line).symm, fun c hc => absurd hc List.not_mem_nil⟩

end Text

namespace Token

variable {source : String} {number column : Nat} {cs : List Char} {ts : List Token}

theorem Laid.append_blanks {tail : List Char} (h : Laid source number column cs ts)
    (htail : ∀ c ∈ tail, Text.isBlank c = true) : Laid source number column (cs ++ tail) ts := by
  induction h with
  | @done column =>
    induction tail generalizing column with
    | nil => exact .done
    | cons c tail ih =>
      exact .blank (htail c List.mem_cons_self)
        (ih (fun d hd => htail d (List.mem_cons_of_mem _ hd)))
  | blank hb _ ih => exact .blank hb ih
  | token hne hl hs _ ih =>
    rw [List.append_assoc]
    exact .token hne hl hs ih

/-! ### Columns -/

def first (t : Token) : Nat := t.span.columnStart.toNat

def last (t : Token) : Nat := t.span.columnEnd.toNat

/-- The characters of a line in the columns of a token. -/
def slice (line : List Char) (t : Token) : List Char :=
  (line.drop (t.first - 1)).take (t.last + 1 - t.first)

/-- The tokens `ts` of a line have columns of their own, where the line shows what they say, and the
rest of the line is blank. -/
structure Tiles (number : Nat) (chars : List Char) (ts : List Token) : Prop where
  lines : ∀ t ∈ ts, t.span.lineStart = .ofNat number ∧ t.span.lineEnd = .ofNat number
  columns : ∀ t ∈ ts, 1 ≤ t.first ∧ t.first ≤ t.last ∧ t.last ≤ chars.length
  increasing : ts.Pairwise fun t u => t.last < u.first
  spelled : ∀ t ∈ ts, t.lexeme.Spells (t.slice chars)
  blank : ∀ i c, chars[i]? = some c → (∀ t ∈ ts, ¬(t.first ≤ i + 1 ∧ i + 1 ≤ t.last)) →
    Text.isBlank c = true

theorem first_ofWidth {l : Lexeme} {first width : Nat} (h : first < UInt32.size) :
    (Token.mk l (.ofWidth source number first width)).first = first :=
  Nat.mod_eq_of_lt h

theorem last_ofWidth {l : Lexeme} {first width : Nat} (hpos : 0 < width)
    (h : first + width ≤ UInt32.size) :
    (Token.mk l (.ofWidth source number first width)).last = first + width - 1 := by
  have hlast : first + width - 1 < UInt32.size := by omega
  rw [Span.ofWidth_eq_onLine hpos h]
  exact Nat.mod_eq_of_lt hlast

namespace Laid

theorem lines (h : Laid source number column cs ts) :
    ∀ t ∈ ts, t.span.lineStart = .ofNat number ∧ t.span.lineEnd = .ofNat number := by
  induction h with
  | done => exact fun t ht => absurd ht List.not_mem_nil
  | blank _ _ ih => exact ih
  | token _ _ _ _ ih =>
    intro t ht
    rcases List.mem_cons.1 ht with rfl | ht
    · exact ⟨rfl, rfl⟩
    · exact ih t ht

theorem solid (h : Laid source number column cs ts) : ∀ t ∈ ts, t.lexeme.isSolid = true := by
  induction h with
  | done => exact fun t ht => absurd ht List.not_mem_nil
  | blank _ _ ih => exact ih
  | token _ hl _ _ ih =>
    intro t ht
    rcases List.mem_cons.1 ht with rfl | ht
    · exact hl
    · exact ih t ht

theorem columns (h : Laid source number column cs ts) (hw : column + cs.length ≤ UInt32.size) :
    ∀ t ∈ ts, column ≤ t.first ∧ t.first ≤ t.last ∧ t.last < column + cs.length := by
  induction h with
  | done => exact fun t ht => absurd ht List.not_mem_nil
  | blank _ _ ih =>
    intro t ht
    rw [List.length_cons] at hw ⊢
    have := ih (by omega) t ht
    omega
  | @token column text rest l ts hne _ _ _ ih =>
    rw [List.length_append] at hw ⊢
    have hpos := List.length_pos_iff.2 hne
    intro t ht
    rcases List.mem_cons.1 ht with rfl | ht
    · rw [first_ofWidth (by omega), last_ofWidth hpos (by omega)]
      omega
    · have := ih (by omega) t ht
      omega

theorem increasing (h : Laid source number column cs ts) (hw : column + cs.length ≤ UInt32.size) :
    ts.Pairwise fun t u => t.last < u.first := by
  induction h with
  | done => exact .nil
  | blank _ _ ih => exact ih (by rw [List.length_cons] at hw; omega)
  | @token column text rest l ts hne _ _ hrest ih =>
    rw [List.length_append] at hw
    have hpos := List.length_pos_iff.2 hne
    refine .cons (fun u hu => ?_) (ih (by omega))
    have := (hrest.columns (by omega) u hu).1
    rw [last_ofWidth hpos (by omega)]
    omega

theorem spelled (h : Laid source number column cs ts) (hw : column + cs.length ≤ UInt32.size) :
    ∀ t ∈ ts, t.lexeme.Spells ((cs.drop (t.first - column)).take (t.last + 1 - t.first)) := by
  induction h with
  | done => exact fun t ht => absurd ht List.not_mem_nil
  | @blank column c cs ts _ hrest ih =>
    intro t ht
    rw [List.length_cons] at hw
    have hcol := hrest.columns (by omega) t ht
    rw [show t.first - column = t.first - (column + 1) + 1 by omega, List.drop_succ_cons]
    exact ih (by omega) t ht
  | @token column text rest l ts hne _ hs hrest ih =>
    rw [List.length_append] at hw
    have hpos := List.length_pos_iff.2 hne
    intro t ht
    rcases List.mem_cons.1 ht with rfl | ht
    · rw [first_ofWidth (by omega), last_ofWidth hpos (by omega), Nat.sub_self, List.drop_zero,
        show column + text.length - 1 + 1 - column = text.length by omega, List.take_left]
      exact hs
    · have hcol := hrest.columns (by omega) t ht
      rw [show t.first - column = text.length + (t.first - (column + text.length)) by omega,
        List.drop_length_add_append]
      exact ih (by omega) t ht

theorem blanks (h : Laid source number column cs ts) (hw : column + cs.length ≤ UInt32.size)
    {i : Nat} {c : Char} (hi : cs[i]? = some c)
    (hout : ∀ t ∈ ts, ¬(t.first ≤ column + i ∧ column + i ≤ t.last)) : Text.isBlank c = true := by
  induction h generalizing i with
  | done => cases hi
  | @blank column b cs ts hb _ ih =>
    rw [List.length_cons] at hw
    cases i with
    | zero =>
      cases hi
      exact hb
    | succ i =>
      refine ih (by omega) hi ?_
      rwa [Nat.add_assoc, Nat.add_comm 1]
  | @token column text rest l ts hne _ _ hrest ih =>
    rw [List.length_append] at hw
    have hpos := List.length_pos_iff.2 hne
    -- A column of the first token is not outside it.
    have hpast : text.length ≤ i := by
      have := hout _ List.mem_cons_self
      rw [first_ofWidth (by omega), last_ofWidth hpos (by omega)] at this
      omega
    rw [List.getElem?_append_right hpast] at hi
    refine ih (by omega) hi fun t ht => ?_
    rw [Nat.add_assoc, Nat.add_sub_cancel' hpast]
    exact hout t (List.mem_cons_of_mem _ ht)

theorem tiles (h : Laid source number 1 cs ts) (hw : cs.length < UInt32.size) :
    Tiles number cs ts where
  lines := h.lines
  columns t ht := by
    have := h.columns (by omega) t ht
    omega
  increasing := h.increasing (by omega)
  spelled := h.spelled (by omega)
  blank i c hi hout := by
    refine h.blanks (by omega) hi fun t ht => ?_
    rw [Nat.add_comm 1 i]
    exact hout t ht

end Laid

/-! ### Lines -/

inductive OfLine (source : String) (number : Nat) (line : List Char) : List Token → Prop
  | skipped : isSkipped line = true →
    OfLine source number line [⟨.newline, .onLine source number 1 1⟩]
  | laid {layout ts last} : isSkipped line = false →
    (∀ t ∈ layout, t.lexeme = .indent ∨ t.lexeme = .dedent) → Laid source number 1 line ts →
    OfLine source number line (layout ++ ts ++ [⟨.newline, last⟩])

theorem ofLine_sound {levels levels' : Levels} {line : List Char} {tokens : List Token}
    (hn : '\n' ∉ line) (h : ofLine source number levels line = .ok (tokens, levels')) :
    OfLine source number line tokens := by
  rcases ofLine_cases h with ⟨hskip, rfl, _⟩ | ⟨hskip, layout, tokens, span, hm, hc, rfl⟩
  · exact .skipped hskip
  · obtain ⟨tail, hline, htail⟩ := Text.dropReturn_append line
    have hchars : '\n' ∉ Text.dropReturn line := by
      rw [hline] at hn
      exact fun hmem => hn (List.mem_append_left _ hmem)
    obtain ⟨ts, last, rfl, hts⟩ := ofChars_laid hchars (Nat.zero_le _) hc
    rw [← List.append_assoc]
    refine .laid hskip (fun t ht => ?_) (hline ▸ hts.append_blanks htail)
    obtain ⟨l, hl, rfl⟩ := List.mem_map.1 ht
    rcases move?_layout hm with rfl | ⟨n, rfl⟩
    · exact .inl (List.mem_singleton.1 hl)
    · exact .inr (List.mem_replicate.1 hl).2

theorem OfLine.spells {line : List Char} (h : OfLine source number line ts) :
    ∀ t ∈ ts, t.lexeme.isSolid = false ∨ ∃ text, text <:+: line ∧ t.lexeme.Spells text := by
  cases h with
  | skipped _ =>
    intro t ht
    rw [List.mem_singleton.1 ht]
    exact .inl rfl
  | laid _ hlayout hlaid =>
    intro t ht
    rcases List.mem_append.1 ht with ht | ht
    · rcases List.mem_append.1 ht with ht | ht
      · rcases hlayout t ht with h | h <;> rw [h] <;> exact .inl rfl
      · exact .inr (hlaid.spells t ht)
    · rw [List.mem_singleton.1 ht]
      exact .inl rfl

theorem OfLine.tiles {line : List Char} (h : OfLine source number line ts)
    (hskip : isSkipped line = false) (hw : line.length < UInt32.size) :
    Tiles number line (ts.filter fun t => t.lexeme.isSolid) := by
  cases h with
  | skipped h =>
    rw [hskip] at h
    cases h
  | @laid layout ts last _ hlayout hlaid =>
    have hlayoutFilter : layout.filter (fun t => t.lexeme.isSolid) = [] := by
      rw [List.filter_eq_nil_iff]
      intro t ht
      rcases hlayout t ht with h | h <;> rw [h] <;> decide
    have hfilter : ts.filter (fun t => t.lexeme.isSolid) = ts := List.filter_eq_self.2 hlaid.solid
    rw [List.filter_append, List.filter_append, hlayoutFilter, hfilter, List.nil_append,
      List.filter_cons_of_neg Bool.false_ne_true, List.filter_nil, List.append_nil]
    exact hlaid.tiles hw

theorem ofLines_groups {levels : Levels} {lines : List (List Char)} {tokens : List Token}
    (hn : ∀ line ∈ lines, '\n' ∉ line) (h : ofLines source number levels lines = .ok tokens) :
    ∃ (groups : List (List Token)) (n : Nat) (last : Span),
      tokens = groups.flatten ++ List.replicate n ⟨.dedent, last⟩ ++ [⟨.eof, last⟩] ∧
      groups.length = lines.length ∧
      ∀ i line, lines[i]? = some line →
        ∃ group, groups[i]? = some group ∧ OfLine source (number + i) line group := by
  induction lines generalizing number levels tokens with
  | nil =>
    cases h
    exact ⟨[], _, _, rfl, rfl, fun i line hi => by cases hi⟩
  | cons line lines ih =>
    cases hline : ofLine source number levels line with
    | error e => simp only [ofLines, hline, reduceCtorEq] at h
    | ok r =>
      obtain ⟨ts, levels'⟩ := r
      rw [ofLines_cons hline] at h
      cases hrest : ofLines source (number + 1) levels' lines with
      | error e => simp only [hrest, Except.map, reduceCtorEq] at h
      | ok rest =>
        rw [hrest] at h
        cases h
        obtain ⟨groups, n, last, rfl, hlength, hgroups⟩ :=
          ih (fun line hmem => hn line (List.mem_cons_of_mem _ hmem)) hrest
        refine ⟨ts :: groups, n, last, by simp, by simp [hlength], fun i line' hi => ?_⟩
        cases i with
        | zero =>
          cases hi
          exact ⟨ts, rfl, ofLine_sound (hn line List.mem_cons_self) hline⟩
        | succ i =>
          obtain ⟨group, hgroup, hof⟩ := hgroups i line' hi
          exact ⟨group, hgroup, by rwa [Nat.add_right_comm] at hof⟩

theorem ofText_spells {code : List Char} {tokens : List Token}
    (h : ofText source code = .ok tokens) :
    ∀ t ∈ tokens, t.lexeme.isSolid = false ∨ ∃ text, '\n' ∉ text ∧ t.lexeme.Spells text := by
  obtain ⟨groups, n, last, rfl, hlength, hgroups⟩ :=
    ofLines_groups (fun _ => Text.not_mem_of_mem_lines) h
  intro t ht
  rcases List.mem_append.1 ht with ht | ht
  · rcases List.mem_append.1 ht with ht | ht
    · obtain ⟨group, hgroup, ht⟩ := List.mem_flatten.1 ht
      obtain ⟨i, hi⟩ := List.mem_iff_getElem?.1 hgroup
      have hbound : i < (Text.lines code).length := by
        rw [← hlength]
        exact (List.getElem?_eq_some_iff.1 hi).1
      obtain ⟨group', hi', hof⟩ := hgroups i _ (List.getElem?_eq_getElem hbound)
      rw [hi] at hi'
      cases hi'
      rcases hof.spells t ht with hlayout | ⟨text, hin, hs⟩
      · exact .inl hlayout
      · have hline := Text.not_mem_of_mem_lines (List.getElem_mem hbound)
        exact .inr ⟨text, fun hfeed => hline (hin.subset hfeed), hs⟩
    · rw [(List.mem_replicate.1 ht).2]
      exact .inl rfl
  · rw [List.mem_singleton.1 ht]
    exact .inl rfl

theorem ofText_wellFormed {code : List Char} {tokens : List Token}
    (h : ofText source code = .ok tokens) : ∀ t ∈ tokens, t.lexeme.WellFormed := by
  intro t ht
  rcases ofText_spells h t ht with hlayout | ⟨_, _, hs⟩
  · generalize t.lexeme = l at hlayout
    cases l <;> trivial
  · exact hs.wellFormed

/-- The tokens of a text in groups, one for each line, and the tokens that close what is open at the
end. A line that is skipped has a newline token only; the solid tokens of any other line tile it. -/
structure ByLine (source : String) (code : List Char) (tokens : List Token)
    (groups : List (List Token)) : Prop where
  flatten : ∃ (n : Nat) (last : Span),
    tokens = groups.flatten ++ List.replicate n ⟨.dedent, last⟩ ++ [⟨.eof, last⟩]
  length : groups.length = (Text.lines code).length
  skipped : ∀ (i : Nat) line group, (Text.lines code)[i]? = some line → groups[i]? = some group →
    isSkipped line = true → group = [Token.mk .newline (.onLine source (i + 1) 1 1)]
  tiles : ∀ (i : Nat) line group, (Text.lines code)[i]? = some line → groups[i]? = some group →
    isSkipped line = false → line.length < UInt32.size - 1 →
    Tiles (i + 1) line (group.filter fun t => t.lexeme.isSolid)

theorem ofText_byLine {code : List Char} {tokens : List Token}
    (h : ofText source code = .ok tokens) : ∃ groups, ByLine source code tokens groups := by
  obtain ⟨groups, n, last, htokens, hlength, hgroups⟩ :=
    ofLines_groups (fun _ => Text.not_mem_of_mem_lines) h
  have hof {i : Nat} {line : List Char} {group : List Token}
      (hi : (Text.lines code)[i]? = some line)
      (hg : groups[i]? = some group) : OfLine source (i + 1) line group := by
    obtain ⟨group', hgroup, hof⟩ := hgroups i line hi
    rw [hg] at hgroup
    cases hgroup
    rwa [Nat.add_comm] at hof
  refine ⟨groups, ⟨n, last, htokens⟩, hlength, fun i line group hi hg hskip => ?_,
    fun i line group hi hg hskip hw => (hof hi hg).tiles hskip (by omega)⟩
  cases hof hi hg with
  | skipped _ => rfl
  | laid h _ _ =>
    rw [hskip] at h
    cases h

/-- Signs of two characters, a fraction, an interpolation with blanks inside, a carriage return and
a character that is not ASCII. -/
def mixedLines : List Char := "x==1.5 \x7b\x7b y \x7d\x7d\r\n  # note\n  @a <= \"é\"".toList

theorem ofText_byLine_mixedLines : ∃ tokens, ofText "m" mixedLines = .ok tokens ∧
    ∃ groups, ByLine "m" mixedLines tokens groups := by
  have hok : (ofText "m" mixedLines).isOk = true := by decide +kernel
  cases h : ofText "m" mixedLines with
  | error e =>
    rw [h] at hok
    cases hok
  | ok tokens => exact ⟨tokens, rfl, ofText_byLine h⟩

end Token

end LayoutScript

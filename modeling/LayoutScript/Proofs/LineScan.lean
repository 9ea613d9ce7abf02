import LayoutScript.Proofs.Concatenation
import LayoutScript.Proofs.LineHeads
import LayoutScript.Proofs.Relayout

/-! The tokens of a run of lines. Lines that are not above some levels leave these open, a walk over
the tokens counts the levels above them, and the same lines further down have the same tokens but
for their spans. -/
namespace LayoutScript

/-! ### Levels below -/

namespace Levels

variable {base levels levels' : Levels} {width : Nat} {layout : List Lexeme}

theorem move?_top (h : levels.move? width = some (layout, levels')) : levels'.top = width := by
  unfold move? at h
  split at h
  · cases h
    rfl
  · dsimp only at h
    split at h <;> cases h
    assumption

theorem move?_size (h : levels.move? width = some (layout, levels')) :
    (layout = [.indent] ∧ levels'.size = levels.size + 1) ∨
      ∃ n, layout = .replicate n .dedent ∧ levels'.size + n = levels.size := by
  unfold move? at h
  split at h
  · cases h
    exact .inl ⟨rfl, rfl⟩
  · dsimp only at h
    split at h <;> cases h
    refine .inr ⟨_, rfl, ?_⟩
    have hlength : (levels.elements.dropWhile (width < ·)).length ≤ levels.elements.length :=
      (List.dropWhile_suffix _).length_le
    show (levels.elements.dropWhile (width < ·)).length + (levels.elements.length -
      (levels.elements.dropWhile (width < ·)).length) = levels.elements.length
    omega

theorem Rising.move? (hl : levels.Rising) (h : levels.move? width = some (layout, levels')) :
    levels'.Rising := by
  obtain ⟨es⟩ := levels
  by_cases hlt : top ⟨es⟩ < width
  · rw [move?_of_top_lt hlt] at h
    cases h
    exact hl.push hlt
  · rw [move?_of_not_lt hlt] at h
    split at h <;> cases h
    obtain ⟨hlast, hdesc⟩ := rising_iff.1 hl
    apply rising_iff.2
    constructor
    · exact getLast?_dropWhile hlast (by simp)
    · exact hdesc.sublist (List.dropWhile_suffix _).sublist

/-- The levels of `base` are open, maybe with others above them. -/
def Over (base levels : Levels) : Prop := base.elements <:+ levels.elements

theorem Over.size_le (h : base.Over levels) : base.size ≤ levels.size := h.length_le

theorem Rising.over_initial (h : levels.Rising) : initial.Over levels := by
  obtain ⟨es⟩ := levels
  obtain ⟨hlast, _⟩ := rising_iff.1 h
  obtain ⟨ds, rfl⟩ := List.getLast?_eq_some_iff.1 hlast
  exact List.suffix_append ds [0]

theorem Over.move? (h : base.Over levels) (hw : base.top ≤ width)
    (hm : levels.move? width = some (layout, levels')) : base.Over levels' := by
  obtain ⟨es⟩ := levels
  by_cases hlt : top ⟨es⟩ < width
  · rw [move?_of_top_lt hlt] at hm
    cases hm
    exact List.IsSuffix.trans h (List.suffix_cons width es)
  · rw [move?_of_not_lt hlt] at hm
    split at hm <;> cases hm
    -- No level of `base` closes, since none is above its top.
    obtain ⟨ds, rfl⟩ := h
    have hkept : base.elements.dropWhile (width < ·) = base.elements := by
      obtain ⟨bs⟩ := base
      cases bs with
      | nil => rfl
      | cons b bs =>
        have hb : b ≤ width := hw
        exact List.dropWhile_cons_of_neg (by simp only [decide_eq_true_eq]; omega)
    show base.elements <:+ (ds ++ base.elements).dropWhile (width < ·)
    rw [List.dropWhile_append]
    split
    · simp [hkept]
    · exact List.suffix_append _ _

theorem Over.eq_of_top (h : base.Over levels) (hb : base.Rising) (hl : levels.Rising)
    (htop : levels.top = base.top) : levels = base := by
  obtain ⟨es⟩ := levels
  obtain ⟨bs⟩ := base
  obtain ⟨ds, rfl⟩ : ∃ ds, ds ++ bs = es := h
  cases ds with
  | nil => rfl
  | cons d ds =>
    cases bs with
    | nil => cases hb.bottom
    | cons b bs =>
      have hlt : b < d := (List.pairwise_cons.1 (rising_iff.1 hl).2).1 b (by simp)
      have hd : d = b := htop
      omega

theorem Over.size_lt_of_top (h : base.Over levels) (htop : base.top < levels.top) :
    base.size < levels.size := by
  obtain ⟨es⟩ := levels
  obtain ⟨ds, rfl⟩ : ∃ ds, ds ++ base.elements = es := h
  cases ds with
  | nil => exact absurd htop (Nat.lt_irrefl _)
  | cons d ds =>
    show base.elements.length < (d :: ds ++ base.elements).length
    simp only [List.length_append, List.length_cons]
    omega

theorem Over.top_le (h : base.Over levels) (hb : base.Rising) (hl : levels.Rising) :
    base.top ≤ levels.top := by
  obtain ⟨es⟩ := levels
  obtain ⟨bs⟩ := base
  obtain ⟨ds, rfl⟩ : ∃ ds, ds ++ bs = es := h
  cases ds with
  | nil => exact Nat.le_refl _
  | cons d ds =>
    cases bs with
    | nil => cases hb.bottom
    | cons b bs => exact Nat.le_of_lt ((List.pairwise_cons.1 (rising_iff.1 hl).2).1 b (by simp))

theorem move?_cases (h : levels.move? width = some (layout, levels')) :
    (levels.top < width ∧ layout = [.indent] ∧ levels' = levels.push width) ∨
      levels'.elements <:+ levels.elements := by
  obtain ⟨es⟩ := levels
  by_cases hlt : top ⟨es⟩ < width
  · rw [move?_of_top_lt hlt] at h
    cases h
    exact .inl ⟨hlt, rfl, rfl⟩
  · rw [move?_of_not_lt hlt] at h
    split at h <;> cases h
    exact .inr (List.dropWhile_suffix _)

theorem Over.size_move?_le (h : base.Over levels) (hb : base.Rising) (hl : levels.Rising)
    (hw : width ≤ base.top) (hm : levels.move? width = some (layout, levels')) :
    levels'.size ≤ base.size := by
  rcases move?_cases hm with ⟨hlt, _, _⟩ | hkept
  · have := h.top_le hb hl
    omega
  · rcases List.suffix_or_suffix_of_suffix h hkept with hover | hunder
    · have htop := Over.top_le hover hb (hl.move? hm)
      rw [move?_top hm] at htop
      have hsame := Over.eq_of_top hover hb (hl.move? hm) (by rw [move?_top hm]; omega)
      exact Nat.le_of_eq (congrArg Stack.size hsame)
    · exact hunder.length_le

theorem Over.eq_of_size (h : base.Over levels) (hm : levels.move? width = some (layout, levels'))
    (hsize : levels'.size = base.size) : levels' = base := by
  rcases move?_cases hm with ⟨_, _, rfl⟩ | hkept
  · have hle := h.size_le
    have hmore : levels.size + 1 = base.size := hsize
    omega
  · rcases List.suffix_or_suffix_of_suffix h hkept with hover | hunder
    · exact congrArg Stack.mk (hover.eq_of_length hsize.symm).symm
    · exact congrArg Stack.mk (hunder.eq_of_length hsize)

theorem move?_nil (h : levels.move? width = some ([], levels')) :
    levels' = levels ∧ levels.top = width := by
  rcases move?_size h with ⟨hlayout, _⟩ | ⟨n, hlayout, hsize⟩
  · cases hlayout
  · have hn : n = 0 := by simpa using congrArg List.length hlayout.symm
    subst hn
    have hsame : levels' = levels := Over.eq_of_size (List.suffix_refl _) h hsize
    exact ⟨hsame, hsame ▸ move?_top h⟩

theorem eq_initial_of_size (h : levels.Rising) (hsize : levels.size = 1) : levels = initial :=
  congrArg Stack.mk (h.over_initial.eq_of_length hsize.symm).symm

end Levels

/-! ### The first word of a line -/

def Text.keyword? (line : List Char) : Option Keyword :=
  Keyword.ofText? (String.ofList (leadingName (trimLeft line)))

section Keywords

variable {source : String} {number : Nat} {line cs : List Char} {k : Keyword}

theorem Text.leadingName_dropReturn (cs : List Char) :
    leadingName (dropReturn cs) = leadingName cs := by
  obtain ⟨tail, hcs, htail⟩ := dropReturn_append cs
  generalize dropReturn cs = ds at hcs
  subst hcs
  have hword : ∀ c ∈ tail.head?, isWordChar c = false := by
    intro c hc
    cases hw : isWordChar c with
    | false => rfl
    | true =>
      have := htail c (List.mem_of_mem_head? hc)
      rw [isBlank_of_isWordChar hw] at this
      cases this
  cases ds with
  | nil =>
    cases tail with
    | nil => rfl
    | cons c tail =>
      have hc : isWordStart c = false := by
        have := hword c rfl
        rw [isWordChar, Bool.or_eq_false_iff] at this
        exact this.2
      simp [leadingName, hc]
  | cons d ds =>
    have htake : tail.takeWhile isWordChar = [] := by
      cases tail with
      | nil => rfl
      | cons c tail => exact List.takeWhile_cons_of_neg (by simp [hword c rfl])
    rw [List.cons_append, leadingName, leadingName, ← List.cons_append, List.takeWhile_append,
      htake, List.append_nil]
    split
    · split
      · next hlength =>
        rw [(List.takeWhile_prefix isWordChar).eq_of_length hlength]
      · rfl
    · rfl

theorem Lexeme.keyword_of_scan {c : Char} {width : Nat}
    (h : scan c cs = .ok (.keyword k, width)) :
    Keyword.ofText? (String.ofList (leadingName (c :: cs))) = some k := by
  unfold scan at h
  split at h
  · cases h
  · split at h
    · split at h
      · unfold ofString at h
        split at h <;> cases h
      · cases h
    · split at h
      · cases h
      · split at h
        · split at h <;> cases h
        · split at h
          · have hword := (Prod.mk.inj (Except.ok.inj h)).1
            unfold ofWord at hword
            dsimp only at hword
            split at hword
            · next hk =>
              cases hword
              exact hk
            · cases hword
          · split at h <;> cases h

theorem Lexeme.scan_leadingName {c : Char} (h : leadingName (c :: cs) ≠ []) :
    ∃ width, scan c cs = .ok (ofWord (leadingName (c :: cs)), width) := by
  have hc : isWordStart c = true := by
    cases hc : isWordStart c with
    | true => rfl
    | false => simp [leadingName, hc] at h
  have hword := isWord_leadingName h
  have hname : leadingName (c :: cs) = (c :: cs).takeWhile isWordChar := by
    rw [leadingName, if_pos hc]
  have hrest : ∀ d ∈ ((c :: cs).dropWhile isWordChar).head?, isWordChar d = false := by
    intro d hd
    have := List.head?_dropWhile_not isWordChar (c :: cs)
    rw [Option.mem_def.1 hd] at this
    simpa using this
  obtain ⟨d, ds, hds, hscan⟩ := scan_word hword hrest
  rw [String.toList_ofList] at hds
  have hall : c :: cs = d :: (ds ++ (c :: cs).dropWhile isWordChar) := by
    rw [← List.cons_append, ← hds, hname, List.takeWhile_append_dropWhile]
  obtain ⟨rfl, hcs⟩ := List.cons.inj hall
  rw [← hcs, ← hds] at hscan
  exact ⟨_, hscan⟩

theorem Text.leadingName_ne_nil (h : keyword? line = some k) :
    leadingName (trimLeft line) ≠ [] := by
  intro hnil
  rw [keyword?, hnil] at h
  cases h

theorem Text.not_isSkipped_of_keyword? (h : keyword? line = some k) : isSkipped line = false := by
  have hne := leadingName_ne_nil h
  unfold isSkipped
  split
  · next hnil =>
    rw [hnil] at hne
    exact absurd rfl hne
  · next c cs hcs =>
    rw [hcs, leadingName] at hne
    rw [beq_eq_false_iff_ne]
    rintro rfl
    exact hne rfl

theorem Text.exists_trimLeft (h : isSkipped line = false) :
    ∃ c cs, dropReturn (trimLeft line) = c :: cs ∧ isBlank c = false := by
  obtain ⟨tail, htrim, htail⟩ := dropReturn_append (trimLeft line)
  cases hline : trimLeft line with
  | nil =>
    rw [isSkipped, hline] at h
    cases h
  | cons c cs =>
    have hc : isBlank c = false := by
      have := List.head?_dropWhile_not isBlank line
      rw [show line.dropWhile isBlank = c :: cs from hline] at this
      simpa using this
    rw [hline] at htrim
    cases hdrop : dropReturn (c :: cs) with
    | nil =>
      rw [hdrop, List.nil_append] at htrim
      rw [htail c (by simp [← htrim])] at hc
      cases hc
    | cons d ds =>
      rw [hdrop] at htrim
      obtain ⟨rfl, _⟩ := List.cons.inj htrim
      exact ⟨c, ds, rfl, hc⟩

theorem Lexeme.scan_keyword_iff {c : Char} {lexeme : Lexeme} {width : Nat}
    (h : scan c cs = .ok (lexeme, width)) :
    lexeme = .keyword k ↔ Keyword.ofText? (String.ofList (leadingName (c :: cs))) = some k := by
  constructor
  · rintro rfl
    exact keyword_of_scan h
  · intro hk
    have hne : leadingName (c :: cs) ≠ [] := by
      intro hnil
      rw [hnil] at hk
      cases hk
    obtain ⟨_, hscan⟩ := scan_leadingName hne
    rw [h] at hscan
    cases hscan
    simp only [ofWord, hk]

end Keywords

/-! ### Walks over lines -/

section Walks

variable {m : Standing} {ts us : List Token} {newline : Token} {d : Nat}

theorem Walks.layout {levels levels' : Levels} {width : Nat} {layout : List Lexeme} (span : Span)
    (hm : levels.move? width = some (layout, levels')) {n : Nat} (hn : n ≤ levels.size) :
    Walks ⟨levels.size - n, true⟩ (layout.map (⟨·, span⟩)) [] ⟨levels'.size - n, true⟩ := by
  have hdedents (k d : Nat) :
      Walks ⟨d, true⟩ ((List.replicate k Lexeme.dedent).map (⟨·, span⟩)) [] ⟨d - k, true⟩ := by
    induction k generalizing d with
    | zero => exact .nil
    | succ k ih =>
      have hfirst : Walks ⟨d, true⟩ [⟨.dedent, span⟩] [] ⟨d - 1, true⟩ := .dedent rfl
      have hall := hfirst.trans (ih (d - 1))
      rwa [Nat.sub_sub, Nat.add_comm 1 k] at hall
  rcases Levels.move?_size hm with ⟨rfl, hsize⟩ | ⟨k, rfl, hsize⟩
  · have hopen : Walks ⟨levels.size - n, true⟩ [⟨.indent, span⟩] [] ⟨levels.size - n + 1, true⟩ :=
      .indent rfl
    rwa [show levels.size - n + 1 = levels'.size - n by omega] at hopen
  · have hclose := hdedents k (levels.size - n)
    rwa [show levels.size - n - k = levels'.size - n by omega] at hclose

theorem Walks.line (hs : Solid ts) (hn : newline.lexeme = .newline) :
    ∃ hs, Walks ⟨d, true⟩ (ts ++ [newline]) hs ⟨d, true⟩ ∧ (0 < d → hs = []) := by
  have hend : Hangs [newline] := fun d b => .newline hn
  cases d with
  | zero =>
    cases ts with
    | nil => exact ⟨[], .newline hn, fun _ => rfl⟩
    | cons t ts =>
      obtain ⟨ht, hts⟩ := List.forall_mem_cons.1 hs
      exact ⟨_, hend.head ht hts, fun h => absurd h (Nat.lt_irrefl 0)⟩
  | succ d => exact ⟨[], hend.deep hs d, fun _ => rfl⟩

theorem Tidy.append (ht : Tidy ts) (hu : Tidy us)
    (hend : ∀ vs t, ts = vs ++ [t] → t.lexeme.isSolid = false) : Tidy (ts ++ us) := by
  intro vs t u ws heq hsolid
  rcases List.append_eq_append_iff.1 heq with ⟨xs, rfl, hx⟩ | ⟨xs, rfl, hx⟩
  · exact hu xs t u ws hx hsolid
  · match xs with
    | [] => exact hu [] t u ws hx.symm hsolid
    | [x] =>
      -- The pair is split, but the last token before the place is no solid one.
      obtain ⟨rfl, _⟩ := List.cons.inj hx
      rw [hend vs t rfl] at hsolid
      cases hsolid
    | x :: y :: xs =>
      obtain ⟨rfl, hrest⟩ := List.cons.inj hx
      obtain ⟨rfl, _⟩ := List.cons.inj hrest
      exact ht vs t u xs rfl hsolid

theorem Newlines.tidy_append {ns : List Token} (hns : Newlines ns) (hu : Tidy us) :
    Tidy (ns ++ us) := by
  have hlayout : ∀ t ∈ ns, t.lexeme.isSolid = false := by
    intro t ht
    rw [hns t ht]
    rfl
  refine Tidy.append ?_ hu ?_
  · rintro vs t u ws rfl ht
    rw [hlayout t (by simp)] at ht
    cases ht
  · rintro vs t rfl
    exact hlayout t (by simp)

theorem Tidy.line {layout : List Token} (hl : ∀ t ∈ layout, t.lexeme.isSolid = false)
    (hs : Solid ts) (hn : newline.lexeme = .newline) : Tidy (layout ++ (ts ++ [newline])) := by
  have hne : ∀ u ∈ ts ++ [newline], u.lexeme ≠ .indent ∧ u.lexeme ≠ .dedent := by
    intro u hu
    rcases List.mem_append.1 hu with hu | hu
    · exact ⟨Lexeme.ne_of_isSolid (hs u hu) rfl, Lexeme.ne_of_isSolid (hs u hu) rfl⟩
    · rw [List.mem_singleton.1 hu, hn]
      simp
  intro vs t u ws heq hsolid
  rcases List.append_eq_append_iff.1 heq with ⟨xs, rfl, hx⟩ | ⟨xs, rfl, hx⟩
  · exact hne u (by simp [hx])
  · cases xs with
    | nil =>
      rw [List.nil_append] at hx
      exact hne u (by simp [← hx])
    | cons x xs =>
      obtain ⟨rfl, _⟩ := List.cons.inj hx
      have := hl t (by simp)
      rw [this] at hsolid
      cases hsolid

end Walks

namespace Token

variable {source : String} {number number' n : Nat} {base levels levels₁ levels' : Levels}
  {line : List Char} {lines lines' : List (List Char)} {tokens ts us : List Token}

/-- A line that is not skipped gives layout tokens, tokens of its text and a newline token. The
first token of the text tells whether the line starts with a keyword. -/
theorem ofLine_text (hskip : isSkipped line = false)
    (h : ofLine source number levels line = .ok (tokens, levels')) :
    ∃ layout span t text newline, tokens = layout.map (⟨·, span⟩) ++ (t :: text ++ [newline]) ∧
      levels.move? (Text.margin line) = some (layout, levels') ∧ Solid (t :: text) ∧
      newline.lexeme = .newline ∧ t.span.lineStart = .ofNat number ∧
      ∀ k, t.lexeme = .keyword k ↔ Text.keyword? line = some k := by
  rcases ofLine_cases h with ⟨hskip', _⟩ | ⟨_, layout, chars, span, hm, hc, rfl⟩
  · rw [hskip] at hskip'
    cases hskip'
  · have hmargin : ((Text.dropReturn line).takeWhile Text.isBlank).length = Text.margin line :=
      Text.margin_dropReturn hskip
    rw [hmargin] at hm
    obtain ⟨c, cs, hcs, hblank⟩ := Text.exists_trimLeft hskip
    obtain ⟨text, newline, htokens, hn, htext⟩ := ofChars_tokens hc
    rw [ofChars_trimmed hskip, hcs, ofChars, if_neg (by simp [hblank])] at hc
    cases hscan : Lexeme.scan c cs with
    | error cause => simp [hscan] at hc
    | ok r =>
      obtain ⟨lexeme, width⟩ := r
      rw [hscan] at hc
      dsimp only at hc
      split at hc <;> cases hc
      cases text with
      | nil =>
        obtain ⟨rfl, _⟩ := List.cons.inj htokens
        exact absurd hn (Lexeme.ne_of_isSolid (Lexeme.scan_isSolid hscan) rfl)
      | cons t text =>
        obtain ⟨rfl, rfl⟩ := List.cons.inj htokens
        refine ⟨layout, span, _, text, newline, rfl, hm, htext, hn, rfl, ?_⟩
        intro k
        rw [Text.keyword?, ← Text.leadingName_dropReturn, hcs]
        exact Lexeme.scan_keyword_iff hscan

theorem ofLine_newline (hskip : isSkipped line = true)
    (h : ofLine source number levels line = .ok (tokens, levels')) :
    Newlines tokens ∧ levels' = levels := by
  rcases ofLine_cases h with ⟨_, rfl, rfl⟩ | ⟨hskip', _⟩
  · exact ⟨by simp [Newlines], rfl⟩
  · rw [hskip] at hskip'
    cases hskip'

theorem ofLine_tidy (h : ofLine source number levels line = .ok (tokens, levels')) :
    Tidy tokens := by
  cases hskip : isSkipped line with
  | true =>
    obtain ⟨hns, _⟩ := ofLine_newline hskip h
    rw [← List.append_nil tokens]
    exact hns.tidy_append .nil
  | false =>
    obtain ⟨layout, span, t, text, newline, rfl, hm, hsolid, hn, _⟩ := ofLine_text hskip h
    apply Tidy.line _ hsolid hn
    intro t ht
    obtain ⟨l, hl, rfl⟩ := List.mem_map.1 ht
    exact (move?_solid hm l hl).1

theorem ofLine_walks (hover : base.Over levels)
    (hline : isSkipped line = true ∨ base.top ≤ Text.margin line)
    (h : ofLine source number levels line = .ok (ts, levels')) :
    base.Over levels' ∧ ∃ hs,
      Walks ⟨levels.size - base.size, true⟩ ts hs ⟨levels'.size - base.size, true⟩ ∧
        (isSkipped line = true ∨ base.top < Text.margin line → hs = []) := by
  cases hskip : isSkipped line with
  | true =>
    obtain ⟨hns, rfl⟩ := ofLine_newline hskip h
    exact ⟨hover, [], .newlines hns, fun _ => rfl⟩
  | false =>
    obtain ⟨layout, span, t, text, newline, rfl, hm, hsolid, hn, _⟩ := ofLine_text hskip h
    have hw : base.top ≤ Text.margin line := hline.resolve_left (by simp [hskip])
    have hover' := hover.move? hw hm
    obtain ⟨hs, hwalk, hnone⟩ :=
      @Walks.line (t :: text) newline (levels'.size - base.size) hsolid hn
    refine ⟨hover', hs, (Walks.layout span hm hover.size_le).trans hwalk, ?_⟩
    rintro (hskip | hlt)
    · cases hskip
    · apply hnone
      rw [← Levels.move?_top hm] at hlt
      have := hover'.size_lt_of_top hlt
      omega

namespace Scans

theorem append (h : Scans source number levels lines ts levels₁)
    (h' : Scans source (number + lines.length) levels₁ lines' us levels') :
    Scans source number levels (lines ++ lines') (ts ++ us) levels' := by
  induction h with
  | nil => exact h'
  | @cons number _ _ _ line lines ts vs hline _ ih =>
    rw [List.length_cons, Nat.add_comm lines.length, ← Nat.add_assoc] at h'
    rw [List.append_assoc]
    exact .cons hline (ih h')

theorem split (h : Scans source number levels (lines ++ lines') tokens levels') :
    ∃ ts us levels₁, tokens = ts ++ us ∧ Scans source number levels lines ts levels₁ ∧
      Scans source (number + lines.length) levels₁ lines' us levels' := by
  induction lines generalizing number levels tokens with
  | nil => exact ⟨[], tokens, levels, rfl, .nil, h⟩
  | cons line lines ih =>
    cases h with
    | @cons _ _ levels₁ _ _ _ ts us hline hrest =>
      obtain ⟨vs, ws, levels₂, rfl, hvs, hws⟩ := ih hrest
      rw [Nat.add_assoc, Nat.add_comm 1] at hws
      exact ⟨ts ++ vs, ws, levels₂, by rw [List.append_assoc], .cons hline hvs, hws⟩

theorem rising (h : Scans source number levels lines ts levels') (hl : levels.Rising) :
    levels'.Rising := by
  induction h with
  | nil => exact hl
  | @cons number levels levels₁ levels' line lines ts us hline _ ih =>
    apply ih
    cases hskip : isSkipped line with
    | true =>
      obtain ⟨_, rfl⟩ := ofLine_newline hskip hline
      exact hl
    | false =>
      obtain ⟨layout, _, _, _, _, _, hm, _⟩ := ofLine_text hskip hline
      exact hl.move? hm

theorem skipped (h : Scans source number levels lines ts levels')
    (hskip : ∀ line ∈ lines, isSkipped line = true) : Newlines ts ∧ levels' = levels := by
  induction h with
  | nil => exact ⟨.nil, rfl⟩
  | cons hline _ ih =>
    obtain ⟨hfirst, hrest⟩ := List.forall_mem_cons.1 hskip
    obtain ⟨hns, rfl⟩ := ofLine_newline hfirst hline
    obtain ⟨hms, rfl⟩ := ih hrest
    exact ⟨List.forall_mem_append.2 ⟨hns, hms⟩, rfl⟩

theorem skipped_at (h : Scans source number levels lines ts levels')
    (hskip : ∀ line ∈ lines, isSkipped line = true) (levels : Levels) :
    Scans source number levels lines ts levels := by
  induction h with
  | nil => exact .nil
  | cons hline _ ih =>
    obtain ⟨hfirst, hrest⟩ := List.forall_mem_cons.1 hskip
    rw [ofLine, if_pos hfirst] at hline
    cases hline
    apply Scans.cons _ (ih hrest)
    rw [ofLine, if_pos hfirst]

theorem tidy (h : Scans source number levels lines ts levels') : Tidy ts := by
  induction h with
  | nil => exact .nil
  | cons hline _ ih =>
    apply (ofLine_tidy hline).append ih
    rintro vs t rfl
    obtain ⟨⟨us, newline, hus, hn⟩, _⟩ := ofLine_tokens hline
    obtain ⟨_, rfl⟩ := List.append_inj' hus rfl |>.imp_right List.singleton_inj.1
    rw [hn]
    rfl

theorem walks (h : Scans source number levels lines ts levels') (hover : base.Over levels)
    (hlines : ∀ line ∈ lines, isSkipped line = true ∨ base.top ≤ Text.margin line) :
    base.Over levels' ∧ ∃ hs,
      Walks ⟨levels.size - base.size, true⟩ ts hs ⟨levels'.size - base.size, true⟩ ∧
        ((∀ line ∈ lines, isSkipped line = true ∨ base.top < Text.margin line) → hs = []) := by
  induction h with
  | nil => exact ⟨hover, [], .nil, fun _ => rfl⟩
  | cons hline _ ih =>
    obtain ⟨hfirst, hrest⟩ := List.forall_mem_cons.1 hlines
    obtain ⟨hover₁, hs, hwalk, hnone⟩ := ofLine_walks hover hfirst hline
    obtain ⟨hover', hs', hwalk', hnone'⟩ := ih hover₁ hrest
    refine ⟨hover', hs ++ hs', hwalk.append hwalk', ?_⟩
    intro hdeep
    obtain ⟨hfirst, hrest⟩ := List.forall_mem_cons.1 hdeep
    rw [hnone hfirst, hnone' hrest]
    rfl

end Scans

/-! ### Lines further down -/

/-- Numbers of lines that differ by `n`. They wrap, so this is no limit on where the lines stand. -/
theorem exists_shift (number number' : Nat) :
    ∃ n, UInt32.ofNat number' = .ofNat number + .ofNat n := by
  refine ⟨(UInt32.ofNat number' - .ofNat number).toNat, ?_⟩
  rw [UInt32.ofNat_toNat, UInt32.add_comm, UInt32.sub_add_cancel]

theorem mapSpan_shiftLines (hn : UInt32.ofNat number' = .ofNat number + .ofNat n) (t : Token) :
    (t.mapSpan (Span.shiftLines number)).mapSpan (Span.shiftLines n) =
      t.mapSpan (Span.shiftLines number') := by
  simp only [mapSpan, Span.shiftLines, hn, UInt32.add_assoc]

theorem ofLine_move (hn : UInt32.ofNat number' = .ofNat number + .ofNat n)
    (h : ofLine source number levels line = .ok (ts, levels')) :
    ofLine source number' levels line = .ok (ts.map (mapSpan (Span.shiftLines n)), levels') := by
  have hbase := @ofLine_shift source number 0 levels line
  have hmoved := @ofLine_shift source number' 0 levels line
  rw [Nat.zero_add] at hbase hmoved
  rw [h] at hbase
  cases hzero : ofLine source 0 levels line with
  | error e =>
    rw [hzero] at hbase
    cases hbase
  | ok r =>
    obtain ⟨us, levels₁⟩ := r
    rw [hzero] at hbase hmoved
    cases hbase
    rw [hmoved, List.map_map]
    have hcomp : mapSpan (Span.shiftLines n) ∘ mapSpan (Span.shiftLines number) =
        mapSpan (Span.shiftLines number') := by
      funext t
      exact mapSpan_shiftLines hn t
    rw [hcomp]
    rfl

theorem Scans.move (hn : UInt32.ofNat number' = .ofNat number + .ofNat n)
    (h : Scans source number levels lines ts levels') :
    Scans source number' levels lines (ts.map (mapSpan (Span.shiftLines n))) levels' := by
  induction h generalizing number' with
  | nil => exact .nil
  | cons hline _ ih =>
    rw [List.map_append]
    apply Scans.cons (ofLine_move hn hline)
    apply ih
    rw [UInt32.ofNat_add, UInt32.ofNat_add, hn, UInt32.add_assoc, UInt32.add_assoc,
      UInt32.add_comm (.ofNat n)]

theorem Scans.unique {us : List Token} {levels'' : Levels}
    (h : Scans source number levels lines ts levels')
    (h' : Scans source number levels lines us levels'') :
    us = ts := by
  induction h generalizing us with
  | nil =>
    cases h'
    rfl
  | cons hline _ ih =>
    cases h' with
    | cons hline' hrest =>
      rw [hline] at hline'
      cases hline'
      rw [ih hrest]

theorem Scans.length_eq {us : List Token} {levels'' : Levels}
    (h : Scans source number levels lines ts levels')
    (h' : Scans source number' levels lines us levels'') :
    us.length = ts.length := by
  obtain ⟨n, hn⟩ := exists_shift number number'
  rw [(h.move hn).unique h', List.length_map]

end Token

end LayoutScript

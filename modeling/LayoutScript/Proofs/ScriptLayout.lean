import LayoutScript.Proofs.ModuleFacts
import LayoutScript.Proofs.Relayout
import LayoutScript.Proofs.TemplateParts
import LayoutScript.Proofs.TemplateRewriting

/-! How little of its layout a text gives to its script. Blank lines and comments may stand
anywhere, and of the widths of indentation only their order counts. -/
namespace LayoutScript

/-- What compiling a text gives: its script, or which stage it fails in. -/
def outcome (options : Script.Options) (source : String) (code : List Char) :
    Except FaultKind String :=
  ((compile options source code).map Compiled.script).mapError Fault.kind

variable {options : Script.Options} {source : String} {code code' : List Char}

theorem outcome_of_error {e : Fault} (h : check source code = .error e) :
    outcome options source code = .error e.kind := by
  simp only [outcome, compile, h]
  rfl

theorem outcome_of_ok {p : Program} {script : String} (h : check source code = .ok p)
    (hp : p.generate options = .ok script) : outcome options source code = .ok script := by
  simp only [outcome, compile, h, hp]
  rfl

theorem exists_outcome (options : Script.Options) {p : Program} (h : check source code = .ok p) :
    ∃ script, p.generate options = .ok script ∧ outcome options source code = .ok script := by
  obtain ⟨script, hp⟩ := Program.generate_eq_ok (check_topLevel h) options
  exact ⟨script, hp, outcome_of_ok h hp⟩

/-! ### Texts with the same gist -/

theorem countP_gist (prev : Token) (ts : List Token) :
    (gist prev ts).countP (fun g => !(g.1 == .newline)) = ts.countP fun t =>
      !(t.lexeme == .newline) := by
  induction ts generalizing prev with
  | nil => rfl
  | cons t ts ih =>
    rw [gist]
    split
    · next h => simp [ih, h.2]
    · rw [List.countP_cons, List.countP_cons, ih]

theorem Token.length_ofText {ts : List Token} (h : ofText source code = .ok ts) (before : Token) :
    ts.length =
      (Text.lines code).length + (gist before ts).countP fun g => !(g.1 == .newline) := by
  have hparts := @List.length_eq_countP_add_countP _ (fun t : Token => t.lexeme == .newline) ts
  rw [countP_newline_ofText h] at hparts
  rw [hparts, countP_gist]
  exact congrArg (_ + ·) (List.countP_congr fun t _ => by simp)

/-- Of two texts with the same gist, the one with fewer lines has fewer tokens. -/
theorem Token.InReach.of_gist {before before' : Token} (hreach : InReach source code')
    (h : (ofText source code).toOption.map (gist before) =
      (ofText source code').toOption.map (gist before'))
    (hle : (Text.lines code).length ≤ (Text.lines code').length) : InReach source code := by
  intro ts hts
  cases hts' : ofText source code' with
  | error e =>
    rw [hts, hts'] at h
    cases h
  | ok ts' =>
    rw [hts, hts'] at h
    have hgist : gist before ts = gist before' ts' := Option.some.inj h
    refine Nat.le_trans ?_ (hreach ts' hts')
    rw [length_ofText hts before, length_ofText hts' before', hgist]
    exact Nat.add_le_add_right hle _

theorem Program.ofTokens_of_gist {ts ts' : List Token} {before before' : Token} {p : Program}
    (hended : ∃ us last, ts = us ++ [last] ∧ last.lexeme = .eof ∧ ∀ t ∈ us, t.lexeme ≠ .eof)
    (hended' : ∃ us last, ts' = us ++ [last] ∧ last.lexeme = .eof ∧ ∀ t ∈ us, t.lexeme ≠ .eof)
    (hbefore : before.lexeme = .newline) (hbefore' : before'.lexeme = .newline)
    (hgist : gist before ts = gist before' ts')
    (hsize : ts.length ≤ UInt32.size → ts'.length ≤ UInt32.size) (h : ofTokens ts = .ok p) :
    ∃ p', ofTokens ts' = .ok p' ∧ p.bare = p'.bare := by
  obtain ⟨us, last, rfl, hlast, heof⟩ := hended
  obtain ⟨us', last', rfl, hlast', heof'⟩ := hended'
  obtain ⟨hreach, hread⟩ := (ofTokens_eq_ok_iff hlast heof).1 h
  obtain ⟨p', hread', hbare⟩ := read_of_gist hlast hlast' hbefore hbefore' hgist hread
  exact ⟨p', (ofTokens_eq_ok_iff hlast' heof').2 ⟨hsize hreach, hread'⟩, hbare⟩

theorem outcome_of_gist {before before' : Token} (hbefore : before.lexeme = .newline)
    (hbefore' : before'.lexeme = .newline)
    (h : (Token.ofText source code).toOption.map (gist before) =
      (Token.ofText source code').toOption.map (gist before'))
    (hsize : Token.InReach source code ↔ Token.InReach source code') :
    outcome options source code' = outcome options source code := by
  cases hts : Token.ofText source code with
  | error e =>
    cases hts' : Token.ofText source code' with
    | error e' =>
      have hcheck : check source code = .error (.lexical e) := by rw [check, hts]
      have hcheck' : check source code' = .error (.lexical e') := by rw [check, hts']
      rw [outcome_of_error hcheck, outcome_of_error hcheck']
      rfl
    | ok ts' =>
      rw [hts, hts'] at h
      cases h
  | ok ts =>
    cases hts' : Token.ofText source code' with
    | error e' =>
      rw [hts, hts'] at h
      cases h
    | ok ts' =>
      rw [hts, hts'] at h
      have hgist : gist before ts = gist before' ts' := Option.some.inj h
      have hended := Token.ofLines_ended hts
      have hended' := Token.ofLines_ended hts'
      rw [Token.inReach_iff hts, Token.inReach_iff hts'] at hsize
      cases hp : Program.ofTokens ts with
      | ok p =>
        obtain ⟨p', hp', hbare⟩ :=
          Program.ofTokens_of_gist hended hended' hbefore hbefore' hgist hsize.1 hp
        have hcheck : check source code = .ok p := by simp only [check, hts, hp]
        have hcheck' : check source code' = .ok p' := by simp only [check, hts', hp']
        obtain ⟨script, hscript, hout⟩ := exists_outcome options hcheck
        rw [hout]
        exact outcome_of_ok hcheck' (Program.generate_of_mapSpan_eq _ hbare hscript)
      | error e =>
        cases hp' : Program.ofTokens ts' with
        | ok p' =>
          obtain ⟨p, hok, _⟩ :=
            Program.ofTokens_of_gist hended' hended hbefore' hbefore hgist.symm hsize.2 hp'
          rw [hp] at hok
          cases hok
        | error e' =>
          have hcheck : check source code = .error (.grammar e) := by simp only [check, hts, hp]
          have hcheck' : check source code' = .error (.grammar e') := by
            simp only [check, hts', hp']
          rw [outcome_of_error hcheck, outcome_of_error hcheck']
          rfl

theorem Relaid.gist_eq {W : Nat → Prop} {f : Nat → Nat} (hf : Levels.Keeps W f)
    (h : Relaid f (Text.lines code) (Text.lines code'))
    (hW : ∀ line ∈ Text.lines code, isSkipped line = false → W (Text.margin line))
    (source : String) :
    ∃ before : Token, before.lexeme = .newline ∧
      (Token.ofText source code).toOption.map (gist before) =
        (Token.ofText source code').toOption.map (gist before) := by
  have hinitial : Levels.initial.relaid f = .initial :=
    congrArg (fun n => (⟨[n]⟩ : Levels)) hf.zero
  have hwithin : Levels.initial.Within W := by
    intro a ha
    rw [List.mem_singleton.1 ha]
    exact hf.margin
  have hstart : (⟨.newline, .onLine source 0 1 1⟩ : Token).Ends 0 := ⟨rfl, rfl⟩
  have hgist := Token.ofLines_relaid source hf h (fun _ => Text.not_mem_of_mem_lines) hW hwithin
    hstart hstart
  rw [hinitial] at hgist
  exact ⟨_, rfl, hgist⟩

/-! ### Blank lines and comments -/

/-- A line without code: it is blank, or its text starts with the sign of a comment. -/
def Text.IsRemark (line : List Char) : Prop := trim line = [] ∨ (trim line).head? = some '#'

instance (line : List Char) : Decidable (Text.IsRemark line) :=
  inferInstanceAs (Decidable (_ ∨ _))

theorem Text.head?_trim (line : List Char) : (trim line).head? = (trimLeft line).head? := by
  cases hleft : trimLeft line with
  | nil =>
    rw [trim, hleft]
    rfl
  | cons c cs =>
    have hc : isBlank c = false := head?_trimLeft line c (by rw [hleft]; rfl)
    obtain ⟨back, hcs, hback⟩ := trimRight_append (c :: cs)
    rw [trim, hleft]
    cases hright : trimRight (c :: cs) with
    | nil =>
      rw [hright, List.nil_append] at hcs
      rw [← hcs, allBlank, List.all_cons, hc] at hback
      cases hback
    | cons d ds =>
      rw [hright] at hcs
      rw [List.head?_cons, List.head?_cons, (List.cons.inj hcs).1]

theorem isSkipped_iff_isRemark {line : List Char} : isSkipped line = true ↔ Text.IsRemark line := by
  have hhead := Text.head?_trim line
  unfold isSkipped Text.IsRemark
  cases hleft : Text.trimLeft line with
  | nil =>
    rw [hleft] at hhead
    simp only [true_iff]
    exact .inl (List.head?_eq_none_iff.1 hhead)
  | cons c cs =>
    rw [hleft] at hhead
    rw [hhead, beq_iff_eq, List.head?_cons, Option.some.injEq, or_iff_right]
    intro hnil
    rw [hnil] at hhead
    cases hhead

/-- The second list has further lines without code, at any places. -/
inductive Inserted : List (List Char) → List (List Char) → Prop
  | nil : Inserted [] []
  | keep {lines lines'} (line : List Char) : Inserted lines lines' →
    Inserted (line :: lines) (line :: lines')
  | insert {line lines lines'} : Text.IsRemark line → Inserted lines lines' →
    Inserted lines (line :: lines')

theorem Inserted.relaid {lines lines' : List (List Char)} (h : Inserted lines lines') :
    Relaid id lines lines' := by
  induction h with
  | nil => exact .nil
  | keep line _ ih =>
    cases hskip : isSkipped line with
    | true => exact .skippedLeft hskip (.skippedRight hskip ih)
    | false => exact .line hskip rfl rfl (.inl rfl) ih
  | insert hline _ ih => exact .skippedRight (isSkipped_iff_isRemark.2 hline) ih

theorem Inserted.length_le {lines lines' : List (List Char)} (h : Inserted lines lines') :
    lines.length ≤ lines'.length := by
  induction h with
  | nil => exact Nat.le_refl _
  | keep line _ ih => exact Nat.succ_le_succ ih
  | insert _ _ ih => exact Nat.le_succ_of_le ih

theorem inserted_empty (n : Nat) : Inserted [[]] (List.replicate (n + 1) []) := by
  induction n with
  | zero => exact .keep [] .nil
  | succ n ih => exact .insert (.inl rfl) ih

theorem Token.not_inReach_feeds {n : Nat} (h : UInt32.size ≤ n + 1) (source : String) :
    ¬InReach source (List.replicate n '\n') := by
  obtain ⟨ts, hscan, -, hlength⟩ := exists_scans_empty source 1 .initial (n + 1)
  rw [← Text.lines_feeds] at hscan
  obtain ⟨last, htokens⟩ := hscan.gives.ofText
  rw [inReach_iff htokens, List.length_append, hlength, List.length_singleton]
  omega

/-- Blank lines and comments never matter, wherever they are inserted, as long as all tokens stay in
reach. -/
theorem outcome_of_inserted (options : Script.Options) (source : String)
    (h : Inserted (Text.lines code) (Text.lines code')) (hreach : Token.InReach source code') :
    outcome options source code' = outcome options source code := by
  have hkeeps : Levels.Keeps (fun _ => True) id := ⟨rfl, trivial, fun _ _ => id⟩
  obtain ⟨before, hbefore, hgist⟩ := h.relaid.gist_eq hkeeps (fun _ _ _ => trivial) source
  have hreach' : Token.InReach source code := hreach.of_gist hgist h.length_le
  exact outcome_of_gist hbefore hbefore hgist (iff_of_true hreach' hreach)

def cardText : List Char :=
  ("component Card\n  props\n    title: string\n  end\n  render\n    div.box\n      p title\n" ++
    "  end\nend").toList

theorem cardText_accepted : ∃ p, check "m" cardText = .ok p := by
  obtain ⟨p, hp, -⟩ : ∃ p, check "m" cardText = .ok p ∧ true = true :=
    exists_check_ok (by decide +kernel)
  exact ⟨p, hp⟩

theorem lines_cardText : Text.lines cardText = ["component Card".toList, "  props".toList,
    "    title: string".toList, "  end".toList, "  render".toList, "    div.box".toList,
    "      p title".toList, "  end".toList, "end".toList] :=
  (Text.lines_toList _).trans (by decide +kernel)

/-- Comments that are out of line with everything around them, and blank lines. -/
def cardTextRemarked : List Char :=
  ("\n# Card\ncomponent Card\n \t\n  props\n  # deeper\n    title: string\n\n  end\n  render\n" ++
    "        #\n    div.box\n\r\n      p title\n#out\n  end\n# last\nend\n").toList

theorem outcome_of_inserted_card : ∃ script,
    Inserted (Text.lines cardText) (Text.lines cardTextRemarked) ∧
      outcome .standard "m" cardText = .ok script ∧
      outcome .standard "m" cardTextRemarked = .ok script := by
  have hlines : Text.lines cardTextRemarked =
      [[], "# Card".toList, "component Card".toList, " \t".toList, "  props".toList,
      "  # deeper".toList, "    title: string".toList, [], "  end".toList, "  render".toList,
      "        #".toList, "    div.box".toList, "\r".toList, "      p title".toList, "#out".toList,
      "  end".toList, "# last".toList, "end".toList, []] :=
    (Text.lines_toList _).trans (by decide +kernel)
  have hlength : cardTextRemarked.length = 139 :=
    (congrArg List.length (Text.Utf8.decode_toByteArray _).symm).trans (by decide +kernel)
  have hreach : Token.InReach "m" cardTextRemarked :=
    Token.inReach_of_length (by rw [hlength]; decide)
  have hinserted : Inserted (Text.lines cardText) (Text.lines cardTextRemarked) := by
    rw [lines_cardText, hlines]
    refine .insert (by decide) (.insert (by decide) (.keep _ (.insert (by decide) (.keep _ ?_))))
    refine .insert (by decide) (.keep _ (.insert (by decide) (.keep _ (.keep _ ?_))))
    refine .insert (by decide) (.keep _ (.insert (by decide) (.keep _ (.insert (by decide) ?_))))
    exact .keep _ (.insert (by decide) (.keep _ (.insert (by decide) .nil)))
  obtain ⟨p, hp⟩ := cardText_accepted
  obtain ⟨script, _, hscript⟩ := exists_outcome .standard hp
  refine ⟨script, hinserted, hscript, ?_⟩
  rw [outcome_of_inserted .standard "m" hinserted hreach, hscript]

/-- Blank lines that make the empty text too long for the parser. -/
theorem inserted_lines_matter :
    Inserted (Text.lines []) (Text.lines (List.replicate (UInt32.size - 1) '\n')) ∧
      (∃ script, outcome .standard "m" [] = .ok script) ∧
      ¬∃ script, outcome .standard "m" (List.replicate (UInt32.size - 1) '\n') = .ok script := by
  generalize hn : UInt32.size - 1 = n
  have hsize : UInt32.size ≤ n + 1 := by
    rw [← hn]
    decide
  refine ⟨?_, ?_, ?_⟩
  · rw [Text.lines_feeds]
    exact inserted_empty n
  · obtain ⟨script, -, hscript⟩ := exists_outcome .standard (check_feeds "m" (n := 0) (by decide))
    exact ⟨script, hscript⟩
  · rintro ⟨script, hscript⟩
    cases hcheck : check "m" (List.replicate n '\n') with
    | ok p => exact Token.not_inReach_feeds hsize "m" (inReach_of_check hcheck)
    | error e =>
      rw [outcome_of_error hcheck] at hscript
      cases hscript

/-! ### Indentation -/

/-- The widths of indentation in a text, and the margin. -/
def Text.widths (code : List Char) : List Nat :=
  0 :: ((lines code).filter fun line => !isSkipped line).map margin

/-- The second line is the first one at another width, or both are without code. -/
def Reindented (f : Nat → Nat) (line line' : List Char) : Prop :=
  (Text.IsRemark line ∧ Text.IsRemark line') ∨
    (Text.trimLeft line' = Text.trimLeft line ∧ Text.margin line' = f (Text.margin line))

instance (f : Nat → Nat) (line line' : List Char) : Decidable (Reindented f line line') :=
  inferInstanceAs (Decidable (_ ∨ _))

/-- The lines with code are no longer than columns can tell. -/
def Text.FitsColumns (code : List Char) : Prop :=
  ∀ line ∈ lines code, isSkipped line = false → line.length < UInt32.size

instance (code : List Char) : Decidable (Text.FitsColumns code) :=
  inferInstanceAs (Decidable (∀ _ ∈ _, _))

theorem Text.length_eq_margin_add (line : List Char) :
    line.length = margin line + (trimLeft line).length := by
  rw [margin, ← List.length_append, trimLeft, List.takeWhile_append_dropWhile]

theorem Relaid.of_zip {f : Nat → Nat} {lines lines' : List (List Char)}
    (hlength : lines'.length = lines.length)
    (h : ∀ r ∈ lines.zip lines', Reindented f r.1 r.2)
    (hfits : ∀ line ∈ lines, isSkipped line = false → line.length < UInt32.size)
    (hfits' : ∀ line ∈ lines', isSkipped line = false → line.length < UInt32.size) :
    Relaid f lines lines' := by
  induction lines generalizing lines' with
  | nil =>
    rw [List.length_eq_zero_iff.1 hlength]
    exact .nil
  | cons line lines ih =>
    cases lines' with
    | nil => cases hlength
    | cons line' lines' =>
      rw [List.zip_cons_cons, List.forall_mem_cons] at h
      rw [List.forall_mem_cons] at hfits hfits'
      have hrest := ih (Nat.succ.inj hlength) h.2 hfits.2 hfits'.2
      rcases h.1 with ⟨hline, hline'⟩ | ⟨htrim, hmargin⟩
      · exact .skippedLeft (isSkipped_iff_isRemark.2 hline)
          (.skippedRight (isSkipped_iff_isRemark.2 hline') hrest)
      · have hsame := Token.isSkipped_congr htrim
        cases hskip : isSkipped line with
        | true => exact .skippedLeft hskip (.skippedRight (hsame.trans hskip) hrest)
        | false =>
          refine .line hskip htrim hmargin (.inr ?_) hrest
          have hline := hfits.1 hskip
          have hline' := hfits'.1 (hsame.trans hskip)
          have htrimmed : (Text.trimLeft line').length = (Text.trimLeft line).length := by
            rw [htrim]
          rw [Text.length_eq_margin_add] at hline hline'
          exact ⟨by omega, by omega⟩

/-- The lines of a component. Its element has a class, and a line of width `2 * level`. -/
def dottedLines (level : Nat) : List (List Char) :=
  ["component C".toList, Text.indented 1 "render".toList, Text.indented level "ab.c".toList,
    Text.indented 1 "end".toList, "end".toList]

def dottedCard (level : Nat) : List Char := (dottedLines level).flatMap (· ++ ['\n'])

def dottedTokens (level : Nat) : List Token :=
  let first := 1 + 2 * level
  [⟨.keyword .component, .ofWidth "m" 1 1 9⟩, ⟨.identifier "C", .ofWidth "m" 1 11 1⟩,
    ⟨.newline, .onLine "m" 1 12 12⟩] ++
  [⟨.indent, .onLine "m" 2 1 3⟩, ⟨.keyword .render, .ofWidth "m" 2 3 6⟩,
    ⟨.newline, .onLine "m" 2 9 9⟩] ++
  [⟨.indent, .onLine "m" 3 1 (2 * level + 1)⟩, ⟨.identifier "ab", .ofWidth "m" 3 first 2⟩,
    ⟨.punct .dot, .ofWidth "m" 3 (first + 2) 1⟩,
    ⟨.identifier "c", .ofWidth "m" 3 (first + 2 + 1) 1⟩,
    ⟨.newline, .onLine "m" 3 (first + 4) (first + 4)⟩] ++
  [⟨.dedent, .onLine "m" 4 1 3⟩, ⟨.keyword .endWord, .ofWidth "m" 4 3 3⟩,
    ⟨.newline, .onLine "m" 4 6 6⟩] ++
  [⟨.dedent, .onLine "m" 5 1 1⟩, ⟨.keyword .endWord, .ofWidth "m" 5 1 3⟩,
    ⟨.newline, .onLine "m" 5 4 4⟩] ++
  [⟨.newline, .onLine "m" 6 1 1⟩, ⟨.eof, .onLine "m" 6 1 1⟩]

theorem Token.lexes_dotted (column : Nat) : Lexes "m" 3 column Tight "ab.c".toList
    [⟨.identifier "ab", .ofWidth "m" 3 column 2⟩, ⟨.punct .dot, .ofWidth "m" 3 (column + 2) 1⟩,
      ⟨.identifier "c", .ofWidth "m" 3 (column + 2 + 1) 1⟩] := by
  have hname : Lexes "m" 3 column Tight (Lexeme.identifier "ab").text.toList _ :=
    .token rfl ⟨by decide, by decide⟩ fun _ hrest => Tight.stopsAt hrest (by simp)
  have hdot : Lexes "m" 3 (column + 2) (fun _ => True) ['.'] _ :=
    .token (l := .punct .dot) rfl trivial fun _ _ _ _ => rfl
  have hclass : Lexes "m" 3 (column + 2 + 1) Tight (Lexeme.identifier "c").text.toList _ :=
    .token rfl ⟨by decide, by decide⟩ fun _ hrest => Tight.stopsAt hrest (by simp)
  have hrest := hdot.append hclass fun _ _ => trivial
  have hlex := hname.append hrest fun _ _ => Expr.tight_of_head (by simp) _
  exact hlex

theorem lines_dottedCard (level : Nat) :
    Text.lines (dottedCard level) = dottedLines level ++ [[]] := by
  refine Text.lines_flatMap ?_
  simp [dottedLines, Text.indented]

theorem ofText_dottedCard {level : Nat} (h : 1 < level) :
    Token.ofText "m" (dottedCard level) = .ok (dottedTokens level) := by
  let deepest : Levels := (Levels.nest 1).push (2 * level)
  have hmove : (Levels.nest 1).move? (2 * level) = some ([.indent], deepest) :=
    Levels.move?_of_top_lt (by rw [Levels.top_nest]; omega)
  have hback : deepest.move? (2 * 1) = some ([.dedent], .nest 1) := by
    rw [Levels.move?_of_lt_top (show 2 * 1 < 2 * level by omega)]
    rfl
  have hname : Token.Lexes "m" 1 11 Loose (Lexeme.identifier "C").text.toList _ :=
    .lone rfl ⟨by decide, by decide⟩
  have hrender : Token.Lexes "m" 2 (1 + 2 * 1) Loose (Lexeme.keyword .render).text.toList _ :=
    .lone rfl trivial
  have hend : Token.Lexes "m" 4 (1 + 2 * 1) Loose (Lexeme.keyword .endWord).text.toList _ :=
    .lone rfl trivial
  have hlast : Token.Lexes "m" 5 (1 + 2 * 0) Loose (Lexeme.keyword .endWord).text.toList _ :=
    .lone rfl trivial
  have hfirst : Token.Lexes "m" 1 (1 + 2 * 0) Loose _ _ :=
    .after (l := .keyword .component) rfl trivial hname
  have h₁ := Token.ofLine_indented hfirst Loose.nil (Levels.move?_nest 0)
  have h₂ := Token.ofLine_indented hrender Loose.nil (Levels.move?_deeper 0)
  have h₃ := Token.ofLine_indented (Token.lexes_dotted (1 + 2 * level)) Loose.nil.tight hmove
  have h₄ := Token.ofLine_indented hend Loose.nil hback
  have h₅ := Token.ofLine_indented hlast Loose.nil (Levels.move?_back 0)
  rw [Token.ofText, lines_dottedCard]
  have hgive : Token.LinesGive "m" 1 .initial (dottedLines level) _ (.nest 0) :=
    .cons h₁ (.cons h₂ (.cons h₃ (.cons h₄ (.cons h₅ .nil))))
  rw [hgive.append]
  rfl

theorem reindented_dottedCard {level : Nat} (h : 1 < level) : ∃ f : Nat → Nat, f 0 = 0 ∧
    (∀ a b, a < b → f a < f b) ∧
    ∀ r ∈ (Text.lines (dottedCard 2)).zip (Text.lines (dottedCard level)),
      Reindented f r.1 r.2 := by
  let f (n : Nat) : Nat := if n < 4 then n else n + 2 * level - 4
  have hrow : Reindented f (Text.indented 2 "ab.c".toList) (Text.indented level "ab.c".toList) := by
    have hclean := (Token.lexes_dotted 1).clean
    refine .inr ⟨?_, ?_⟩
    · rw [Token.trimLeft_indented hclean, Token.trimLeft_indented hclean]
    · rw [Text.margin, Text.margin, Token.length_takeWhile_indented hclean,
        Token.length_takeWhile_indented hclean]
      show 2 * level = 2 * 2 + 2 * level - 4
      omega
  refine ⟨f, rfl, fun a b hlt => ?_, ?_⟩
  · simp only [f]
    split <;> split <;> omega
  · rw [lines_dottedCard, lines_dottedCard]
    simp only [dottedLines, List.cons_append, List.nil_append, List.zip_cons_cons,
      List.zip_nil_left, List.forall_mem_cons]
    exact ⟨.inr ⟨rfl, rfl⟩, .inr ⟨rfl, rfl⟩, hrow, .inr ⟨rfl, rfl⟩, .inr ⟨rfl, rfl⟩,
      .inr ⟨rfl, rfl⟩, by simp⟩

def isTagged (row : List Char) : Bool := row.contains '<'

/-- The lines of the script that hold tags, after those of the prelude. -/
theorem outcome_dottedCard {level : Nat} (h : 1 < level) (rows : List (List Char))
    (hrows : (Program.ofTokens (dottedTokens level)).toOption.any
      (fun p => p.lower.toOption.any fun m =>
      m.imported == .framework &&
        ((m.items.flatMap Script.Item.lines).map Script.Line.row).filter isTagged == rows) = true) :
    ∃ script, outcome .standard "m" (dottedCard level) = .ok script ∧
      (Text.lines script.toList).filter isTagged =
        ((Script.preludeLines .standard ++ Script.Import.framework.lines).map
          Script.Line.row).filter
          isTagged ++ rows := by
  obtain ⟨p, hp, hlower⟩ := exists_ok_of_any hrows
  obtain ⟨m, hm, htest⟩ := exists_ok_of_any hlower
  rw [Bool.and_eq_true, beq_iff_eq, beq_iff_eq] at htest
  have hcheck : check "m" (dottedCard level) = .ok p := by
    simp only [check, ofText_dottedCard h, hp]
  have hscript : p.generate .standard = .ok (m.text .standard) := by rw [Program.generate, hm]
  refine ⟨_, outcome_of_ok hcheck hscript, ?_⟩
  rw [Script.filter_lines_text .standard (check_areRows hcheck hm) rfl, Script.Module.lines,
    htest.1, List.map_append, List.filter_append, htest.2]

/-- Only the order of the widths of indentation matters, as long as lines fit their columns. The
function `f` need not increase on other numbers than these. -/
theorem outcome_of_reindented (options : Script.Options) (source : String) (f : Nat → Nat)
    (hzero : f 0 = 0)
    (hf : ∀ a ∈ Text.widths code, ∀ b ∈ Text.widths code, a < b → f a < f b)
    (hlength : (Text.lines code').length = (Text.lines code).length)
    (hlines : ∀ r ∈ (Text.lines code).zip (Text.lines code'), Reindented f r.1 r.2)
    (hfits : Text.FitsColumns code) (hfits' : Text.FitsColumns code') :
    outcome options source code' = outcome options source code := by
  have hkeeps : Levels.Keeps (· ∈ Text.widths code) f :=
    ⟨hzero, List.mem_cons_self, fun ha hb => hf _ ha _ hb⟩
  have hrelaid : Relaid f (Text.lines code) (Text.lines code') :=
    .of_zip hlength hlines hfits hfits'
  have hwidths : ∀ line ∈ Text.lines code, isSkipped line = false →
      Text.margin line ∈ Text.widths code := by
    intro line hline hskip
    apply List.mem_cons_of_mem
    apply List.mem_map_of_mem
    rw [List.mem_filter, hskip]
    exact ⟨hline, rfl⟩
  obtain ⟨before, hbefore, hgist⟩ := hrelaid.gist_eq hkeeps hwidths source
  exact outcome_of_gist hbefore hbefore hgist
    ⟨fun h => h.of_gist hgist.symm (Nat.le_of_eq hlength),
      fun h => h.of_gist hgist (Nat.le_of_eq hlength.symm)⟩

/-- Tabs for pairs of blanks. Halves increase on even widths only. -/
def cardTextTabbed : List Char :=
  ("component Card\n\tprops\n\t\ttitle: string\n\tend\n\trender\n\t\tdiv.box\n\t\t\tp title\n" ++
    "\tend\nend").toList

theorem outcome_of_reindented_card : ∃ script,
    (∀ r ∈ (Text.lines cardText).zip (Text.lines cardTextTabbed), Reindented (· / 2) r.1 r.2) ∧
      outcome .standard "m" cardText = .ok script ∧
      outcome .standard "m" cardTextTabbed = .ok script := by
  have htabbed : Text.lines cardTextTabbed = ["component Card".toList, "\tprops".toList,
      "\t\ttitle: string".toList, "\tend".toList, "\trender".toList, "\t\tdiv.box".toList,
      "\t\t\tp title".toList, "\tend".toList, "end".toList] :=
    (Text.lines_toList _).trans (by decide +kernel)
  have hlines : ∀ r ∈ (Text.lines cardText).zip (Text.lines cardTextTabbed),
      Reindented (· / 2) r.1 r.2 := by
    rw [lines_cardText, htabbed]
    decide +kernel
  have hwidths : ∀ a ∈ Text.widths cardText, ∀ b ∈ Text.widths cardText, a < b → a / 2 < b / 2 := by
    rw [Text.widths, lines_cardText]
    decide +kernel
  have hfits : Text.FitsColumns cardText := by
    rw [Text.FitsColumns, lines_cardText]
    decide +kernel
  have hfits' : Text.FitsColumns cardTextTabbed := by
    rw [Text.FitsColumns, htabbed]
    decide +kernel
  obtain ⟨p, hp⟩ := cardText_accepted
  obtain ⟨script, _, hscript⟩ := exists_outcome .standard hp
  refine ⟨script, hlines, hscript, ?_⟩
  rw [outcome_of_reindented .standard "m" (· / 2) rfl hwidths (by rw [lines_cardText, htabbed]; rfl)
    hlines hfits hfits', hscript]

/-- A name across the last column and the first. Its class does not seem to follow it, and is read
as text. -/
theorem wide_indentation_matters : ∃ f : Nat → Nat, f 0 = 0 ∧ (∀ a b, a < b → f a < f b) ∧
    (∀ r ∈ (Text.lines (dottedCard 2)).zip (Text.lines (dottedCard (UInt32.size / 2 - 1))),
      Reindented f r.1 r.2) ∧
    ∃ script script', outcome .standard "m" (dottedCard 2) = .ok script ∧
      outcome .standard "m" (dottedCard (UInt32.size / 2 - 1)) = .ok script' ∧
      script ≠ script' := by
  have hwide : 1 < UInt32.size / 2 - 1 := by decide
  obtain ⟨f, hzero, hf, hlines⟩ := reindented_dottedCard hwide
  have hnarrow : 1 < 2 := by decide
  obtain ⟨script, hscript, hrows⟩ :=
    outcome_dottedCard hnarrow ["    <ab className=\"c\" />".toList] (by decide +kernel)
  obtain ⟨script', hscript', hrows'⟩ :=
    outcome_dottedCard hwide ["    <ab>. c</ab>".toList] (by decide +kernel)
  refine ⟨f, hzero, hf, hlines, script, script', hscript, hscript', ?_⟩
  rintro rfl
  rw [hrows] at hrows'
  exact absurd (List.append_cancel_left hrows') (by decide)

end LayoutScript

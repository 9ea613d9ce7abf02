import LayoutScript.Proofs.Concatenation
import LayoutScript.Proofs.StatementRoundTrip

/-! Every program without components is read back from its canonical text, up to spans. -/
namespace LayoutScript

def Program.bare (p : Program) : Program := p.mapSpan fun _ => .origin

theorem Text.split_of_not_mem {divider : Char} {cs : List Char} (h : divider ∉ cs) :
    split divider cs = [cs] := by
  induction cs with
  | nil => rfl
  | cons c cs ih =>
    rw [List.mem_cons, not_or] at h
    rw [split, if_neg (Ne.symm h.1), ih h.2]

/-- The lines of a text that ends each of them. After the last line feed there is one more. -/
theorem Text.lines_flatMap {lines : List (List Char)} (h : ∀ line ∈ lines, '\n' ∉ line) :
    Text.lines (lines.flatMap (· ++ ['\n'])) = lines ++ [[]] := by
  induction lines with
  | nil => rfl
  | cons line lines ih =>
    have hline : split '\n' line = [line] := split_of_not_mem (h line List.mem_cons_self)
    have hrest := ih fun l hl => h l (List.mem_cons_of_mem _ hl)
    rw [List.flatMap_cons, List.append_assoc, List.singleton_append, Text.lines,
      split_append, hline]
    exact congrArg (line :: ·) hrest

theorem ProgramRule.cons {us ts : List Token} {next : Token} {s : Stmt} {body : List Stmt}
    (hs : StatementRule .top us (ts.headD next) s) (h : ProgramRule ts next ⟨body⟩) :
    ProgramRule (us ++ ts) next ⟨s :: body⟩ := by
  cases h with
  | mk hns hss =>
    have hrule := ProgramRule.mk Newlines.nil (.cons hs hns hss)
    rwa [List.nil_append, List.append_assoc] at hrule

/-- The statements of a program, one after the other. Newlines may follow them. -/
theorem program_denotes {body : List Stmt} (h : ∀ s ∈ body, s.Reread) (source : String)
    (number : Nat) :
    ∃ ts body', Token.LinesGive source number .initial (body.flatMap (Stmt.lines 0)) ts .initial ∧
      body'.map Stmt.bare = body.map Stmt.bare ∧
      ∀ ns next, Newlines ns → next.lexeme = .eof → ProgramRule (ts ++ ns) next ⟨body'⟩ := by
  -- The newlines `ns` go to the last statement; without any they stand at the start of the program.
  induction body generalizing number with
  | nil =>
    refine ⟨[], [], .nil, rfl, fun ns next hns hnext => ?_⟩
    have hrule := ProgramRule.mk hns (.nil hnext)
    rwa [List.append_nil] at hrule
  | cons s body ih =>
    have hs := h s List.mem_cons_self .top 0
    obtain ⟨_, us, s', hgive, hsame, hrule⟩ :=
      hs.reads source number .initial [] (Levels.move?_nest 0)
    obtain ⟨ts, body', hgive', hsame', hrule'⟩ :=
      ih (fun s hs => h s (List.mem_cons_of_mem _ hs)) (number + (s.lines 0).length)
    refine ⟨us ++ ts, s' :: body', ?_, List.cons_eq_cons.2 ⟨hsame, hsame'⟩,
      fun ns next hns hnext => ?_⟩
    · rw [List.flatMap_cons]
      exact hgive.trans hgive'
    · rw [List.append_assoc]
      exact .cons (hrule _) (hrule' ns next hns hnext)

theorem Token.Lexes.linesGive {source : String} {cs : List Char} {ts : List Token}
    (h : Lexes source 1 1 Loose cs ts) :
    Text.lines cs = [cs] ∧
      ∃ span, LinesGive source 1 .initial [cs] (ts ++ [⟨.newline, span⟩]) .initial := by
  have hmove : Levels.initial.move? (2 * 0) = some ([], .initial) := rfl
  have hlex : Lexes source 1 (1 + 2 * 0) Loose cs ts := h
  obtain ⟨span, last, hgive⟩ := LinesGive.line hlex Loose.nil hmove
  exact ⟨Text.split_of_not_mem h.clean.line, _, hgive⟩

theorem Token.Lexes.ofText {source : String} {cs : List Char} {ts : List Token}
    (h : Lexes source 1 1 Loose cs ts) :
    ∃ span last, Token.ofText source cs = .ok (ts ++ [⟨.newline, span⟩] ++ [⟨.eof, last⟩]) := by
  obtain ⟨hlines, span, hgive⟩ := h.linesGive
  rw [← hlines] at hgive
  obtain ⟨last, htokens⟩ := hgive.ofText
  exact ⟨span, last, htokens⟩

theorem Token.Lexes.inReach_iff {source : String} {cs : List Char} {ts : List Token}
    (h : Lexes source 1 1 Loose cs ts) : InReach source cs ↔ ts.length + 2 ≤ UInt32.size := by
  obtain ⟨span, last, htokens⟩ := h.ofText
  rw [Token.inReach_iff htokens, List.length_append, List.length_append]
  rfl

theorem Token.Lexes.check_sentence {source : String} {cs : List Char} {ts : List Token} {s : Stmt}
    (h : Lexes source 1 1 Loose cs ts)
    (hs : ∀ next : Token, next.lexeme = .newline → Sentence .top ts next s)
    (hlength : ts.length + 2 ≤ UInt32.size) : check source cs = .ok ⟨[s]⟩ := by
  obtain ⟨span, last, htokens⟩ := h.ofText
  refine check_eq_ok_iff.2 ⟨_, _, htokens, ?_, ?_⟩
  · rw [List.length_append, List.length_append]
    exact hlength
  · have hline : StatementRule .top (ts ++ [⟨.newline, span⟩]) ⟨.eof, last⟩ s :=
      .of id (.sentence (.mk (hs _ rfl) (.newline rfl)))
    have hbody : Statements (ts ++ [⟨.newline, span⟩] ++ [] ++ []) ⟨.eof, last⟩ [s] :=
      .cons hline Newlines.nil (.nil rfl)
    rw [List.append_nil, List.append_nil] at hbody
    have hprogram : ProgramRule ([] ++ (ts ++ [⟨.newline, span⟩])) ⟨.eof, last⟩ ⟨[s]⟩ :=
      .mk Newlines.nil hbody
    exact hprogram

/-- A line feed at the end is one token more. -/
theorem Token.Lexes.inReach_feed_iff {source : String} {cs : List Char} {ts : List Token}
    (h : Lexes source 1 1 Loose cs ts) :
    InReach source (cs ++ ['\n']) ↔ ts.length + 3 ≤ UInt32.size := by
  obtain ⟨hlines, span, hgive⟩ := h.linesGive
  have hempty : Text.lines (cs ++ ['\n']) = [cs] ++ [[]] := by
    rw [Text.lines, Text.split_append, ← Text.lines, hlines]
    rfl
  have htokens : Token.ofText source (cs ++ ['\n']) = .ok (ts ++ [⟨.newline, span⟩] ++
      [⟨.newline, .onLine source 2 1 1⟩, ⟨.eof, .onLine source 2 1 1⟩]) := by
    rw [Token.ofText, hempty, hgive.append]
    rfl
  rw [Token.inReach_iff htokens]
  simp

theorem lines_unbroken {body : List Stmt} (h : ∀ s ∈ body, s.Reread) :
    ∀ line ∈ body.flatMap (Stmt.lines 0), '\n' ∉ line := by
  intro line hline
  obtain ⟨s, hs, hline⟩ := List.mem_flatMap.1 hline
  exact (h s hs .top 0).unbroken line hline

theorem Stmt.eq_print_of_bare {s : Stmt} {value : Expr} {span : Span}
    (h : s.bare = (print value span).bare) :
    ∃ value' span', s = .print value' span' ∧ value'.bare = value.bare := by
  cases s <;> simp only [bare, mapSpan, reduceCtorEq, print.injEq] at h
  exact ⟨_, _, rfl, h.1⟩

theorem Stmt.Canonical.check_line {s : Stmt} (h : s.Canonical) {line : List Char}
    (hline : s.lines 0 = [line]) {source : String} (hreach : Token.InReach source line) :
    ∃ s', check source line = .ok ⟨[s']⟩ ∧ s'.bare = s.bare := by
  have hreread : ∀ s' ∈ [s], s'.Reread := by
    intro s' hs'
    rw [List.mem_singleton.1 hs']
    exact h.reread
  have hlines : [s].flatMap (Stmt.lines 0) = [line] := by rw [List.flatMap_singleton, hline]
  obtain ⟨ts, body, hgive, hsame, hrule⟩ := program_denotes hreread source 1
  have hunbroken := lines_unbroken hreread
  rw [hlines] at hgive hunbroken
  have htext : Text.lines line = [line] :=
    Text.split_of_not_mem (hunbroken _ (List.mem_singleton.2 rfl))
  rw [← htext] at hgive
  obtain ⟨last, htokens⟩ := hgive.ofText
  have hprogram := hrule [] ⟨.eof, last⟩ Newlines.nil rfl
  rw [List.append_nil] at hprogram
  obtain ⟨s', rfl⟩ : ∃ s', body = [s'] :=
    List.length_eq_one_iff.1 (by simpa using congrArg List.length hsame)
  exact ⟨s', check_eq_ok_iff.2 ⟨_, _, htokens, hreach _ htokens, hprogram⟩,
    List.singleton_inj.1 hsame⟩

theorem Token.Lexes.properties {source : String} {line column : Nat} {cs : List Char}
    {ts : List Token} {names : List String} (h : Lexes source line column Tight cs ts)
    (hnames : ∀ name ∈ names, isWord name = true) :
    ∃ us, Lexes source line column Tight (cs ++ Expr.propertiesText names) (ts ++ us) ∧
      us.length = 2 * names.length := by
  induction names generalizing cs ts with
  | nil =>
    refine ⟨[], ?_, rfl⟩
    rw [Expr.propertiesText, List.flatMap_nil, List.append_nil, List.append_nil]
    exact h
  | cons name names ih =>
    obtain ⟨hname, hnames⟩ := List.forall_mem_cons.1 hnames
    obtain ⟨dot, word, hlex, -⟩ := Expr.dotted_lexes hname source line (column + cs.length)
    obtain ⟨us, hall, hlength⟩ :=
      ih (h.append hlex fun _ _ => Expr.tight_of_head (by simp) _) hnames
    refine ⟨dot :: word :: us, ?_, ?_⟩
    · rw [List.append_assoc, List.append_assoc] at hall
      exact hall
    · simp only [List.length_cons, hlength]
      omega

/-- The instance variable `a`, and `n` properties read from it. -/
def Expr.deepRead (n : Nat) : Expr :=
  (Expr.instanceVar "a" .origin).accessed .origin .origin (List.replicate n "p")

theorem Expr.forall_replicate_isWord (n : Nat) :
    ∀ name ∈ List.replicate n "p", isWord name = true :=
  fun _ h => (List.mem_replicate.1 h).2 ▸ by decide

theorem Expr.canonical_deepRead (n : Nat) : (deepRead n).Canonical .whole :=
  .operand (.chain (.access (.instanceVar (by decide)) (forall_replicate_isWord n)))

def printsDeepRead (n : Nat) : List Char := "print ".toList ++ (Expr.deepRead n).text

theorem lexes_printsDeepRead (source : String) (n : Nat) :
    ∃ ts, Token.Lexes source 1 1 Loose (printsDeepRead n) ts ∧ ts.length = 2 * n + 2 := by
  have hvariable : Token.Lexes source 1 7 Tight (Lexeme.instanceVar "a").text.toList _ :=
    .token rfl (show isWord "a" = true by decide) fun _ hrest => Tight.stopsAt hrest (by simp)
  obtain ⟨us, hread, hlength⟩ := hvariable.properties (Expr.forall_replicate_isWord n)
  have hlex : Token.Lexes source 1 1 Loose _ _ :=
    .after (l := .keyword .print) rfl trivial (hread.mono fun _ => Loose.tight)
  unfold printsDeepRead Expr.deepRead
  rw [Expr.text_accessed]
  refine ⟨_, hlex, ?_⟩
  simp only [List.length_append, List.length_cons, List.length_nil, hlength, List.length_replicate]
  omega

theorem check_printsDeepRead (source : String) {n : Nat} (hn : 2 * (n + 1) + 4 ≤ UInt32.size) :
    ∃ s s', check source (printsDeepRead (n + 1)) =
      .ok ⟨[.print (.instanceVarAccess "a" (List.replicate (n + 1) "p") s) s']⟩ := by
  obtain ⟨ts, hlex, hlength⟩ := lexes_printsDeepRead source (n + 1)
  have hline : Stmt.lines 0 (.print (Expr.deepRead (n + 1)) .origin) =
      [printsDeepRead (n + 1)] := by
    rw [Stmt.lines]
    rfl
  have hcanonical : (Stmt.print (Expr.deepRead (n + 1)) .origin).Canonical :=
    .print (Expr.canonical_deepRead (n + 1))
  obtain ⟨t, hcheck, ht⟩ := hcanonical.check_line hline (hlex.inReach_iff.2 (by omega))
  obtain ⟨value, s', rfl, hvalue⟩ := Stmt.eq_print_of_bare ht
  obtain ⟨s, rfl⟩ := Expr.eq_instanceVarAccess_of_bare hvalue
  exact ⟨s, s', hcheck⟩

theorem text_printsDeepRead (n : Nat) (s s' : Span) :
    Program.text ⟨[.print (.instanceVarAccess "a" (List.replicate (n + 1) "p") s) s']⟩ =
      printsDeepRead (n + 1) ++ ['\n'] := by
  have hvalue : (Expr.instanceVarAccess "a" (List.replicate (n + 1) "p") s).text =
      (Expr.deepRead (n + 1)).text := by
    rw [Expr.deepRead, Expr.text_accessed, Expr.text_instanceVarAccess]
  rw [Program.text, List.flatMap_singleton, Stmt.lines, List.flatMap_singleton, hvalue]
  rfl

/-- The program that a text gives is read again from its canonical text. Only the spans differ. -/
theorem check_text {source : String} {code : List Char} {p : Program}
    (h : check source code = .ok p) (hp : ∀ c, .component c ∉ p.body) (source' : String)
    (hreach : Token.InReach source' p.text) :
    ∃ q, check source' p.text = .ok q ∧ q.bare = p.bare := by
  have hreread : ∀ s ∈ p.body, s.Reread := fun s hs => (check_canonical h hp s hs).reread
  obtain ⟨ts, body, hgive, hsame, hrule⟩ := program_denotes hreread source' 1
  -- The text ends in a line feed, so an empty line follows the last statement.
  let number := 1 + (p.body.flatMap (Stmt.lines 0)).length
  let newline : Token := ⟨.newline, .onLine source' number 1 1⟩
  have hempty : Token.ofLine source' number .initial [] = .ok ([newline], .initial) := rfl
  have hall := hgive.trans (.cons hempty .nil)
  rw [← Text.lines_flatMap (lines_unbroken hreread)] at hall
  obtain ⟨last, htokens⟩ := hall.ofText
  rw [List.append_nil] at htokens
  have hprogram := hrule [newline] ⟨.eof, last⟩ (by simp [Newlines, newline]) rfl
  exact ⟨⟨body⟩, check_eq_ok_iff.2 ⟨_, _, htokens, hreach _ htokens, hprogram⟩,
    congrArg Program.mk hsame⟩

/-- Every form of statement, with calls that become values, accesses, signs and parentheses. -/
def mixedProgram : List Char :=
  ("class Point\n    def move(dx : number, dy)\n      @x = @x + (dx - -1) * dy\n" ++
    "      @size.width = new Box\n      draw(@x)\n    end\n    x : number\nend\n" ++
    "def far(p)\n  if p.x.abs() > 1 && p.name == \"a b\"\n    p.seen = true\n  elsif null != p\n" ++
    "    print \"\x7b\x7bp\x7d\x7d\"\n  else\n    return\n  end\n  p.x + 1\nend\nstart\n").toList

def Program.isPlain (p : Program) : Bool := p.body.all fun s => s.kind != .componentDeclaration

theorem check_text_mixedProgram : ∃ p q, check "m" mixedProgram = .ok p ∧
    (∀ c, .component c ∉ p.body) ∧ check "n" p.text = .ok q ∧ q.bare = p.bare := by
  obtain ⟨p, hp, htest⟩ : ∃ p, check "m" mixedProgram = .ok p ∧
      (p.isPlain && decide (3 * p.text.length + 3 ≤ UInt32.size)) = true :=
    exists_check_ok (by decide +kernel)
  obtain ⟨hplain, hlength⟩ := Bool.and_eq_true_iff.1 htest
  have hcomponents : ∀ c, .component c ∉ p.body := fun c hc =>
    absurd (List.all_eq_true.1 hplain _ hc) (by simp [Stmt.kind])
  obtain ⟨q, hq, hsame⟩ :=
    check_text hp hcomponents "n" (Token.inReach_of_length (of_decide_eq_true hlength))
  exact ⟨p, q, hp, hcomponents, hq, hsame⟩

/-- The canonical text ends in a line feed, which may be one token too many. -/
theorem printed_text_rejected : ∃ p, check "m" (printsDeepRead (UInt32.size / 2 - 2)) = .ok p ∧
    (∀ c, .component c ∉ p.body) ∧ ¬∃ q, check "m" p.text = .ok q := by
  obtain ⟨n, hn, hsize⟩ : ∃ n, UInt32.size / 2 - 2 = n + 1 ∧ 2 * (n + 1) + 4 = UInt32.size :=
    ⟨UInt32.size / 2 - 3, rfl, rfl⟩
  rw [hn]
  obtain ⟨s, s', hcheck⟩ := check_printsDeepRead "m" (Nat.le_of_eq hsize)
  refine ⟨_, hcheck, by simp, ?_⟩
  rintro ⟨q, hq⟩
  obtain ⟨ts, hlex, hlength⟩ := lexes_printsDeepRead "m" (n + 1)
  rw [text_printsDeepRead] at hq
  have hfeed := hlex.inReach_feed_iff.1 (inReach_of_check hq)
  omega

end LayoutScript

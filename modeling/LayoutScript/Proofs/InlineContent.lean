import LayoutScript.Proofs.LineTokens
import LayoutScript.Proofs.TapeRuns
import Mathlib.Data.List.Forall2
import Mathlib.Data.List.SplitBy

/-! The content on the line of a tag. The tokens of the line fall into runs, each interpolation by
itself and the others as far as they reach, and every run makes one child, so no token is lost and
no two texts meet. -/
namespace LayoutScript

namespace Markup

def isText : Markup → Bool
  | .text _ _ => true
  | _ => false

/-- Whether a token and the one after it belong to one text. -/
def inOneText (t u : Token) : Bool := t.kind != .interpolation && u.kind != .interpolation

/-- The child that a run of tokens makes: an interpolation stands alone, and other tokens make a
text, with one blank between them, from the first to the last of them. -/
inductive Makes : List Token → Markup → Prop
  | interpolation {t raw} : t.lexeme = .interpolation raw → Makes [t] (.interpolation raw t.span)
  | text {t ts} : (∀ u ∈ t :: ts, u.kind ≠ .interpolation) →
    Makes (t :: ts)
      (.text (" ".intercalate ((t :: ts).map Token.text)) (t.span.join (ts.getLastD t).span))

/-- A line as runs of tokens with their children. Of two children that meet, one is not a text. -/
structure Divided (line : List Token) (runs : List (List Token)) (content : List Markup) :
    Prop where
  flatten : runs.flatten = line
  makes : List.Forall₂ Makes runs content
  apart : content.IsChain fun m m' => m.isText = false ∨ m'.isText = false

namespace Makes

variable {run run' : List Token} {m m' : Markup}

theorem ne_nil (h : Makes run m) : run ≠ [] := by
  cases h <;> simp

theorem isChain (h : Makes run m) : run.IsChain fun t u => inOneText t u = true := by
  cases h with
  | interpolation _ => exact .singleton _
  | text hwords =>
    refine List.Pairwise.isChain (List.pairwise_of_forall_mem_list fun t ht u hu => ?_)
    simp [inOneText, hwords t ht, hwords u hu]

theorem isText_of_kind {t : Token} (h : Makes run m) (ht : t ∈ run)
    (hkind : t.kind ≠ .interpolation) :
    m.isText = true := by
  cases h with
  | interpolation hraw =>
    rw [List.mem_singleton.1 ht, Token.kind, hraw] at hkind
    exact absurd rfl hkind
  | text _ => rfl

theorem inOneText_eq_false (h : Makes run m) (h' : Makes run' m')
    (hapart : m.isText = false ∨ m'.isText = false) :
    inOneText (run.getLast h.ne_nil) (run'.head h'.ne_nil) = false := by
  rw [Bool.eq_false_iff]
  intro hone
  simp only [inOneText, Bool.and_eq_true, bne_iff_ne] at hone
  have htext := h.isText_of_kind (List.getLast_mem _) hone.1
  have htext' := h'.isText_of_kind (List.head_mem _) hone.2
  rcases hapart with hm | hm
  · rw [hm] at htext
    cases htext
  · rw [hm] at htext'
    cases htext'

theorem unique (h : Makes run m) (h' : Makes run m') : m = m' := by
  cases h with
  | @interpolation t raw hraw =>
    cases h' with
    | interpolation hraw' =>
      cases hraw.symm.trans hraw'
      rfl
    | text hwords => exact absurd (congrArg Lexeme.kind hraw) (hwords t List.mem_cons_self)
  | @text t ts hwords =>
    cases h' with
    | interpolation hraw => exact absurd (congrArg Lexeme.kind hraw) (hwords t List.mem_cons_self)
    | text _ => rfl

theorem exists_text_eq_empty {span : Span} (h : Makes run (.text "" span)) :
    ∃ t ∈ run, t.text = "" := by
  generalize hm : Markup.text "" span = m at h
  cases h with
  | interpolation _ => cases hm
  | @text t ts _ =>
    obtain ⟨hvalue, -⟩ := Markup.text.inj hm
    cases ts with
    | nil => exact ⟨t, List.mem_cons_self, by simpa using hvalue.symm⟩
    | cons u us =>
      have hblank : " ".length = 1 := rfl
      have hlength := congrArg String.length hvalue
      simp only [List.map_cons, String.intercalate_cons_cons, String.length_append,
        String.length_empty] at hlength
      omega

end Makes

namespace Divided

variable {line : List Token} {runs : List (List Token)} {content : List Markup}

theorem isChain_runs (hmakes : List.Forall₂ Makes runs content)
    (hapart : content.IsChain fun m m' => m.isText = false ∨ m'.isText = false) :
    runs.IsChain fun run run' => ∃ h h', inOneText (run.getLast h) (run'.head h') = false := by
  induction hmakes with
  | nil => exact .nil
  | cons hm hmakes ih =>
    cases hmakes with
    | nil => exact .singleton _
    | cons hm' _ =>
      obtain ⟨hmeet, hrest⟩ := List.isChain_cons_cons.1 hapart
      exact .cons_cons ⟨_, _, hm.inOneText_eq_false hm' hmeet⟩ (ih hrest)

theorem runs_eq (h : Divided line runs content) : runs = line.splitBy inOneText := by
  have hruns : ∀ run ∈ runs, run ≠ [] ∧ run.IsChain fun t u => inOneText t u = true :=
    ((List.forall₂_and_left _ _).1 (h.makes.imp fun _ _ hm => ⟨⟨hm.ne_nil, hm.isChain⟩, hm⟩)).1
  exact (List.splitBy_eq_iff.2
    ⟨h.flatten.symm, fun hnil => (hruns [] hnil).1 rfl, fun run hrun => (hruns run hrun).2,
      isChain_runs h.makes h.apart⟩).symm

theorem unique {runs' : List (List Token)} {content' : List Markup} (h : Divided line runs content)
    (h' : Divided line runs' content') : runs' = runs ∧ content' = content := by
  have hruns : runs' = runs := h'.runs_eq.trans h.runs_eq.symm
  have hunique : Relator.RightUnique Makes := fun _ _ _ => Makes.unique
  have hmakes := h'.makes
  rw [hruns] at hmakes
  exact ⟨hruns, hunique.forall₂ hmakes h.makes⟩

theorem exists_makes (h : Divided line runs content) {m : Markup} (hm : m ∈ content) :
    ∃ run, run ⊆ line ∧ Makes run m := by
  obtain ⟨rfl, hmakes, -⟩ := h
  induction hmakes with
  | nil => cases hm
  | cons hfirst _ ih =>
    rw [List.flatten_cons]
    rcases List.mem_cons.1 hm with rfl | hm
    · exact ⟨_, List.subset_append_left _ _, hfirst⟩
    · obtain ⟨run, hrun, hmake⟩ := ih hm
      exact ⟨run, List.subset_append_of_subset_right _ hrun, hmake⟩

end Divided

/-- A token that is no interpolation lengthens the text that follows it, or is a text of its own. -/
theorem ofTokens_divided (line : List Token) : ∃ runs, Divided line runs (ofTokens line) := by
  induction line with
  | nil => exact ⟨[], rfl, .nil, .nil⟩
  | cons t ts ih =>
    obtain ⟨runs, hflatten, hmakes, hapart⟩ := ih
    have hsingle : ([t] :: runs).flatten = t :: ts := by
      rw [List.flatten_cons, hflatten, List.singleton_append]
    rw [ofTokens]
    split
    · next raw hraw =>
      exact ⟨[t] :: runs, hsingle, .cons (.interpolation hraw) hmakes,
        List.isChain_cons.2 ⟨fun _ _ => .inl rfl, hapart⟩⟩
    · next hword =>
      have hkind : t.kind ≠ .interpolation := fun hkind => by
        obtain ⟨raw, hraw⟩ := Lexeme.exists_of_kind_interpolation hkind
        exact hword raw hraw
      unfold addText
      split
      · next value span rest hrest =>
        -- The first run is that of the text, and `t` goes to its front.
        rw [hrest] at hmakes hapart
        cases hmakes with
        | @cons _ _ runs _ hm hmakes =>
          cases hm with
          | @text u us hwords =>
            refine ⟨(t :: u :: us) :: runs, ?_, .cons ?_ hmakes, ?_⟩
            · rw [← hflatten]
              rfl
            · have hlonger := Makes.text (List.forall_mem_cons.2 ⟨hkind, hwords⟩)
              rwa [List.map_cons, List.map_cons, String.intercalate_cons_cons, List.getLastD_cons]
                at hlonger
            · exact List.isChain_cons.2 (List.isChain_cons.1 hapart)
      · next hrest =>
        refine ⟨[t] :: runs, hsingle, .cons ?_ hmakes, List.isChain_cons.2 ⟨fun m hm => ?_, hapart⟩⟩
        · have halone := Makes.text (List.forall_mem_singleton.2 hkind)
          rwa [List.map_singleton, String.intercalate_singleton] at halone
        · cases m with
          | text value span =>
            obtain ⟨rest, heq⟩ := List.head?_eq_some_iff.1 hm
            exact absurd heq (hrest value span rest)
          | _ => exact .inr rfl

theorem exists_makes_of_mem_ofTokens {line : List Token} {m : Markup} (hm : m ∈ ofTokens line) :
    ∃ run, run ⊆ line ∧ Makes run m := by
  obtain ⟨runs, hdivided⟩ := ofTokens_divided line
  exact hdivided.exists_makes hm

end Markup

theorem Lexeme.WellFormed.text_ne_empty {l : Lexeme} (h : l.WellFormed) : l.text ≠ "" := by
  cases l with
  | keyword k => cases k <;> decide
  | identifier name =>
    rintro rfl
    exact absurd h.1 (by decide)
  | number raw =>
    rintro rfl
    exact absurd rfl h.ne_nil
  | punct p => cases p <;> decide
  | _ => simp [Lexeme.text, Lexeme.value, String.append_eq_empty_iff]

namespace Markup

section Runs

open LayoutScript.Parser

theorem exec_parseNext (s : Inline) (t : Tape) :
    s.parseNext.exec t =
      if endsLine t.view.cur then .ok ((s, false), t)
      else .ok ((s.feed t.view.cur, true), t.advance) := by
  have hcurrent (f : Token → Parser (Inline × Bool)) :
      (current >>= f).exec t = (f t.view.cur).exec t := rfl
  rw [Inline.parseNext, hcurrent, endsLine, Inline.feed]
  cases t.view.cur.lexeme <;> rfl

/-- The loop takes in the tokens of the line, one in each pass, and leaves at its end. -/
theorem exec_loop_parseNext {line rest : List Token} {stop : Token} {n : Nat} {t : Tape}
    (s : Inline) (hreach : t.reach = line ++ stop :: rest) (hline : ∀ u ∈ line, endsLine u = false)
    (hstop : endsLine stop = true) (hn : line.length < n) :
    ∃ t', (loopWithin Inline.parseNext n s).exec t = .ok (line.foldl Inline.feed s, t') ∧
      t'.tokens = t.tokens ∧ t'.reach = stop :: rest := by
  induction line generalizing n s t with
  | nil =>
    obtain ⟨n, rfl⟩ := Nat.exists_eq_succ_of_ne_zero (Nat.ne_zero_of_lt hn)
    refine ⟨t, exec_bind_eq_ok.2 ⟨(s, false), t, ?_, rfl⟩, rfl, hreach⟩
    rw [exec_parseNext, Tape.cur_of_reach hreach, if_pos hstop]
  | cons u line ih =>
    obtain ⟨n, rfl⟩ := Nat.exists_eq_succ_of_ne_zero (Nat.ne_zero_of_lt hn)
    obtain ⟨hu, hline⟩ := List.forall_mem_cons.1 hline
    have hadvance : t.advance.reach = line ++ stop :: rest := by
      cases line with
      | nil => exact Tape.reach_advance hreach
      | cons v line => exact Tape.reach_advance hreach
    obtain ⟨t', hloop, htokens, hreach'⟩ :=
      ih (s.feed u) hadvance hline (Nat.lt_of_succ_lt_succ hn)
    refine ⟨t', exec_bind_eq_ok.2 ⟨(s.feed u, true), t.advance, ?_, hloop⟩, htokens, hreach'⟩
    rw [exec_parseNext, Tape.cur_of_reach hreach, hu, if_neg Bool.false_ne_true]

theorem exec_parseInline {line rest : List Token} {stop : Token} {t : Tape}
    (hreach : t.reach = line ++ stop :: rest) (hline : ∀ u ∈ line, endsLine u = false)
    (hstop : endsLine stop = true) :
    ∃ t', parseInline.exec t = .ok (ofTokens line, t') ∧ t'.tokens = t.tokens ∧
      t'.reach = stop :: rest := by
  have hleft : line.length < t.view.left + 1 := by
    have hlength := t.length_reach
    rw [hreach, List.length_append, List.length_cons] at hlength
    have : t.view.left = t.last.toNat - t.pos.toNat := rfl
    omega
  obtain ⟨t', hloop, htokens, hreach'⟩ := exec_loop_parseNext .empty hreach hline hstop hleft
  refine ⟨t', exec_bind_eq_ok.2 ⟨_, t', exec_bind_eq_ok.2 ⟨t.view, t, rfl, hloop⟩, ?_⟩, htokens,
    hreach'⟩
  rw [Inline.content_flush_foldl]
  rfl

theorem exec_parseInline_of_stays {t : Tape} (hcur : endsLine t.view.cur = false)
    (hstays : t.advance = t) : parseInline.exec t = .error ⟨.exhausted, t.view.cur⟩ := by
  have hstep (s : Inline) : ∃ s', s.parseNext.exec t = .ok ((s', true), t) := by
    refine ⟨s.feed t.view.cur, ?_⟩
    rw [exec_parseNext, hcur, if_neg Bool.false_ne_true, hstays]
  show (andThen (loop Inline.parseNext .empty) _).exec t = _
  rw [exec, show (loop Inline.parseNext .empty).exec t = _ from exec_loopWithin_of_stays hstep _ _]

end Runs

/-- The rest of a line that is in reach is divided into interpolations and texts between them, in
one way, and its end is left to read. Texts are empty only where tokens are, and those of a source
text never are. -/
theorem parseInline_divided {t : Tape} {line rest : List Token} {stop : Token}
    (hreach : t.reach = line ++ stop :: rest) (hline : ∀ u ∈ line, endsLine u = false)
    (hstop : endsLine stop = true) :
    ∃ content t', parseInline.exec t = .ok (content, t') ∧ t'.tokens = t.tokens ∧
      t'.reach = stop :: rest ∧ t'.view.cur = stop ∧
      Divided line (line.splitBy inOneText) content ∧
      (∀ runs content', Divided line runs content' →
        runs = line.splitBy inOneText ∧ content' = content) ∧
      (∀ span, .text "" span ∈ content → ∃ u ∈ line, u.text = "") ∧
      ∀ source code tokens, Token.ofText source code = .ok tokens → line ⊆ tokens →
        ∀ span, .text "" span ∉ content := by
  obtain ⟨runs, hdivided⟩ := ofTokens_divided line
  obtain rfl := hdivided.runs_eq
  obtain ⟨t', hexec, htokens, hreach'⟩ := exec_parseInline hreach hline hstop
  have hempty (span : Span) (hmem : .text "" span ∈ ofTokens line) : ∃ u ∈ line, u.text = "" := by
    obtain ⟨run, hrun, hmake⟩ := exists_makes_of_mem_ofTokens hmem
    obtain ⟨u, hu, htext⟩ := hmake.exists_text_eq_empty
    exact ⟨u, hrun hu, htext⟩
  refine ⟨ofTokens line, t', hexec, htokens, hreach', Tape.cur_of_reach hreach', hdivided,
    fun runs content' => hdivided.unique, hempty, fun source code tokens hscan hsub span hmem => ?_⟩
  obtain ⟨u, hu, htext⟩ := hempty span hmem
  exact (Token.ofText_wellFormed hscan u (hsub hu)).text_ne_empty htext

/-- A line with its tag: words at both ends, two interpolations that touch, and a sign by itself. -/
def greetingText : List Char :=
  "p Dear \x7b\x7b@title\x7d\x7d\x7b\x7b@name\x7d\x7d, \x7b\x7b@date\x7d\x7d end!".toList

def greeting : List Token :=
  [⟨.identifier "Dear", .onLine "m" 1 3 6⟩, ⟨.interpolation "@title", .onLine "m" 1 8 17⟩,
    ⟨.interpolation "@name", .onLine "m" 1 18 26⟩, ⟨.punct .comma, .onLine "m" 1 27 27⟩,
    ⟨.interpolation "@date", .onLine "m" 1 29 37⟩, ⟨.keyword .endWord, .onLine "m" 1 39 41⟩,
    ⟨.punct .bang, .onLine "m" 1 42 42⟩]

def greetingTag : Token := ⟨.identifier "p", .onLine "m" 1 1 1⟩

def greetingEnd : Token := ⟨.newline, .onLine "m" 1 43 43⟩

def greetingEof : Token := ⟨.eof, .onLine "m" 1 1 1⟩

def greetingTape : Tape :=
  ⟨(greetingTag :: greeting ++ [greetingEnd, greetingEof]).toArray, 1, by decide⟩

def greetingContent : List Markup :=
  [.text "Dear" (.onLine "m" 1 3 6), .interpolation "@title" (.onLine "m" 1 8 17),
    .interpolation "@name" (.onLine "m" 1 18 26), .text "," (.onLine "m" 1 27 27),
    .interpolation "@date" (.onLine "m" 1 29 37), .text "end !" (.onLine "m" 1 39 42)]

theorem parseInline_divided_greeting :
    Token.ofText "m" greetingText = .ok greetingTape.tokens.toList ∧
      greetingTape.reach = greeting ++ [greetingEnd, greetingEof] ∧
      (∀ u ∈ greeting, endsLine u = false) ∧ endsLine greetingEnd = true ∧
      (∃ t', parseInline.exec greetingTape = .ok (greetingContent, t') ∧
        t'.reach = [greetingEnd, greetingEof]) ∧
      Divided greeting (greeting.splitBy inOneText) greetingContent ∧
      ∀ span, .text "" span ∉ greetingContent := by
  have hscan : Token.ofText "m" greetingText = .ok greetingTape.tokens.toList := by decide +kernel
  have hreach : greetingTape.reach = greeting ++ [greetingEnd, greetingEof] := rfl
  have hline : ∀ u ∈ greeting, endsLine u = false := by decide
  obtain ⟨content, t', hexec, -, hreach', -, hdivided, -, -, hempty⟩ :=
    parseInline_divided hreach hline rfl
  obtain ⟨t'', hexec', -⟩ := exec_parseInline hreach hline rfl
  have hcontent : greetingContent = content :=
    (Prod.mk.inj (Except.ok.inj (hexec'.symm.trans hexec))).1
  rw [hcontent]
  refine ⟨hscan, hreach, hline, rfl, ⟨t', hexec, hreach'⟩, hdivided,
    hempty _ _ _ hscan fun u hu => ?_⟩
  exact List.mem_cons_of_mem _ (List.mem_append_left _ hu)

/-- The end of a line of `UInt32.size` words is out of reach, and the first word is read for
ever. -/
theorem long_line_unread : ∃ t : Tape,
    t.tokens.toList = List.replicate UInt32.size greetingTag ++ [greetingEnd] ∧ t.pos = 0 ∧
      endsLine greetingTag = false ∧ endsLine greetingEnd = true ∧
      ¬∃ r, parseInline.exec t = .ok r := by
  obtain ⟨n, hn⟩ : ∃ n, UInt32.size = n + 1 := ⟨UInt32.size - 1, rfl⟩
  have hlength : (List.replicate n greetingTag ++ [greetingEnd]).length = UInt32.size := by
    rw [List.length_append, List.length_replicate, hn]
    rfl
  refine ⟨.start greetingTag (List.replicate n greetingTag ++ [greetingEnd]), ?_, rfl, rfl, rfl, ?_⟩
  · rw [hn]
    rfl
  · rw [exec_parseInline_of_stays rfl (Tape.advance_start _ hlength)]
    rintro ⟨r, ⟨⟩⟩

end Markup

end LayoutScript

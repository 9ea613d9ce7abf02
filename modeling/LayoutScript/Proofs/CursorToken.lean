import LayoutScript.Editor.Hover
import LayoutScript.Proofs.DiagnosticRange
import LayoutScript.Proofs.ScriptLayout
import LayoutScript.Proofs.SpanNesting

/-! The token under the cursor. Spans count from one and include their last column, ranges count
from zero and stop before their end, and both are words that wrap. For a token, which stands on one
line, a span and its range hold the same positions, so the token that is found is the one whose
range holds the cursor. -/
namespace LayoutScript

def Position.place (pos : Position) : ℕ ×ₗ ℕ := toLex (pos.line.toNat, pos.character.toNat)

/-- A range holds its first position and not the one where it stops. -/
def Range.Holds (r : Range) (pos : Position) : Prop :=
  r.first.place ≤ pos.place ∧ pos.place < r.stop.place

instance (r : Range) (pos : Position) : Decidable (r.Holds pos) :=
  inferInstanceAs (Decidable (_ ∧ _))

namespace Span

structure InLine (s : Span) : Prop where
  line : s.lineStart = s.lineEnd
  number : 1 ≤ s.lineStart.toNat
  column : 1 ≤ s.columnStart.toNat

def Covers (s : Span) (line character : Nat) : Prop :=
  s.lineStart.toNat = line + 1 ∧ s.columnStart.toNat ≤ character + 1 ∧
    character + 1 ≤ s.columnEnd.toNat

variable {s : Span}

theorem toNat_zeroBased_word (n : UInt32) : (zeroBased n).toNat = n.toNat - 1 := by
  by_cases hpos : 1 ≤ n.toNat
  · have hword := toNat_zeroBased hpos n.toNat_lt_size
    rwa [UInt32.ofNat_toNat] at hword
  · have hzero : n = 0 := UInt32.toNat_inj.1 (by rw [UInt32.toNat_zero]; omega)
    rw [hzero]
    rfl

theorem InLine.holds_iff (h : s.InLine) (pos : Position) :
    s.toRange.Holds pos ↔ s.Covers pos.line.toNat pos.character.toNat := by
  obtain ⟨hline, hnumber, hcolumn⟩ := h
  simp only [Range.Holds, Position.place, toRange, Prod.Lex.toLex_le_toLex, Prod.Lex.toLex_lt_toLex,
    toNat_zeroBased_word, ← hline, Covers]
  omega

/-- A position at the end of the words wraps to zero, where no span starts. -/
theorem InLine.contains_iff (h : s.InLine) (pos : Position) :
    s.contains pos = true ↔ s.Covers pos.line.toNat pos.character.toNat := by
  obtain ⟨hline, hnumber, hcolumn⟩ := h
  have hlineWord := pos.line.toNat_lt_size
  have hcharacterWord := pos.character.toNat_lt_size
  have hend := s.columnEnd.toNat_lt_size
  have hstart := s.lineStart.toNat_lt_size
  simp only [contains, ← hline, Bool.and_eq_true, Bool.not_eq_true', Bool.or_eq_false_iff,
    Bool.and_eq_false_iff, decide_eq_false_iff_not, beq_eq_false_iff_ne, ne_eq,
    UInt32.lt_iff_toNat_lt, ← UInt32.toNat_inj, UInt32.toNat_add, UInt32.toNat_one, Covers]
  simp only [UInt32.size] at hlineWord hcharacterWord hend hstart
  omega

end Span

/-- The character at a line and a column, both counted from zero. A line feed is the last character
of its line. -/
def Text.charAt? : List Char → Nat → Nat → Option Char
  | [], _, _ => none
  | c :: _, 0, 0 => some c
  | c :: cs, 0, column + 1 => if c = '\n' then none else charAt? cs 0 column
  | c :: cs, line + 1, column => charAt? cs (if c = '\n' then line else line + 1) column

theorem Text.exists_line {cs : List Char} {i j : Nat} {c : Char} (h : charAt? cs i j = some c) :
    ∃ row, (lines cs)[i]? = some row ∧ (row[j]? = some c ∨ c = '\n') := by
  fun_induction charAt? cs i j with
  | case1 => cases h
  | case2 d cs =>
    cases h
    by_cases hfeed : c = '\n'
    · exact ⟨[], by rw [hfeed, lines_feed]; rfl, .inr hfeed⟩
    · obtain ⟨first, more, -, hcons⟩ := lines_cons hfeed cs
      exact ⟨c :: first, by rw [hcons]; rfl, .inl rfl⟩
  | case3 cs column => cases h
  | case4 d cs column hfeed ih =>
    obtain ⟨line, hline, hc⟩ := ih h
    obtain ⟨first, more, hlines, hcons⟩ := lines_cons hfeed cs
    rw [hlines] at hline
    cases hline
    exact ⟨d :: line, by rw [hcons]; rfl, hc⟩
  | case5 d cs i j ih =>
    obtain ⟨line, hline, hc⟩ := ih h
    refine ⟨line, ?_, hc⟩
    by_cases hfeed : d = '\n'
    · rw [if_pos hfeed] at hline
      rwa [hfeed, lines_feed, List.getElem?_cons_succ]
    · obtain ⟨first, more, hlines, hcons⟩ := lines_cons hfeed cs
      rw [if_neg hfeed, hlines, List.getElem?_cons_succ] at hline
      rwa [hcons, List.getElem?_cons_succ]

namespace Token

variable {source : String} {code : List Char} {tokens : List Token} {t : Token}

theorem Scans.exists_group {number : Nat} {levels levels' : Levels} {lines : List (List Char)}
    {ts : List Token} (h : Scans source number levels lines ts levels')
    (hn : ∀ line ∈ lines, '\n' ∉ line) (hlines : number + lines.length ≤ UInt32.size)
    (hw : ∀ line ∈ lines, line.length < UInt32.size) {i : Nat} {line : List Char}
    (hi : lines[i]? = some line) :
    ∃ group, OfLine source (number + i) line group ∧
      ∀ t, t ∈ solids group ↔ t ∈ solids ts ∧ t.span.lineStart.toNat = number + i := by
  induction h generalizing i with
  | nil => cases hi
  | @cons number levels levels₁ levels' first lines ts us hfirst hrest ih =>
    rw [List.length_cons] at hlines
    have hof := ofLine_sound (hn first List.mem_cons_self) hfirst
    have hn' : ∀ line ∈ lines, '\n' ∉ line := fun line hm => hn line (List.mem_cons_of_mem _ hm)
    have hw' : ∀ line ∈ lines, line.length < UInt32.size :=
      fun line hm => hw line (List.mem_cons_of_mem _ hm)
    have hnumber := (hof.ascending (by omega) (hw first List.mem_cons_self)).2
    have hlater := (hrest.ascending hn' (by omega) hw').2
    simp only [solids_append, List.mem_append]
    cases i with
    | zero =>
      cases hi
      refine ⟨ts, hof, fun t => ⟨fun ht => ⟨.inl ht, (hnumber t ht).1⟩, ?_⟩⟩
      rintro ⟨ht, hline⟩
      exact ht.resolve_right fun ht => absurd (hlater t ht) (by omega)
    | succ i =>
      obtain ⟨group, hgroup, hmem⟩ := ih hn' (by omega) hw' hi
      rw [Nat.add_right_comm] at hgroup hmem
      refine ⟨group, hgroup, fun t => (hmem t).trans ?_⟩
      refine and_congr_left fun hline => ⟨.inr, fun ht => ht.resolve_left fun ht => ?_⟩
      exact absurd (hnumber t ht).1 (by omega)

/-- What is known of a text that has tokens, if its lines and columns do not wrap. -/
structure Placed (source : String) (code : List Char) (tokens : List Token) : Prop where
  ascending : Ascending tokens
  group : ∀ i line, (Text.lines code)[i]? = some line →
    ∃ group, OfLine source (i + 1) line group ∧
      ∀ t, t ∈ solids group ↔ t ∈ solids tokens ∧ t.span.lineStart.toNat = i + 1
  inLine : ∀ t ∈ tokens, t.span.InLine
  width : ∀ line ∈ Text.lines code, line.length < UInt32.size

theorem ofText_placed (h : ofText source code = .ok tokens)
    (hlines : (Text.lines code).length < UInt32.size)
    (hw : ∀ line ∈ Text.lines code, line.length < UInt32.size - 1) : Placed source code tokens := by
  have hn : ∀ line ∈ Text.lines code, '\n' ∉ line := fun _ => Text.not_mem_of_mem_lines
  have hfit : ∀ line ∈ Text.lines code, line.length < UInt32.size := fun line hline =>
    Nat.lt_of_lt_of_le (hw line hline) (Nat.sub_le ..)
  have hwithin := ofText_within source hfit
  rw [h] at hwithin
  obtain ⟨ts, levels, last, hscan, htokens⟩ := ofLines_eq_ok h
  have hsolids : solids tokens = solids ts := by
    subst htokens
    have hclose : solids (List.replicate (levels.size - 1) ⟨.dedent, last⟩) = [] :=
      List.filter_replicate_of_neg Bool.false_ne_true
    rw [solids_append, solids_append, hclose, List.append_nil]
    exact List.append_nil _
  refine ⟨?_, fun i line hi => ?_, fun t ht => ?_, hfit⟩
  · obtain ⟨hordered, hapart⟩ := (hscan.ascending hn (by omega) hfit).1
    exact ⟨by rwa [hsolids], by rwa [hsolids]⟩
  · rw [hsolids, Nat.add_comm i]
    exact hscan.exists_group hn (by omega) hfit hi
  · obtain ⟨source, i, line, hi, first, last, hspan, hfirst, hle, hlast⟩ := hwithin t ht
    have hbound := (List.getElem?_eq_some_iff.1 hi).1
    have hwidth := hw line (List.mem_of_getElem? hi)
    rw [hspan]
    refine ⟨rfl, ?_, ?_⟩
    · exact (UInt32.toNat_ofNat_of_lt (by omega : i + 1 < UInt32.size)).ge.trans' (by omega)
    · exact (UInt32.toNat_ofNat_of_lt (by omega : first < UInt32.size)).ge.trans' hfirst

def under (tokens : List Token) (pos : Position) : List Token :=
  tokens.filter fun t => !t.kind.isLayout && t.span.toRange.Holds pos

@[simp] theorem mem_under {pos : Position} :
    t ∈ under tokens pos ↔ t ∈ tokens ∧ t.kind.isLayout = false ∧ t.span.toRange.Holds pos := by
  simp [under]

namespace Placed

variable {pos : Position}

theorem covers_iff_holds (h : Placed source code tokens) (ht : t ∈ tokens) :
    t.span.Covers pos.line.toNat pos.character.toNat ↔ t.span.toRange.Holds pos :=
  ((h.inLine t ht).holds_iff pos).symm

/-- Of two tokens the first ends before the second starts, so a position is in one of them at
most. -/
theorem length_under_le (h : Placed source code tokens) (pos : Position) :
    (under tokens pos).length ≤ 1 := by
  have hunder : under tokens pos = (solids tokens).filter fun t => t.span.toRange.Holds pos := by
    rw [solids, List.filter_filter]
    exact List.filter_congr fun t _ => Bool.and_comm ..
  have hapart : (under tokens pos).Pairwise fun t u => t.span.stop < u.span.start := by
    rw [hunder]
    exact h.ascending.apart.sublist List.filter_sublist
  have hcovers (t : Token) (ht : t ∈ under tokens pos) :
      t.span.Covers pos.line.toNat pos.character.toNat ∧ t.span.lineStart = t.span.lineEnd := by
    obtain ⟨hmem, -, hholds⟩ := mem_under.1 ht
    exact ⟨(h.covers_iff_holds hmem).2 hholds, (h.inLine t hmem).line⟩
  cases htwo : under tokens pos with
  | nil => exact Nat.zero_le 1
  | cons t rest =>
    cases rest with
    | nil => exact Nat.le_refl 1
    | cons u rest =>
      rw [htwo] at hapart hcovers
      have hlt := (List.pairwise_cons.1 hapart).1 u List.mem_cons_self
      obtain ⟨⟨hline, -, hlast⟩, hend⟩ := hcovers t List.mem_cons_self
      obtain ⟨⟨hline', hfirst, -⟩, -⟩ := hcovers u (List.mem_cons_of_mem _ List.mem_cons_self)
      rw [Span.stop, Span.start, Prod.Lex.toLex_lt_toLex, ← hend] at hlt
      omega

theorem at?_eq_head? (h : Placed "" code tokens) (hok : ofText "" code = .ok tokens)
    (pos : Position) :
    Token.at? code pos = (under tokens pos).head? := by
  rw [Token.at?, hok]
  dsimp only
  rw [← List.head?_filter, under]
  refine congrArg List.head? (List.filter_congr fun t ht => congrArg (!t.kind.isLayout && ·) ?_)
  rw [Bool.eq_iff_iff, decide_eq_true_iff, ← h.covers_iff_holds ht]
  exact (h.inLine t ht).contains_iff pos

theorem exists_group (h : Placed source code tokens) {line : List Char}
    (hline : (Text.lines code)[pos.line.toNat]? = some line) :
    ∃ group, OfLine source (pos.line.toNat + 1) line group ∧ ∀ t, t ∈ under tokens pos ↔
      t ∈ solids group ∧ t.first ≤ pos.character.toNat + 1 ∧ pos.character.toNat + 1 ≤ t.last := by
  obtain ⟨group, hgroup, hmem⟩ := h.group _ line hline
  refine ⟨group, hgroup, fun t => ?_⟩
  rw [mem_under, hmem, mem_solids]
  constructor
  · rintro ⟨ht, hlayout, hholds⟩
    obtain ⟨hstart, hcolumns⟩ := (h.covers_iff_holds ht).2 hholds
    exact ⟨⟨⟨ht, congrArg not hlayout⟩, hstart⟩, hcolumns⟩
  · rintro ⟨⟨⟨ht, hsolid⟩, hstart⟩, hcolumns⟩
    exact ⟨ht, (Bool.not_eq_true' _).mp hsolid, (h.covers_iff_holds ht).1 ⟨hstart, hcolumns⟩⟩

theorem under_eq_nil_of_remark (h : Placed source code tokens) {line : List Char}
    (hline : (Text.lines code)[pos.line.toNat]? = some line) (hremark : Text.IsRemark line) :
    under tokens pos = [] := by
  obtain ⟨group, hgroup, hunder⟩ := h.exists_group hline
  have hskip := isSkipped_iff_isRemark.2 hremark
  rw [List.eq_nil_iff_forall_not_mem]
  intro t ht
  have hsolid := ((hunder t).1 ht).1
  cases hgroup with
  | skipped _ => cases hsolid
  | laid hlaid _ _ =>
    rw [hskip] at hlaid
    cases hlaid

theorem isBlank_of_under_eq_nil (h : Placed source code tokens) {row : List Char} {c : Char}
    (hline : (Text.lines code)[pos.line.toNat]? = some row) (hcode : ¬Text.IsRemark row)
    (hc : row[pos.character.toNat]? = some c) (hunder : under tokens pos = []) :
    Text.isBlank c = true := by
  obtain ⟨group, hgroup, hmem⟩ := h.exists_group hline
  have hskip : isSkipped row = false := by
    rw [← Bool.not_eq_true, isSkipped_iff_isRemark]
    exact hcode
  have htiles := hgroup.tiles hskip (h.width row (List.mem_of_getElem? hline))
  refine htiles.blank _ c hc fun t ht hcolumns => ?_
  have hmem' := (hmem t).2 ⟨ht, hcolumns⟩
  rw [hunder] at hmem'
  cases hmem'

end Placed

end Token

/-- The token under the cursor, for a text that has tokens and whose lines and columns do not wrap.
A token is found exactly if its range holds the position, there is one such token at most, and a
character of the text has none exactly if it is a blank between tokens or stands on a line without
code. -/
theorem Token.found_under_cursor {code : List Char} {tokens : List Token}
    (h : Token.ofText "" code = .ok tokens) (hlines : (Text.lines code).length < UInt32.size)
    (hwidth : ∀ line ∈ Text.lines code, line.length < UInt32.size - 1) (pos : Position) :
    (∀ t, Token.at? code pos = some t ↔
      t ∈ tokens ∧ t.kind.isLayout = false ∧ t.span.toRange.Holds pos) ∧
    (tokens.filter fun t => !t.kind.isLayout && t.span.toRange.Holds pos).length ≤ 1 ∧
    ∀ c, Text.charAt? code pos.line.toNat pos.character.toNat = some c →
      (Token.at? code pos = none ↔
        (Text.isBlank c = true ∧
          ∀ t ∈ tokens, t.kind.isLayout = false → ¬t.span.toRange.Holds pos) ∨
        ∃ line, (Text.lines code)[pos.line.toNat]? = some line ∧ Text.IsRemark line) := by
  have hplaced := ofText_placed h hlines hwidth
  have hat := hplaced.at?_eq_head? h pos
  have hone := hplaced.length_under_le pos
  refine ⟨fun t => ?_, hone, fun c hc => ?_⟩
  · rw [hat, ← mem_under]
    cases hunder : under tokens pos with
    | nil => simp
    | cons u rest =>
      rw [hunder, List.length_cons] at hone
      obtain rfl : rest = [] := List.length_eq_zero_iff.1 (by omega)
      rw [List.head?_cons, Option.some.injEq, List.mem_singleton, eq_comm]
  · rw [hat, List.head?_eq_none_iff]
    constructor
    · intro hnone
      obtain ⟨line, hline, hplace⟩ := Text.exists_line hc
      by_cases hremark : Text.IsRemark line
      · exact .inr ⟨line, hline, hremark⟩
      · refine .inl ⟨?_, fun t ht hlayout hholds => ?_⟩
        · rcases hplace with hplace | rfl
          · exact hplaced.isBlank_of_under_eq_nil hline hremark hplace hnone
          · rfl
        · have hmem := mem_under.2 ⟨ht, hlayout, hholds⟩
          rw [hnone] at hmem
          cases hmem
    · rintro (⟨-, hout⟩ | ⟨line, hline, hremark⟩)
      · rw [List.eq_nil_iff_forall_not_mem]
        intro t ht
        obtain ⟨hmem, hlayout, hholds⟩ := mem_under.1 ht
        exact hout t hmem hlayout hholds
      · exact hplaced.under_eq_nil_of_remark hline hremark

/-- Tokens with nothing between them, a blank inside a token, a carriage return and a comment. -/
def cursorText : List Char := "x==1 \x7b\x7b y \x7d\x7d\r\n  # note".toList

theorem Token.found_under_cursor_edges : ∃ tokens, Token.ofText "" cursorText = .ok tokens ∧
    (∃ t ∈ tokens, t.lexeme = .punct .equalEqual ∧ Token.at? cursorText ⟨0, 2⟩ = some t ∧
      t.span.toRange.Holds ⟨0, 2⟩) ∧
    (tokens.filter fun t => !t.kind.isLayout && t.span.toRange.Holds ⟨0, 2⟩).length ≤ 1 ∧
    Token.at? cursorText ⟨1, 4⟩ = none := by
  have hok : (Token.ofText "" cursorText).isOk = true := by decide +kernel
  have hfits : (Text.lines cursorText).length < UInt32.size ∧
      ∀ line ∈ Text.lines cursorText, line.length < UInt32.size - 1 := by decide +kernel
  have hsign : (Token.at? cursorText ⟨0, 2⟩).any (fun t => t.lexeme = .punct .equalEqual) =
      true := by
    decide +kernel
  cases h : Token.ofText "" cursorText with
  | error e =>
    rw [h] at hok
    cases hok
  | ok tokens =>
    obtain ⟨hfinds, hone, -⟩ := Token.found_under_cursor h hfits.1 hfits.2 ⟨0, 2⟩
    obtain ⟨t, hat, hlexeme⟩ := (Option.any_eq_true ..).1 hsign
    obtain ⟨hmem, -, hholds⟩ := (hfinds t).1 hat
    refine ⟨tokens, rfl, ⟨t, hmem, of_decide_eq_true hlexeme, hat, hholds⟩, hone, ?_⟩
    obtain ⟨-, -, hnote⟩ := Token.found_under_cursor h hfits.1 hfits.2 ⟨1, 4⟩
    exact (hnote 'n' (by decide +kernel)).2
      (.inr ⟨"  # note".toList, by decide +kernel, by decide +kernel⟩)

end LayoutScript

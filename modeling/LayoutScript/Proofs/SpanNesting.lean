import Mathlib.Data.Prod.Lex
import LayoutScript.Proofs.LineScan
import LayoutScript.Proofs.LineTokens
import LayoutScript.Proofs.OutlineWalk
import LayoutScript.Proofs.RoundTrip
import LayoutScript.Proofs.TokenRanges

/-! Spans nest as the tree does. The tokens of a text stand one after another, so a node that is
made up of some of the tokens of another lies inside it. Lines and columns are words, and two places
compare as they stand in the text as long as neither wraps. -/
namespace LayoutScript

namespace Span

def start (s : Span) : ℕ ×ₗ ℕ := toLex (s.lineStart.toNat, s.columnStart.toNat)

def stop (s : Span) : ℕ ×ₗ ℕ := toLex (s.lineEnd.toNat, s.columnEnd.toNat)

def Ordered (s : Span) : Prop := s.start ≤ s.stop

def Encloses (outer inner : Span) : Prop := outer.start ≤ inner.start ∧ inner.stop ≤ outer.stop

instance (s : Span) : Decidable s.Ordered := inferInstanceAs (Decidable (_ ≤ _))

instance (outer inner : Span) : Decidable (outer.Encloses inner) :=
  inferInstanceAs (Decidable (_ ∧ _))

end Span

def solids (ts : List Token) : List Token := ts.filter fun t => t.lexeme.isSolid

section Solids

variable {t : Token} {ts us : List Token}

@[simp] theorem mem_solids : t ∈ solids ts ↔ t ∈ ts ∧ t.lexeme.isSolid = true := List.mem_filter

@[simp] theorem solids_append : solids (ts ++ us) = solids ts ++ solids us :=
  List.filter_append ts us

theorem solids_cons (ht : t.lexeme.isSolid = true) : solids (t :: ts) = t :: solids ts := by
  rw [solids, List.filter_cons, if_pos ht, solids]

end Solids

/-- The solid tokens stand one after another. -/
structure Ascending (ts : List Token) : Prop where
  ordered : ∀ t ∈ solids ts, t.span.Ordered
  apart : (solids ts).Pairwise fun t u => t.span.stop < u.span.start

namespace Ascending

variable {ts us : List Token} {t first last : Token}

theorem of_solids_eq_nil (h : solids ts = []) : Ascending ts := by
  constructor
  · rw [h]
    exact fun t ht => absurd ht List.not_mem_nil
  · rw [h]
    exact .nil

theorem part (h : Ascending ts) (hpart : us <:+: ts) : Ascending us := by
  have hsub : (solids us).Sublist (solids ts) := hpart.sublist.filter _
  exact ⟨fun t ht => h.ordered t (hsub.subset ht), h.apart.sublist hsub⟩

theorem append (h : Ascending ts) (h' : Ascending us)
    (hapart : ∀ t ∈ solids ts, ∀ u ∈ solids us, t.span.stop < u.span.start) :
    Ascending (ts ++ us) := by
  constructor
  · rw [solids_append]
    exact List.forall_mem_append.2 ⟨h.ordered, h'.ordered⟩
  · rw [solids_append]
    exact List.pairwise_append.2 ⟨h.apart, h'.apart, hapart⟩

theorem start_le (h : Ascending ts) (hfirst : ts.head? = some first)
    (hsolid : first.lexeme.isSolid = true) (ht : t ∈ ts) (htsolid : t.lexeme.isSolid = true) :
    first.span.start ≤ t.span.start := by
  obtain ⟨us, rfl⟩ := List.head?_eq_some_iff.1 hfirst
  rcases List.mem_cons.1 ht with rfl | ht
  · exact le_rfl
  · have hordered := h.ordered first (mem_solids.2 ⟨List.mem_cons_self, hsolid⟩)
    have hapart := h.apart
    rw [solids_cons hsolid, List.pairwise_cons] at hapart
    exact hordered.trans (hapart.1 t (mem_solids.2 ⟨ht, htsolid⟩)).le

theorem le_stop (h : Ascending ts) (hlast : ts.getLast? = some last)
    (hsolid : last.lexeme.isSolid = true) (ht : t ∈ ts) (htsolid : t.lexeme.isSolid = true) :
    t.span.stop ≤ last.span.stop := by
  obtain ⟨us, rfl⟩ := List.getLast?_eq_some_iff.1 hlast
  rcases List.mem_append.1 ht with ht | ht
  · have hordered := h.ordered last (mem_solids.2 ⟨by simp, hsolid⟩)
    have hapart := h.apart
    rw [solids_append, List.pairwise_append] at hapart
    have hbefore := hapart.2.2 t (mem_solids.2 ⟨ht, htsolid⟩) last (mem_solids.2 ⟨by simp, hsolid⟩)
    exact hbefore.le.trans hordered
  · rw [List.mem_singleton.1 ht]

end Ascending

section Nesting

variable {ts us : List Token} {s s' : Span}

theorem Spanned.encloses (ha : Ascending ts) (h : Spanned ts s) (h' : Spanned us s')
    (hpart : us <:+: ts) : s.Encloses s' := by
  obtain ⟨first, last, hfirst, hlast, hsolid, hsolid', rfl⟩ := h
  obtain ⟨first', last', hfirst', hlast', hinner, hinner', rfl⟩ := h'
  constructor
  · exact ha.start_le hfirst hsolid (hpart.subset (List.mem_of_head? hfirst')) hinner
  · exact ha.le_stop hlast hsolid' (hpart.subset (List.mem_of_getLast? hlast')) hinner'

theorem Spanned.ordered (ha : Ascending ts) (h : Spanned ts s) : s.Ordered := by
  obtain ⟨first, last, hfirst, hlast, hsolid, hsolid', rfl⟩ := h
  have hmem := List.mem_of_getLast? hlast
  have hordered := ha.ordered last (mem_solids.2 ⟨hmem, hsolid'⟩)
  exact (ha.start_le hfirst hsolid hmem hsolid').trans hordered

end Nesting

namespace Outline

variable {tokens ts : List Token} {o : Outline}

/-- The span of a node is in order and encloses those of its children, but for an element inside an
element. -/
def Nests (n : Outline) : Prop :=
  n.span.Ordered ∧ ∀ c ∈ n.children, ¬(n.kind = .jsxElement ∧ c.kind = .jsxElement) →
    n.span.Encloses c.span

theorem MadeOf.nests (ha : Ascending ts) (h : MadeOf tokens ts o) : o.Nests := by
  obtain ⟨kind, span, children⟩ := o
  obtain ⟨hspan, hchildren⟩ := madeOf_node_iff.1 h
  refine ⟨hspan.ordered ha, fun c hc (hkind : ¬(kind = .jsxElement ∧ c.kind = .jsxElement)) => ?_⟩
  obtain ⟨us, hus, hpart⟩ := hchildren c hc
  rw [if_neg hkind] at hpart
  exact hspan.encloses ha hus.spanned hpart

theorem StandsIn.walk (skip : NodeKind → Bool) (h : o.StandsIn tokens tokens) :
    ∀ n ∈ o.walk skip, n.StandsIn tokens tokens := by
  refine forall_walk skip (fun o _ ho c hc => ?_) o h
  obtain ⟨kind, span, children⟩ := o
  obtain ⟨us, hus, hpart⟩ := ho
  have hchild := (madeOf_node_iff.1 hus).2 c hc
  split at hchild
  · exact hchild
  · exact hchild.mono hpart

end Outline

/-! ### The tokens of a text -/

namespace Token

variable {source : String} {number : Nat} {levels levels' : Levels} {line : List Char}
  {lines : List (List Char)} {ts : List Token}

theorem OfLine.ascending (h : OfLine source number line ts) (hnumber : number < UInt32.size)
    (hw : line.length < UInt32.size) :
    Ascending ts ∧ ∀ t ∈ solids ts,
      t.span.lineStart.toNat = number ∧ t.span.lineEnd.toNat = number := by
  cases hskip : isSkipped line with
  | true =>
    cases h with
    | skipped _ => exact ⟨.of_solids_eq_nil rfl, fun t ht => absurd ht List.not_mem_nil⟩
    | laid hlaid _ _ =>
      rw [hskip] at hlaid
      cases hlaid
  | false =>
    have htiles := h.tiles hskip hw
    have hline : ∀ t ∈ solids ts,
        t.span.lineStart.toNat = number ∧ t.span.lineEnd.toNat = number := by
      intro t ht
      obtain ⟨hstart, hend⟩ := htiles.lines t ht
      have hword : (UInt32.ofNat number).toNat = number := UInt32.toNat_ofNat_of_lt hnumber
      rw [hstart, hend]
      exact ⟨hword, hword⟩
    refine ⟨⟨fun t ht => ?_, ?_⟩, hline⟩
    · obtain ⟨hstart, hend⟩ := hline t ht
      exact Prod.Lex.toLex_le_toLex.2 (.inr ⟨hstart.trans hend.symm, (htiles.columns t ht).2.1⟩)
    · refine htiles.increasing.imp_of_mem fun ht hu hlt => ?_
      exact Prod.Lex.toLex_lt_toLex.2 (.inr ⟨(hline _ ht).2.trans (hline _ hu).1.symm, hlt⟩)

theorem Scans.ascending (h : Scans source number levels lines ts levels')
    (hn : ∀ line ∈ lines, '\n' ∉ line) (hlines : number + lines.length ≤ UInt32.size)
    (hw : ∀ line ∈ lines, line.length < UInt32.size) :
    Ascending ts ∧ ∀ t ∈ solids ts, number ≤ t.span.lineStart.toNat := by
  induction h with
  | nil => exact ⟨.of_solids_eq_nil rfl, fun t ht => absurd ht List.not_mem_nil⟩
  | @cons number levels levels₁ levels' line lines ts us hline _ ih =>
    rw [List.length_cons] at hlines
    obtain ⟨hfirst, hnumber⟩ := (ofLine_sound (hn line List.mem_cons_self) hline).ascending
      (by omega) (hw line List.mem_cons_self)
    obtain ⟨hrest, hlater⟩ := ih (fun line hm => hn line (List.mem_cons_of_mem _ hm)) (by omega)
      (fun line hm => hw line (List.mem_cons_of_mem _ hm))
    refine ⟨hfirst.append hrest fun t ht u hu => ?_, ?_⟩
    · -- Across lines the columns do not count.
      have hline := (hnumber t ht).2
      have hlater := hlater u hu
      exact Prod.Lex.toLex_lt_toLex.2 (.inl (by simp only [hline]; omega))
    · rw [solids_append]
      refine List.forall_mem_append.2 ⟨fun t ht => (hnumber t ht).1.ge, fun t ht => ?_⟩
      have := hlater t ht
      omega

end Token

/-- A number that stands `n` blanks behind the sign of an assignment. -/
def distantNumber (n : Nat) : List Char := "x =".toList ++ List.replicate n ' ' ++ ['1']

theorem check_distantNumber (n : Nat) : check "m" (distantNumber (n + 1)) =
    .ok ⟨[.assign "x" (.number "1" (.ofWidth "m" 1 (4 + (n + 1)) 1))
      ((Span.ofWidth "m" 1 1 1).join (.ofWidth "m" 1 (4 + (n + 1)) 1))]⟩ := by
  have hequal : Token.Lexes "m" 1 3 Loose (Lexeme.punct .equal).text.toList _ := .lone rfl trivial
  have hname : Token.Lexes "m" 1 1 Loose _ _ :=
    .after (l := .identifier "x") rfl ⟨by decide, by decide⟩ hequal
  have hnumber : Token.Lexes "m" 1 (4 + (n + 1)) Loose (Lexeme.number "1").text.toList _ :=
    .lone rfl (.whole (by decide) (List.all_eq_true.1 (by decide)))
  have hlex := hname.append_blanks (n + 1) hnumber fun _ _ => Loose.blank _
  refine hlex.check_sentence (fun next hnext => ?_) (show 5 ≤ UInt32.size by decide)
  have hvalue : Expr.Level Expr.Expression [⟨.number "1", .ofWidth "m" 1 (4 + (n + 1)) 1⟩] next _ :=
    .operand (.atom rfl) (by rw [hnext]; rfl)
  exact .assign rfl rfl (.mk (.of id hvalue))

/-- The tree of an accepted text. The span of every node runs from the first to the last of its
tokens, which are also those of its children, but for an element inside an element. So spans are in
order and nest, as long as lines and columns do not wrap. -/
theorem spans_nest {source : String} {code : List Char} {p : Program}
    (h : check source code = .ok p) :
    (∃ tokens last, Token.ofText source code = .ok (tokens ++ [last]) ∧
      (p.body ≠ [] → p.outline.StandsIn tokens tokens)) ∧
    ((∀ line ∈ Text.lines code, line.length < UInt32.size) →
      ∀ n ∈ p.outline.walk fun _ => false, n.Nests) := by
  obtain ⟨tokens, next, hscan, -, -, hrule⟩ := check_scans h
  obtain ⟨last, htokens⟩ := hscan.gives.ofText
  have hstands : p.body ≠ [] → p.outline.StandsIn tokens tokens := by
    cases hrule with
    | @mk ns us _ body _ hss =>
      have hpart : us <:+: ns ++ us := ⟨ns, [], by simp⟩
      exact fun hne => (hss.stands hscan.tidy hpart hne).mono hpart
  refine ⟨⟨tokens, _, htokens, hstands⟩, fun hw n hn => ?_⟩
  obtain ⟨body⟩ := p
  by_cases hbody : body = []
  · subst hbody
    obtain rfl := List.mem_singleton.1 hn
    exact ⟨by decide, fun c hc => absurd hc List.not_mem_nil⟩
  · obtain ⟨us, hus, hpart⟩ := (hstands hbody).walk _ n hn
    have hlines := length_lines_of_check h
    obtain ⟨hascending, -⟩ := hscan.ascending (fun _ => Text.not_mem_of_mem_lines) (by omega) hw
    exact hus.nests (hascending.part hpart)

/-- Parentheses around a condition and around a value, a chain of accesses, and an element below the
line of another. -/
def nestedCard : List Char :=
  ("component Card\n  def go\n    if (a + 1)\n      @log(f(2).g, x)\n    end\n  end\n  render\n" ++
    "    div.box(id = (n + 1)) hi \x7b\x7bname\x7d\x7d\n      p title\n  end\nend").toList

theorem spans_nest_nestedCard : ∃ p, check "m" nestedCard = .ok p ∧
    (∃ tokens last, Token.ofText "m" nestedCard = .ok (tokens ++ [last]) ∧
      p.outline.StandsIn tokens tokens) ∧
    (∀ n ∈ p.outline.walk fun _ => false, n.Nests) ∧
    ∃ n ∈ p.outline.walk fun _ => false, ∃ c ∈ n.children, ¬n.span.Encloses c.span := by
  obtain ⟨p, hp, htest⟩ : ∃ p, check "m" nestedCard = .ok p ∧
      (!p.body.isEmpty && (p.outline.walk fun _ => false).any fun n =>
        n.children.any fun c => !decide (n.span.Encloses c.span)) = true :=
    exists_check_ok (by decide +kernel)
  simp only [Bool.and_eq_true, Bool.not_eq_true', List.isEmpty_eq_false_iff, List.any_eq_true,
    decide_eq_false_iff_not] at htest
  obtain ⟨hbody, hout⟩ := htest
  have hfits : ∀ line ∈ Text.lines nestedCard, line.length < UInt32.size :=
    Text.forall_lines_toList (by decide +kernel)
  obtain ⟨⟨tokens, last, htokens, hstands⟩, hnests⟩ := spans_nest hp
  exact ⟨p, hp, ⟨tokens, last, htokens, hstands hbody⟩, hnests hfits, hout⟩

/-- A column that wraps to zero. -/
theorem assignment_ends_before_start : ∃ p, check "m" (distantNumber (UInt32.size - 4)) = .ok p ∧
    ∃ n ∈ p.outline.walk fun _ => false, n.kind = .assignment ∧ n.span = ⟨1, 1, 1, 0, "m"⟩ ∧
      ¬n.span.Ordered := by
  obtain ⟨n, hn, hsize⟩ : ∃ n, UInt32.size - 4 = n + 1 ∧ 4 + (n + 1) = UInt32.size :=
    ⟨UInt32.size - 5, rfl, rfl⟩
  have hcheck := check_distantNumber n
  rw [hsize] at hcheck
  rw [hn]
  refine ⟨_, hcheck, _, List.mem_cons_of_mem _ List.mem_cons_self, rfl, ?_⟩
  decide

end LayoutScript

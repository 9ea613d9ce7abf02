import LayoutScript.Proofs.ModuleFacts

/-! What the clean-up of a script changes. On any text without carriage returns it only takes line
feeds away, and leaves the lines that hold something as they are. The lines of a script may hold
returns, but none ends in one, so this is true of them as well. -/
namespace LayoutScript

namespace Text

def filled (cs : List Char) : List (List Char) := (lines cs).filter (!·.isEmpty)

/-! ### Line feeds in a row -/

theorem limitFeeds_sublist (cs : List Char) : (limitFeeds cs).Sublist cs := by
  induction cs with
  | nil => exact .slnil
  | cons c cs ih =>
    rw [limitFeeds]
    split
    · exact ih.cons c
    · exact ih.cons_cons c

theorem head?_limitFeeds (cs : List Char) : (limitFeeds cs).head? = cs.head? := by
  induction cs with
  | nil => rfl
  | cons c cs ih =>
    rw [limitFeeds]
    split
    · next h =>
      obtain ⟨rfl, rest, rfl⟩ := h
      exact ih
    · rfl

theorem feeds_prefix_limitFeeds {cs : List Char} (h : ['\n', '\n'] <+: limitFeeds cs) :
    ['\n', '\n'] <+: cs := by
  cases cs with
  | nil => exact h
  | cons c cs =>
    rw [limitFeeds] at h
    split at h
    · next hdrop =>
      obtain ⟨rfl, hcs⟩ := hdrop
      exact List.cons_prefix_cons.2 ⟨rfl, .trans ⟨['\n'], rfl⟩ hcs⟩
    · obtain ⟨rfl, hrest⟩ := List.cons_prefix_cons.1 h
      refine List.cons_prefix_cons.2 ⟨rfl, ?_⟩
      have hhead : (limitFeeds cs).head? = some '\n' := by
        obtain ⟨rest, hrest⟩ := hrest
        rw [← hrest]
        rfl
      rw [head?_limitFeeds] at hhead
      obtain ⟨rest, rfl⟩ := List.head?_eq_some_iff.1 hhead
      exact ⟨rest, rfl⟩

theorem limitFeeds_no_run (cs : List Char) : ¬ ['\n', '\n', '\n'] <:+: limitFeeds cs := by
  induction cs with
  | nil => exact fun h => absurd (List.infix_nil.1 h) (by simp)
  | cons c cs ih =>
    rw [limitFeeds]
    split
    · exact ih
    · next hkeep =>
      intro h
      rcases List.infix_cons_iff.1 h with h | h
      · obtain ⟨rfl, hrest⟩ := List.cons_prefix_cons.1 h
        exact hkeep ⟨rfl, feeds_prefix_limitFeeds hrest⟩
      · exact ih h

theorem limitFeeds_of_no_run {cs : List Char} (h : ¬ ['\n', '\n', '\n'] <:+: cs) :
    limitFeeds cs = cs := by
  induction cs with
  | nil => rfl
  | cons c cs ih =>
    rw [List.infix_cons_iff, not_or] at h
    rw [limitFeeds, if_neg, ih h.2]
    rintro ⟨rfl, hcs⟩
    exact h.1 (List.cons_prefix_cons.2 ⟨rfl, hcs⟩)

/-- The first line stays even if it is empty: what comes before it may belong to it. -/
theorem lines_limitFeeds (cs : List Char) : ∃ first rest rest', lines cs = first :: rest ∧
    lines (limitFeeds cs) = first :: rest' ∧
    rest'.filter (!·.isEmpty) = rest.filter (!·.isEmpty) := by
  induction cs with
  | nil => exact ⟨[], [], [], rfl, rfl, rfl⟩
  | cons c cs ih =>
    obtain ⟨first, rest, rest', hlines, hlines', hfilter⟩ := ih
    rw [limitFeeds]
    split
    · next h =>
      obtain ⟨rfl, cs, rfl⟩ := h
      rw [List.cons_append, lines_feed] at hlines
      obtain ⟨rfl, rfl⟩ := List.cons.inj hlines
      refine ⟨[], _, rest', lines_feed _, hlines', ?_⟩
      rw [List.cons_append, lines_feed, List.filter_cons_of_neg (by simp)]
      exact hfilter
    · by_cases hc : c = '\n'
      · subst hc
        refine ⟨[], lines cs, _, lines_feed _, lines_feed _, ?_⟩
        rw [hlines, hlines', List.filter_cons, List.filter_cons, hfilter]
      · obtain ⟨first', more, hcs, hline⟩ := lines_cons hc cs
        obtain ⟨first'', more', hcs', hline'⟩ := lines_cons hc (limitFeeds cs)
        obtain ⟨rfl, rfl⟩ := List.cons.inj (hcs.symm.trans hlines)
        obtain ⟨rfl, rfl⟩ := List.cons.inj (hcs'.symm.trans hlines')
        exact ⟨_, _, _, hline, hline', hfilter⟩

theorem filled_limitFeeds (cs : List Char) : filled (limitFeeds cs) = filled cs := by
  obtain ⟨first, rest, rest', hlines, hlines', hfilter⟩ := lines_limitFeeds cs
  rw [filled, filled, hlines, hlines', List.filter_cons, List.filter_cons, hfilter]

/-! ### Blank lines in a row -/

theorem head?_mergeBlank (rows : List (List Char)) : (mergeBlank rows).head? = rows.head? := by
  induction rows with
  | nil => rfl
  | cons row rows ih =>
    rw [mergeBlank]
    split
    · next h => rw [ih, h.2, h.1, List.head?_cons]
    · rfl

theorem spaced_mergeBlank (rows : List (List Char)) : Spaced (mergeBlank rows) := by
  induction rows with
  | nil => exact .nil
  | cons row rows ih =>
    rw [mergeBlank]
    split
    · exact ih
    · next h =>
      refine List.isChain_cons.2 ⟨fun next hnext => ?_, ih⟩
      rw [head?_mergeBlank] at hnext
      by_cases hrow : row = []
      · exact .inr fun hblank => h ⟨hrow, hblank ▸ hnext⟩
      · exact .inl hrow

theorem dropBlankEnd_prefix (rows : List (List Char)) : dropBlankEnd rows <+: rows := by
  have hsuffix := List.dropWhile_suffix (List.isEmpty) (l := rows.reverse)
  rw [dropBlankEnd, ← List.reverse_suffix, List.reverse_reverse]
  exact hsuffix

theorem exists_dropBlankEnd {rows : List (List Char)} (h : ∃ row ∈ rows, row ≠ []) :
    ∃ front last, dropBlankEnd rows = front ++ [last] ∧ last ≠ [] := by
  induction rows using List.reverseRecOn with
  | nil =>
    obtain ⟨row, hrow, -⟩ := h
    cases hrow
  | append_singleton rows last ih =>
    by_cases hlast : last = []
    · subst hlast
      rw [dropBlankEnd_blank]
      obtain ⟨row, hrow, hne⟩ := h
      refine ih ⟨row, (List.mem_append.1 hrow).resolve_right fun hmem => ?_, hne⟩
      exact hne (List.mem_singleton.1 hmem)
    · exact ⟨rows, last, dropBlankEnd_of_nonblank rows hlast, hlast⟩

end Text

namespace Script

theorem units_of_no_return {cs : List Char} (h : '\r' ∉ cs) : units cs = cs.map ([·]) := by
  induction cs with
  | nil => rfl
  | cons c cs ih =>
    rw [List.mem_cons, not_or] at h
    rw [units_cons, ih h.2, List.map_cons]
    rintro ds ⟨⟩
    exact h.1 rfl

theorem squeeze_of_no_return {cs : List Char} (h : '\r' ∉ cs) :
    squeeze cs = Text.limitFeeds cs := by
  rw [squeeze, ← squeezeUnits, units_of_no_return h]
  exact squeezeUnits_map 0 cs

/-! ### The text of a script -/

/-- A text made of lines by the clean-up: the lines that hold something are the same, no two empty
lines stand together, and the last one ends in a line feed. -/
structure CleanedUp (lines : List Line) (text : List Char) : Prop where
  filled : Text.filled text = (lines.map Line.row).filter (!·.isEmpty)
  /-- Each line that was written is one line of the text before. -/
  emitted : Text.lines (lines.flatMap Line.chars) = lines.map Line.row ++ [[]]
  spaced : Text.Spaced (Text.lines text)
  ends : ∃ front c, text = front ++ [c, '\n'] ∧ c ≠ '\n'

namespace Module

variable {m : Module} (options : Options)

theorem exists_filled_row (m : Module) :
    ∃ row ∈ Text.mergeBlank ((m.lines options).map Line.row), row ≠ [] := by
  obtain ⟨line, rest, hlines, hne⟩ := m.exists_lines_eq options
  refine ⟨line.row, ?_, hne⟩
  rw [hlines, List.map_cons, Text.mergeBlank_of_nonblank hne]
  exact List.mem_cons_self

theorem cleanedUp_text (h : ∀ item ∈ m.items, AreRows item.lines) :
    CleanedUp (m.lines options) (m.text options).toList where
  filled := filter_lines_text options h rfl
  emitted := by
    rw [flatMap_chars]
    exact Text.lines_flatMap
      (List.forall_mem_map.2 fun line hline => (isRow_lines options h line hline).unbroken)
  spaced := by
    obtain ⟨front, last, hrows, hlast⟩ := Text.exists_dropBlankEnd (m.exists_filled_row options)
    have hspaced := Text.spaced_mergeBlank ((m.lines options).map Line.row)
    obtain ⟨rest, hrest⟩ :=
      Text.dropBlankEnd_prefix (Text.mergeBlank ((m.lines options).map Line.row))
    rw [lines_text options h]
    rw [← hrest] at hspaced
    refine List.isChain_append.2 ⟨(List.isChain_append.1 hspaced).1, .singleton [], ?_⟩
    intro row hrow _ _
    rw [hrows, List.getLast?_concat, Option.mem_some] at hrow
    exact .inl (hrow ▸ hlast)
  ends := by
    obtain ⟨front, last, hrows, hlast⟩ := Text.exists_dropBlankEnd (m.exists_filled_row options)
    obtain ⟨cs, c, rfl⟩ := (List.eq_nil_or_concat last).resolve_left hlast
    refine ⟨Text.ofRows front ++ cs, c, ?_, ?_⟩
    · rw [m.toList_text options h, hrows]
      simp
    · rintro rfl
      have hmem : cs.concat '\n' ∈ Text.lines (m.text options).toList := by
        rw [lines_text options h, hrows]
        simp
      exact Text.not_mem_of_mem_lines hmem (by simp)

theorem text_banner (h : ∀ item ∈ m.items, AreRows item.lines) :
    m.text ⟨true⟩ = banner ++ "\n\n" ++ m.text ⟨false⟩ := by
  obtain ⟨line, rest, hlines, hne⟩ := m.exists_lines_eq ⟨false⟩
  have hbanner : m.lines ⟨true⟩ = ⟨0, banner⟩ :: .blank :: line :: rest := by
    rw [← hlines]
    rfl
  have hmerge (first : List Char) (rows : List (List Char)) (hfirst : first ≠ []) :
      Text.dropBlankEnd (Text.mergeBlank (first :: [] :: line.row :: rows)) =
        [first, []] ++ Text.dropBlankEnd (Text.mergeBlank (line.row :: rows)) := by
    have hrest := Text.dropBlankEnd_append [] hne (Text.mergeBlank rows)
    rw [Text.mergeBlank_of_nonblank hfirst, Text.mergeBlank, if_neg (by simpa using hne),
      Text.mergeBlank_of_nonblank hne]
    exact (Text.dropBlankEnd_append [first, []] hne _).trans
      (congrArg ([first, []] ++ ·) hrest.symm)
  have hfirst : (Line.mk 0 banner).row ≠ [] := by decide
  rw [← String.toList_inj, String.toList_append, String.toList_append, m.toList_text ⟨true⟩ h,
    m.toList_text ⟨false⟩ h, hbanner, hlines, List.map_cons, List.map_cons, List.map_cons]
  refine (congrArg Text.ofRows (hmerge _ _ hfirst)).trans ?_
  rw [Text.ofRows_append]
  rfl

end Module

end Script

/-- The clean-up of any text without returns, and of the script of any accepted text. -/
theorem clean_up_keeps_lines :
    (∀ cs, '\r' ∉ cs → Script.squeeze (Script.squeeze cs) = Script.squeeze cs ∧
      ¬ ['\n', '\n', '\n'] <:+: Script.squeeze cs ∧
      Text.filled (Script.squeeze cs) = Text.filled cs) ∧
    ∀ source code p, check source code = .ok p → ∃ m, p.lower = .ok m ∧
      (∀ options, ∃ script, p.generate options = .ok script ∧
        Script.CleanedUp (m.lines options) script.toList) ∧
      ∃ script, p.generate ⟨false⟩ = .ok script ∧
        p.generate ⟨true⟩ = .ok (Script.banner ++ "\n\n" ++ script) := by
  refine ⟨fun cs hcs => ?_, fun source code p h => ?_⟩
  · have hkept : '\r' ∉ Text.limitFeeds cs :=
      fun hmem => hcs ((Text.limitFeeds_sublist cs).subset hmem)
    have hrun := Text.limitFeeds_no_run cs
    rw [Script.squeeze_of_no_return hcs, Script.squeeze_of_no_return hkept]
    exact ⟨Text.limitFeeds_of_no_run hrun, hrun, Text.filled_limitFeeds cs⟩
  · obtain ⟨m, hm, -⟩ := Program.lower_components (check_topLevel h)
    have hrows := check_areRows h hm
    have hgenerate (options : Script.Options) : p.generate options = .ok (m.text options) := by
      rw [Program.generate, hm]
    refine ⟨m, hm, fun options => ⟨_, hgenerate options, m.cleanedUp_text options hrows⟩, _,
      hgenerate ⟨false⟩, ?_⟩
    rw [hgenerate, Script.Module.text_banner hrows]

/-- A template that holds a return in the middle and at its end, and a component without parts. -/
def returnsSource : List Char := "x = \"a\rb#\x7by\x7d\r\"\r\ncomponent Box\nend\n".toList

theorem clean_up_keeps_lines_returns :
    Text.filled (Script.squeeze "a\n\n\n\nb\n\n\n".toList) = ["a".toList, "b".toList] ∧
    ∃ p m script, check "m" returnsSource = .ok p ∧ p.lower = .ok m ∧
      p.generate .standard = .ok script ∧ Script.CleanedUp (m.lines .standard) script.toList := by
  obtain ⟨hsqueeze, hgenerate⟩ := clean_up_keeps_lines
  refine ⟨?_, ?_⟩
  · rw [(hsqueeze "a\n\n\n\nb\n\n\n".toList (by decide)).2.2]
    decide
  · obtain ⟨p, hp, -⟩ : ∃ p, check "m" returnsSource = .ok p ∧ (p.body.length == 2) = true :=
      exists_check_ok (by decide +kernel)
    obtain ⟨m, hm, hscript, -⟩ := hgenerate "m" returnsSource p hp
    obtain ⟨script, hscript, hclean⟩ := hscript .standard
    exact ⟨p, m, script, hp, hm, hscript, hclean⟩

end LayoutScript

import LayoutScript.Script.Module
import Mathlib.Data.List.SplitBy

/-! The clean-up of a script. Where no line ends in a carriage return it is a matter of whole lines:
of blank lines in a row one stays, none stays at the end, and all other lines stay as they are. -/
namespace LayoutScript

namespace Text

def ofRows (rows : List (List Char)) : List Char := rows.flatMap (· ++ ['\n'])

@[simp] theorem ofRows_nil : ofRows [] = [] := rfl

@[simp] theorem ofRows_cons (row : List Char) (rows : List (List Char)) :
    ofRows (row :: rows) = row ++ '\n' :: ofRows rows := by
  simp [ofRows]

@[simp] theorem ofRows_append (rows rows' : List (List Char)) :
    ofRows (rows ++ rows') = ofRows rows ++ ofRows rows' := List.flatMap_append

/-- Of line feeds in a row the last two stay. -/
def limitFeeds : List Char → List Char
  | [] => []
  | c :: cs => if c = '\n' ∧ ['\n', '\n'] <+: cs then limitFeeds cs else c :: limitFeeds cs

/-- Of blank lines in a row the last one stays. -/
def mergeBlank : List (List Char) → List (List Char)
  | [] => []
  | row :: rows => if row = [] ∧ rows.head? = some [] then
    mergeBlank rows else row :: mergeBlank rows

def dropBlankEnd (rows : List (List Char)) : List (List Char) :=
  (rows.reverse.dropWhile List.isEmpty).reverse

/-- A line whose end can be told: it holds no line feed, and does not end in a carriage return. -/
structure IsRow (row : List Char) : Prop where
  unbroken : '\n' ∉ row
  noReturn : row.getLast? ≠ some '\r'

theorem isRow_of_test {row : List Char}
    (h : (!row.contains '\n' && row.getLast? != some '\r') = true) : IsRow row := by
  simp only [Bool.and_eq_true, Bool.not_eq_true', List.contains_eq_mem, decide_eq_false_iff_not,
    bne_iff_ne] at h
  exact ⟨h.1, h.2⟩

/-! ### Line feeds in a row -/

theorem limitFeeds_char {c : Char} (h : c ≠ '\n') (cs : List Char) :
    limitFeeds (c :: cs) = c :: limitFeeds cs := by
  rw [limitFeeds, if_neg fun hc => h hc.1]

theorem limitFeeds_append {cs : List Char} (h : '\n' ∉ cs) (ds : List Char) :
    limitFeeds (cs ++ ds) = cs ++ limitFeeds ds := by
  induction cs with
  | nil => rfl
  | cons c cs ih =>
    rw [List.mem_cons, not_or] at h
    rw [List.cons_append, limitFeeds_char (Ne.symm h.1), ih h.2, List.cons_append]

theorem limitFeeds_replicate (n : Nat) {ds : List Char} (h : ∀ d ∈ ds.head?, d ≠ '\n') :
    limitFeeds (List.replicate n '\n' ++ ds) = List.replicate (min n 2) '\n' ++ limitFeeds ds := by
  have hone : limitFeeds ('\n' :: ds) = '\n' :: limitFeeds ds := by
    rw [limitFeeds, if_neg]
    rintro ⟨-, t, rfl⟩
    exact h '\n' rfl rfl
  have htwo : limitFeeds ('\n' :: '\n' :: ds) = '\n' :: '\n' :: limitFeeds ds := by
    rw [limitFeeds, if_neg, hone]
    rintro ⟨-, t, ht⟩
    cases ht
    exact h '\n' rfl rfl
  induction n with
  | zero => rfl
  | succ n ih =>
    rcases n with _ | _ | n
    · exact hone
    · exact htwo
    · rw [List.replicate_succ, List.cons_append, limitFeeds, if_pos, ih]
      · simp
      · exact ⟨rfl, List.replicate n '\n' ++ ds, rfl⟩

end Text

namespace Script

theorem units_cons {c : Char} {cs : List Char} (h : ∀ ds, c :: cs ≠ '\r' :: '\n' :: ds) :
    units (c :: cs) = [c] :: units cs := by
  rw [units]
  rintro ds rfl rfl
  exact h ds rfl

theorem units_row {row : List Char} (h : Text.IsRow row) (cs : List Char) :
    units (row ++ '\n' :: cs) = row.map ([·]) ++ ['\n'] :: units cs := by
  induction row with
  | nil => exact units_cons (by simp)
  | cons c row ih =>
    obtain ⟨hunbroken, hreturn⟩ := h
    rw [List.mem_cons, not_or] at hunbroken
    rw [List.cons_append, units_cons, ih, List.map_cons, List.cons_append]
    · refine ⟨hunbroken.2, fun hlast => hreturn ?_⟩
      rw [List.getLast?_cons, hlast, Option.getD_some]
    · intro ds heq
      cases row with
      | nil =>
        cases heq
        exact hreturn rfl
      | cons d row =>
        cases heq
        exact hunbroken.2 List.mem_cons_self

theorem units_ofRows {rows : List (List Char)} (h : ∀ row ∈ rows, Text.IsRow row) :
    units (Text.ofRows rows) = (Text.ofRows rows).map ([·]) := by
  induction rows with
  | nil => rfl
  | cons row rows ih =>
    obtain ⟨hrow, hrows⟩ := List.forall_mem_cons.1 h
    rw [Text.ofRows_cons, units_row hrow, ih hrows, List.map_append, List.map_cons]

def squeezeUnits (us : List (List Char)) : List Char :=
  (us.splitBy fun a b => isLineEnd a && isLineEnd b).flatMap squeezeRun

theorem squeezeUnits_append {us vs : List (List Char)}
    (h : ∀ u ∈ us.getLast?, ∀ v ∈ vs.head?, (isLineEnd u && isLineEnd v) = false) :
    squeezeUnits (us ++ vs) = squeezeUnits us ++ squeezeUnits vs := by
  rw [squeezeUnits, List.splitBy_append h, List.flatMap_append]
  rfl

theorem squeezeUnits_char {c : Char} (h : c ≠ '\n') (us : List (List Char)) :
    squeezeUnits ([c] :: us) = c :: squeezeUnits us := by
  have hend : isLineEnd [c] = false := by simpa [isLineEnd] using h
  rw [show [c] :: us = [[c]] ++ us from rfl, squeezeUnits_append]
  · rfl
  · intro u hu v _
    rw [List.getLast?_singleton, Option.mem_some] at hu
    rw [← hu, hend, Bool.false_and]

theorem squeezeUnits_replicate (n : Nat) :
    squeezeUnits (List.replicate n ['\n']) = List.replicate (min n 2) '\n' := by
  rcases n with _ | n
  · rfl
  · have hchain : (List.replicate (n + 1) ['\n']).IsChain fun a b => isLineEnd a && isLineEnd b :=
      List.Pairwise.isChain (List.pairwise_replicate.2 (.inr (by decide)))
    rw [squeezeUnits, List.splitBy_of_isChain (by simp) hchain, List.flatMap_singleton]
    rcases n with _ | _ | n
    · rfl
    · rfl
    · simp [squeezeRun, List.getLast?_replicate]

/-- The induction is over what stands after the line feeds at the front. -/
theorem squeezeUnits_map (n : Nat) (cs : List Char) :
    squeezeUnits (List.replicate n ['\n'] ++ cs.map ([·])) =
      Text.limitFeeds (List.replicate n '\n' ++ cs) := by
  induction cs generalizing n with
  | nil =>
    rw [List.map_nil, List.append_nil, squeezeUnits_replicate,
      Text.limitFeeds_replicate n (by simp)]
    exact (List.append_nil _).symm
  | cons c cs ih =>
    by_cases hc : c = '\n'
    · specialize ih (n + 1)
      rw [List.replicate_succ', List.replicate_succ', List.append_assoc, List.append_assoc] at ih
      rw [hc]
      exact ih
    · have hend : isLineEnd [c] = false := by simpa [isLineEnd] using hc
      rw [List.map_cons, squeezeUnits_append, squeezeUnits_replicate, squeezeUnits_char hc,
        Text.limitFeeds_replicate n (by simpa using hc), Text.limitFeeds_char hc]
      · exact congrArg (_ ++ c :: ·) (ih 0)
      · rintro u - v ⟨⟩
        rw [hend, Bool.and_false]

theorem squeeze_ofRows {rows : List (List Char)} (h : ∀ row ∈ rows, Text.IsRow row) :
    squeeze (Text.ofRows rows) = Text.limitFeeds (Text.ofRows rows) := by
  rw [squeeze, ← squeezeUnits, units_ofRows h]
  exact squeezeUnits_map 0 (Text.ofRows rows)

end Script

namespace Text

/-! ### Blank lines in a row -/

theorem mergeBlank_of_nonblank {row : List Char} (h : row ≠ []) (rows : List (List Char)) :
    mergeBlank (row :: rows) = row :: mergeBlank rows := by
  rw [mergeBlank, if_neg fun hr => h hr.1]

theorem head?_ofRows {rows : List (List Char)} (h : ∀ row ∈ rows, '\n' ∉ row) :
    (ofRows rows).head? = some '\n' ↔ rows.head? = some [] := by
  cases rows with
  | nil => simp
  | cons row rows =>
    rw [ofRows_cons]
    cases row with
    | nil => simp
    | cons c row =>
      have hc : c ≠ '\n' := fun heq => h _ List.mem_cons_self (heq ▸ List.mem_cons_self)
      simpa using hc

theorem limitFeeds_ofRows {rows : List (List Char)} (h : ∀ row ∈ rows, '\n' ∉ row) :
    limitFeeds ('\n' :: ofRows rows) = '\n' :: ofRows (mergeBlank rows) := by
  induction rows with
  | nil => rfl
  | cons row rows ih =>
    obtain ⟨hrow, hrows⟩ := List.forall_mem_cons.1 h
    specialize ih hrows
    rw [ofRows_cons]
    cases row with
    | cons c row =>
      have hc : c ≠ '\n' := fun heq => hrow (heq ▸ List.mem_cons_self)
      rw [mergeBlank_of_nonblank (by simp), ofRows_cons, limitFeeds, if_neg,
        limitFeeds_append hrow, ih]
      rintro ⟨-, t, ht⟩
      exact hc (List.cons.inj ht).1.symm
    | nil =>
      rw [List.nil_append]
      by_cases hnext : rows.head? = some []
      · obtain ⟨rows, rfl⟩ := List.head?_eq_some_iff.1 hnext
        rw [mergeBlank, if_pos ⟨rfl, hnext⟩, ← ih, limitFeeds, if_pos]
        exact ⟨rfl, ofRows rows, by simp⟩
      · rw [mergeBlank, if_neg fun hr => hnext hr.2, ofRows_cons, limitFeeds, if_neg, ih]
        · rfl
        · rintro ⟨-, t, ht⟩
          have hhead : (ofRows rows).head? = some '\n' := by rw [← (List.cons.inj ht).2]; rfl
          exact hnext ((head?_ofRows hrows).1 hhead)

def Spaced (rows : List (List Char)) : Prop := rows.IsChain fun a b => a ≠ [] ∨ b ≠ []

theorem Spaced.mergeBlank_append {rows : List (List Char)} (h : Spaced rows) {row : List Char}
    (hne : row ≠ []) (rows' : List (List Char)) :
    mergeBlank (rows ++ row :: rows') = rows ++ row :: mergeBlank rows' := by
  induction rows with
  | nil => exact mergeBlank_of_nonblank hne rows'
  | cons first rows ih =>
    obtain ⟨hnext, hrows⟩ := List.isChain_cons.1 h
    rw [List.cons_append, mergeBlank, if_neg, ih hrows, List.cons_append]
    rintro ⟨hfirst, hhead⟩
    cases rows with
    | nil => exact hne (Option.some.inj hhead)
    | cons second rows =>
      exact (hnext second rfl).elim (absurd hfirst) (absurd (Option.some.inj hhead))

theorem mergeBlank_sublist (rows : List (List Char)) : (mergeBlank rows).Sublist rows := by
  induction rows with
  | nil => exact .slnil
  | cons row rows ih =>
    rw [mergeBlank]
    split
    · exact ih.cons row
    · exact ih.cons_cons row

theorem filter_mergeBlank (rows : List (List Char)) :
    (mergeBlank rows).filter (!·.isEmpty) = rows.filter (!·.isEmpty) := by
  induction rows with
  | nil => rfl
  | cons row rows ih =>
    rw [mergeBlank]
    split
    · next h => rw [h.1, ih, List.filter_cons_of_neg (by simp)]
    · rw [List.filter_cons, List.filter_cons, ih]

/-! ### Blank lines at the end -/

theorem dropBlankEnd_blank (rows : List (List Char)) :
    dropBlankEnd (rows ++ [[]]) = dropBlankEnd rows := by
  simp [dropBlankEnd]

theorem dropBlankEnd_of_nonblank (rows : List (List Char)) {row : List Char} (h : row ≠ []) :
    dropBlankEnd (rows ++ [row]) = rows ++ [row] := by
  simp [dropBlankEnd, h]

theorem dropBlankEnd_append (rows : List (List Char)) {row : List Char} (h : row ≠ [])
    (rows' : List (List Char)) :
    dropBlankEnd (rows ++ row :: rows') = rows ++ row :: dropBlankEnd rows' := by
  induction rows' using List.reverseRecOn with
  | nil => exact dropBlankEnd_of_nonblank rows h
  | append_singleton rows' last ih =>
    rw [← List.cons_append, ← List.append_assoc]
    by_cases hlast : last = []
    · rw [hlast, dropBlankEnd_blank, dropBlankEnd_blank, ih]
    · rw [dropBlankEnd_of_nonblank _ hlast, dropBlankEnd_of_nonblank _ hlast, List.append_assoc,
        List.cons_append]

theorem dropBlankEnd_subset (rows : List (List Char)) : dropBlankEnd rows ⊆ rows := by
  intro row hrow
  exact List.mem_reverse.1 ((List.dropWhile_sublist _).subset (List.mem_reverse.1 hrow))

theorem filter_dropBlankEnd (rows : List (List Char)) :
    (dropBlankEnd rows).filter (!·.isEmpty) = rows.filter (!·.isEmpty) := by
  have hfront (rows : List (List Char)) :
      (rows.dropWhile List.isEmpty).filter (!·.isEmpty) = rows.filter (!·.isEmpty) := by
    induction rows with
    | nil => rfl
    | cons row rows ih => cases row <;> simp [ih]
  rw [dropBlankEnd, List.filter_reverse, hfront, List.filter_reverse, List.reverse_reverse]

end Text

namespace Script

theorem endLine_feed (cs : List Char) : endLine (cs ++ ['\n']) = endLine cs := by
  simp [endLine]

theorem endLine_char (cs : List Char) {c : Char} (h : c ≠ '\n') :
    endLine (cs ++ [c]) = cs ++ [c] ++ ['\n'] := by
  simp [endLine, h]

/-- Some line has to hold text: a script of blank lines would keep its last line feed. -/
theorem endLine_ofRows {rows : List (List Char)} (h : ∀ row ∈ rows, '\n' ∉ row)
    (hne : ∃ row ∈ rows, row ≠ []) :
    endLine (Text.ofRows rows) = Text.ofRows (Text.dropBlankEnd rows) := by
  induction rows using List.reverseRecOn with
  | nil =>
    obtain ⟨row, hrow, _⟩ := hne
    cases hrow
  | append_singleton rows row ih =>
    obtain ⟨hrows, hrow⟩ := List.forall_mem_append.1 h
    rw [Text.ofRows_append, Text.ofRows_cons, Text.ofRows_nil, ← List.append_assoc, endLine_feed]
    rcases List.eq_nil_or_concat row with rfl | ⟨cs, c, rfl⟩
    · rw [List.append_nil, Text.dropBlankEnd_blank]
      refine ih hrows ?_
      obtain ⟨row, hmem, hnonblank⟩ := hne
      refine ⟨row, (List.mem_append.1 hmem).resolve_right fun hlast => ?_, hnonblank⟩
      exact hnonblank (List.mem_singleton.1 hlast)
    · have hc : c ≠ '\n' := fun heq => hrow _ List.mem_cons_self (by simp [heq])
      rw [Text.dropBlankEnd_of_nonblank _ (by simp), List.concat_eq_append, ← List.append_assoc,
        endLine_char _ hc]
      simp

def Line.row (line : Line) : List Char := List.replicate (2 * line.indent) ' ' ++ line.text.toList

theorem flatMap_chars (lines : List Line) :
    lines.flatMap Line.chars = Text.ofRows (lines.map Line.row) := by
  rw [Text.ofRows, List.flatMap_map]
  rfl

theorem toList_finish {line : Line} {lines : List Line} (hne : line.row ≠ [])
    (h : ∀ l ∈ line :: lines, Text.IsRow l.row) :
    (finish (line :: lines)).toList =
      Text.ofRows (Text.dropBlankEnd (Text.mergeBlank ((line :: lines).map Line.row))) := by
  have hrows : ∀ row ∈ (line :: lines).map Line.row, Text.IsRow row := List.forall_mem_map.2 h
  have hunbroken := fun row hrow => (hrows row hrow).unbroken
  have hmerged : Text.limitFeeds (Text.ofRows ((line :: lines).map Line.row)) =
      Text.ofRows (Text.mergeBlank ((line :: lines).map Line.row)) := by
    rw [List.map_cons, List.forall_mem_cons] at hunbroken
    rw [List.map_cons, Text.ofRows_cons, Text.limitFeeds_append hunbroken.1,
      Text.limitFeeds_ofRows hunbroken.2, Text.mergeBlank_of_nonblank hne, Text.ofRows_cons]
  rw [finish, String.toList_ofList, flatMap_chars, squeeze_ofRows hrows, hmerged, endLine_ofRows]
  · exact fun row hrow => hunbroken row ((Text.mergeBlank_sublist _).subset hrow)
  · refine ⟨line.row, ?_, hne⟩
    rw [List.map_cons, Text.mergeBlank_of_nonblank hne]
    exact List.mem_cons_self

/-! ### The prelude -/

def preludeRows (options : Options) : List (List Char) := (preludeLines options).map Line.row

theorem all_preludeLines {test : Line → Bool} (h : (preludeLines .standard).all test = true)
    (options : Options) : ∀ line ∈ preludeLines options, test line = true := by
  intro line hline
  refine List.all_eq_true.1 h line ?_
  rw [preludeLines, List.append_assoc, List.mem_append] at hline ⊢
  refine hline.imp_left fun hbanner => ?_
  split at hbanner
  · exact hbanner
  · cases hbanner

theorem isRow_preludeRows (options : Options) : ∀ row ∈ preludeRows options, Text.IsRow row := by
  have htest : ((preludeLines .standard).all fun line =>
      !line.row.contains '\n' && line.row.getLast? != some '\r') = true := by decide +kernel
  exact List.forall_mem_map.2 fun line hline =>
    Text.isRow_of_test (all_preludeLines htest options line hline)

theorem spaced_preludeRows (options : Options) : Text.Spaced (preludeRows options) := by
  have hstandard : Text.Spaced (preludeRows .standard) := by
    unfold Text.Spaced
    decide +kernel
  rcases options with ⟨_ | _⟩
  · exact hstandard.tail.tail
  · exact hstandard

theorem isRow_imported (imported : Import) : ∀ line ∈ imported.lines, Text.IsRow line.row := by
  have htest : (imported.lines.all fun line =>
      !line.row.contains '\n' && line.row.getLast? != some '\r') = true := by
    cases imported <;> decide +kernel
  exact fun line hline => Text.isRow_of_test (List.all_eq_true.1 htest line hline)

theorem Module.isRow_lines (options : Options) {m : Module}
    (h : ∀ item ∈ m.items, ∀ line ∈ item.lines, Text.IsRow line.row) :
    ∀ line ∈ m.lines options, Text.IsRow line.row := by
  intro line hline
  rw [Module.lines, List.mem_append, List.mem_append] at hline
  rcases hline with (hline | hline) | hline
  · exact isRow_preludeRows options _ (List.mem_map_of_mem hline)
  · exact isRow_imported m.imported line hline
  · obtain ⟨item, hitem, hline⟩ := List.mem_flatMap.1 hline
    exact h item hitem line hline

theorem Module.exists_lines_eq (options : Options) (m : Module) :
    ∃ line rest, m.lines options = line :: rest ∧ line.row ≠ [] := by
  rcases options with ⟨_ | _⟩ <;> exact ⟨_, _, rfl, by decide⟩

theorem Module.toList_text (options : Options) (m : Module)
    (h : ∀ item ∈ m.items, ∀ line ∈ item.lines, Text.IsRow line.row) :
    (m.text options).toList =
      Text.ofRows (Text.dropBlankEnd (Text.mergeBlank ((m.lines options).map Line.row))) := by
  obtain ⟨line, rest, hlines, hne⟩ := m.exists_lines_eq options
  have hrows := isRow_lines options h
  rw [hlines] at hrows
  rw [Module.text, hlines, toList_finish hne hrows]

end Script

end LayoutScript

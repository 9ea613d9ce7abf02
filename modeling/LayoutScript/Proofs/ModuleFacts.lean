import LayoutScript.Proofs.RoundTrip
import LayoutScript.Proofs.TopLines

/-! What a script tells its surroundings, read off its text: what it imports, what it exports and
how its style constants are called. All of it follows from the components that stand at the top of
the program. -/
namespace LayoutScript

open LayoutScript.Script (Scope Line Plain Within)

/-! ### The text of a script, line by line -/

namespace Script

theorem lines_text (options : Options) {m : Module} (h : ∀ item ∈ m.items, AreRows item.lines) :
    Text.lines (m.text options).toList =
      Text.dropBlankEnd (Text.mergeBlank ((m.lines options).map Line.row)) ++ [[]] := by
  rw [m.toList_text options h, Text.ofRows, Text.lines_flatMap]
  intro row hrow
  obtain ⟨line, hline, rfl⟩ :=
    List.mem_map.1 ((Text.mergeBlank_sublist _).subset (Text.dropBlankEnd_subset _ hrow))
  exact (Module.isRow_lines options h line hline).unbroken

theorem filter_lines_text (options : Options) {m : Module}
    (h : ∀ item ∈ m.items, AreRows item.lines) {test : List Char → Bool} (htest : test [] = false) :
    (Text.lines (m.text options).toList).filter test =
      ((m.lines options).map Line.row).filter test := by
  have hnonblank (rows : List (List Char)) : rows.filter test =
      (rows.filter (!·.isEmpty)).filter test := by
    rw [List.filter_filter]
    refine List.filter_congr fun row _ => ?_
    cases row with
    | nil => rw [htest, Bool.false_and]
    | cons c cs => rw [List.isEmpty_cons, Bool.not_false, Bool.and_true]
  rw [lines_text options h, List.filter_append, hnonblank (Text.dropBlankEnd _),
    Text.filter_dropBlankEnd, Text.filter_mergeBlank, ← hnonblank,
    List.filter_cons_of_neg (by simp [htest]), List.filter_nil, List.append_nil]

/-! ### What components declare -/

def styleRow (name : String) : List Char := ("const " ++ name ++ " = \x7b").toList

def defaultExport (name : String) : List Char := ("export default " ++ name ++ ";").toList

def namedExport (name : String) : List Char := ("export \x7b " ++ name ++ " \x7d;").toList

namespace Component

theorem row_exportLine (c : Component) :
    c.exportLine.row = if c.isDefault then defaultExport c.name else namedExport c.name := by
  unfold exportLine
  split <;> exact Statement.row_atMargin _

def declared (c : Component) : List (List Char) :=
  c.stylesName?.toList.map styleRow ++ [c.exportLine.row]

section Filter

variable {test : List Char → Bool} (htest : ∀ {row}, Plain row → test row = false)
include htest

theorem filter_of_plain {lines : List Line} (h : ∀ line ∈ lines, Plain line.row) :
    (lines.map Line.row).filter test = [] := by
  rw [List.filter_eq_nil_iff]
  intro row hrow
  obtain ⟨line, hline, rfl⟩ := List.mem_map.1 hrow
  simp [htest (h line hline)]

theorem filter_cons_of_plain (line : Line) {lines : List Line}
    (h : ∀ line ∈ lines, Plain line.row) :
    ((line :: lines).map Line.row).filter test = [line.row].filter test := by
  rw [List.map_cons, ← List.singleton_append, List.filter_append, filter_of_plain htest h,
    List.append_nil]

theorem filter_styleLines (styles : Styles) :
    ((styleLines styles).map Line.row).filter test = [styleRow styles.name].filter test := by
  have hrules : Within 1 (styles.rules.flatMap ruleLines) := by
    refine .flatMap fun rule _ => .append (.cons (Nat.le_refl _) ?_) (.cons (Nat.le_refl _) .nil)
    intro line hline
    obtain ⟨d, _, rfl⟩ := List.mem_map.1 hline
    exact .inr (Nat.le_succ _)
  have hclosing : ∀ line ∈ [⟨0, "\x7d;"⟩, Line.blank], Plain line.row :=
    List.forall_mem_cons.2 ⟨⟨rfl, rfl, rfl⟩, List.forall_mem_singleton.2 .nil⟩
  have hrest : ∀ line ∈ styles.rules.flatMap ruleLines ++ [⟨0, "\x7d;"⟩, Line.blank],
      Plain line.row :=
    List.forall_mem_append.2 ⟨hrules.plain, hclosing⟩
  rw [styleLines, List.cons_append, filter_cons_of_plain htest _ hrest, Statement.row_atMargin]
  rfl

theorem filter_lines {c : Component} (hview : Within 1 c.view) :
    (c.lines.map Line.row).filter test = c.declared.filter test := by
  have hcells : Within 1 (c.cells.map cellLine) := by
    intro line hline
    obtain ⟨cell, _, rfl⟩ := List.mem_map.1 hline
    exact .inr (Nat.le_refl _)
  have hgap : Within 1 (if c.cells.isEmpty then [] else [.blank]) := by
    split
    · exact .nil
    · exact .consBlank .nil
  have hmethods : Within 1 (c.methods.flatMap methodLines) := .flatMap fun m _ =>
    .append (.cons (Nat.le_refl _) ((Statement.within_allLines 2 m.body).mono (Nat.le_succ _)))
      (.cons (Nat.le_refl _) (.consBlank .nil))
  have hbody := (((hcells.append hgap).append hmethods).append hview).plain
  have hheader :
      Plain (Line.row ⟨0, "function " ++ c.name ++ "(" ++ c.propsParam ++ ") \x7b"⟩) := by
    simp only [Statement.row_atMargin, String.toList_append, List.append_assoc]
    exact ⟨rfl, rfl, rfl⟩
  have hfunction : ∀ line ∈ ⟨0, "function " ++ c.name ++ "(" ++ c.propsParam ++ ") \x7b"⟩ ::
      c.cells.map cellLine ++ (if c.cells.isEmpty then [] else [.blank]) ++
        c.methods.flatMap methodLines ++
        c.view ++ [⟨0, "\x7d"⟩, .blank], Plain line.row :=
    List.forall_mem_append.2 ⟨List.forall_mem_cons.2 ⟨hheader, hbody⟩, Statement.plain_closing⟩
  have hstyles : (((c.styles.map styleLines).getD []).map Line.row).filter test =
      (c.stylesName?.toList.map styleRow).filter test := by
    rw [stylesName?]
    cases c.styles with
    | none => rfl
    | some styles => exact filter_styleLines htest styles
  have hblank : ∀ line ∈ [Line.blank], Plain line.row := List.forall_mem_singleton.2 .nil
  rw [lines, declared, List.map_append, List.map_append, List.filter_append, List.filter_append,
    List.filter_append, filter_of_plain htest hfunction, hstyles,
    filter_cons_of_plain htest _ hblank, List.nil_append]

end Filter

theorem tests_styleRow (name : String) : isImport (styleRow name) = false ∧
    isExport (styleRow name) = false ∧ isStyleConstant (styleRow name) = true := by
  have hrow : styleRow name = "const ".toList ++ (name.toList ++ " = \x7b".toList) := by
    simp only [styleRow, String.toList_append, List.append_assoc]
  rw [hrow]
  refine ⟨rfl, rfl, ?_⟩
  rw [isStyleConstant, List.getLast?_append, List.getLast?_append]
  rfl

theorem tests_exportLine (c : Component) : isImport c.exportLine.row = false ∧
    isExport c.exportLine.row = true ∧ isStyleConstant c.exportLine.row = false := by
  rw [row_exportLine]
  split
  · simp only [defaultExport, String.toList_append, List.append_assoc]
    exact ⟨rfl, rfl, rfl⟩
  · simp only [namedExport, String.toList_append, List.append_assoc]
    exact ⟨rfl, rfl, rfl⟩

theorem filter_declared (test : List Char → Bool) {onStyles onExport : Bool}
    (hstyles : ∀ name, test (styleRow name) = onStyles) (c : Component)
    (hexport : test c.exportLine.row = onExport) : c.declared.filter test =
      (if onStyles then c.stylesName?.toList.map styleRow else []) ++
        (if onExport then [c.exportLine.row] else []) := by
  have hrows : (c.stylesName?.toList.map styleRow).filter test =
      if onStyles then c.stylesName?.toList.map styleRow else [] := by
    cases onStyles <;> simp [hstyles]
  rw [declared, List.filter_append, hrows, List.filter_singleton, hexport, Bool.cond_eq_ite]

end Component

end Script

namespace Program

theorem filter_items {body : List Stmt}
    (hbody : ∀ s ∈ body, s.Canonical ∨ ∃ c, s = .component c ∧ c.OnLines) {styledCount before : Nat}
    {scope : Scope} {items : List Script.Item}
    (h : lowerItems styledCount scope before body = .ok items) {test : List Char → Bool}
    (htest : ∀ {row}, Plain row → test row = false) :
    ((items.flatMap Script.Item.lines).map Line.row).filter test =
      ((items.filterMap Script.Item.component?).flatMap Script.Component.declared).filter test := by
  induction body generalizing scope before items with
  | nil =>
    cases h
    rfl
  | cons s body ih =>
    obtain ⟨hs, hrest⟩ := List.forall_mem_cons.1 hbody
    rcases lowerItems_cons h with ⟨c, component, rest, rfl, hc, htail, rfl⟩ |
      ⟨t, after, rest, hne, ht, htail, rfl⟩
    · have hview : Within 1 component.view := by
        rw [ComponentOf.eq_of_lower hc]
        exact RenderBlock.within_lines c.scope 1 c.render
      have hcomponent : Script.Item.component? (.component component) = some component := rfl
      rw [List.flatMap_cons, List.map_append, List.filter_append, ih hrest htail,
        List.filterMap_cons_some hcomponent, List.flatMap_cons, List.filter_append,
        Script.Item.lines, Script.Component.filter_lines htest hview]
    · have hcanonical : s.Canonical := by
        rcases hs with hs | ⟨c, rfl, _⟩
        · exact hs
        · exact absurd rfl (hne c)
      have hplain := Script.Statement.plain_lines (hcanonical.namesFirst ht)
      rw [List.flatMap_cons, List.map_append, List.filter_append, ih hrest htail,
        List.filterMap_cons_none rfl, Script.Item.lines,
        Script.Component.filter_of_plain htest hplain, List.nil_append]

end Program

/-! ### Exports -/

namespace Script

/-- The exports of components: the first one is the default. -/
def exportRows : List ComponentDecl → List (List Char)
  | [] => []
  | c :: cs => defaultExport c.name :: cs.map fun c => namedExport c.name

end Script

theorem ComponentOf.row_exportLine {c : ComponentDecl} {component : Script.Component}
    {styledCount before : Nat} (h : c.lower styledCount before = .ok component) :
    component.exportLine.row =
      if before = 0 then Script.defaultExport c.name else Script.namedExport c.name := by
  rw [Script.Component.row_exportLine, eq_of_lower h]
  simp only [beq_iff_eq]

theorem Program.lowerItems_exports {body : List Stmt} {styledCount before : Nat} {scope : Scope}
    {items : List Script.Item} (h : lowerItems styledCount scope before body = .ok items) :
    (items.filterMap Script.Item.component?).map (fun c => c.exportLine.row) =
      if before = 0 then Script.exportRows (body.filterMap Stmt.component?)
      else (body.filterMap Stmt.component?).map fun c => Script.namedExport c.name := by
  induction body generalizing scope before items with
  | nil =>
    cases h
    split <;> rfl
  | cons s body ih =>
    rcases lowerItems_cons h with ⟨c, component, rest, rfl, hc, htail, rfl⟩ |
      ⟨t, after, rest, hne, ht, htail, rfl⟩
    · have hcomponent : Script.Item.component? (.component component) = some component := rfl
      have hstatement : Stmt.component? (.component c) = some c := rfl
      rw [List.filterMap_cons_some hcomponent, List.map_cons, ih htail, if_neg (Nat.succ_ne_zero _),
        ComponentOf.row_exportLine hc, List.filterMap_cons_some hstatement]
      split <;> rfl
    · have hs : Stmt.component? s = none := by
        cases s with
        | component c => exact absurd rfl (hne c)
        | _ => rfl
      rw [List.filterMap_cons_none rfl, ih htail, List.filterMap_cons_none hs]

/-! ### Imports -/

namespace Script

def importRow (usesState : Bool) : List Char :=
  if usesState then "import React, \x7b useState \x7d from 'react';".toList
  else "import React from 'react';".toList

/-- The import of components. State is imported if one of them has any. -/
def importRows (components : List ComponentDecl) : List (List Char) :=
  if components.isEmpty then [] else [importRow (components.any fun c => !c.state.isEmpty)]

theorem plain_preludeLines (options : Options) : ∀ line ∈ preludeLines options, Plain line.row := by
  have htests : ((preludeLines .standard).all fun line =>
      !isImport line.row && !isExport line.row && !isStyleConstant line.row) = true := by
    decide +kernel
  intro line hline
  have htest := all_preludeLines htests options line hline
  simp only [Bool.and_eq_true, Bool.not_eq_true'] at htest
  exact ⟨htest.1.1, htest.1.2, htest.2⟩

theorem tests_importRow (usesState : Bool) : isImport (importRow usesState) = true ∧
    isExport (importRow usesState) = false ∧ isStyleConstant (importRow usesState) = false := by
  cases usesState <;> decide +kernel

end Script

theorem Program.rows_imported (p : Program) : p.imported.lines.map Line.row =
    Script.importRows p.components ++ if p.components.isEmpty then [] else [[]] := by
  rw [imported, hasState_eq, survey_eq, Script.importRows]
  cases hempty : p.components.isEmpty with
  | true =>
    rw [List.isEmpty_iff.1 hempty]
    rfl
  | false => cases p.components.any fun c => !c.state.isEmpty <;> rfl

theorem Program.filter_imported (p : Program) {test : List Char → Bool} (hnil : test [] = false)
    (htest : ∀ usesState, test (Script.importRow usesState) = false) :
    (p.imported.lines.map Line.row).filter test = [] := by
  rw [p.rows_imported, Script.importRows]
  split
  · rfl
  · simp [htest, hnil]

/-! ### The facts -/

def Compiled.rows (compiled : Compiled) : List (List Char) := Text.lines compiled.script.toList

def Script.styleRows (components : List ComponentDecl) : List (List Char) :=
  (components.filter fun c => c.style.isSome).map fun c =>
    styleRow (stylesName (components.countP fun c => c.style.isSome) c.name)

/-- What the text of a script tells, for a program with these components at its top. -/
structure ModuleFacts (options : Script.Options) (components : List ComponentDecl)
    (compiled : Compiled) : Prop where
  imports : compiled.rows.filter Script.isImport = Script.importRows components
  /-- The import follows the helpers; whatever the program says comes after it. -/
  placed : components ≠ [] →
    Script.preludeRows options ++ Script.importRows components <+: compiled.rows
  exports : compiled.rows.filter Script.isExport = Script.exportRows components
  styleConstants : compiled.rows.filter Script.isStyleConstant = Script.styleRows components
  /-- It is called by the plain name exactly if no other component has styles. -/
  stylesName : ∀ c ∈ components,
    (Script.stylesName (components.countP fun c => c.style.isSome) c.name = "styles" ↔
      components.countP (fun c => c.style.isSome) ≤ 1)
  isModule : compiled.isModule = compiled.rows.any Script.isImport

theorem Script.stylesName_eq_iff (styledCount : Nat) (component : String) :
    stylesName styledCount component = "styles" ↔ styledCount ≤ 1 := by
  unfold stylesName
  split
  · next hcount =>
    refine ⟨fun heq => ?_, fun hle => absurd hcount (Nat.not_lt.2 hle)⟩
    -- The two ends differ in a letter, so the name of the component would have to be empty.
    have hchars := congrArg String.toList heq
    rw [String.toList_append] at hchars
    have hends : "Styles".toList <:+ "styles".toList := ⟨_, hchars⟩
    exact absurd hends (by decide)
  · next hcount => exact ⟨fun _ => Nat.le_of_not_lt hcount, fun _ => rfl⟩

section Accepted

variable {source : String} {code : List Char} {p : Program} {m : Script.Module}
  (h : check source code = .ok p) (hm : p.lower = .ok m) (options : Script.Options)
include h hm

theorem filter_rows {test : List Char → Bool} (htest : ∀ {row}, Plain row → test row = false) :
    (Text.lines (m.text options).toList).filter test =
      (p.imported.lines.map Line.row).filter test ++
      m.components.flatMap fun c => c.declared.filter test := by
  have hrows := check_areRows h hm
  have hbody := check_onLines h
  rw [Program.lower] at hm
  split at hm
  · cases hm
  · next items hitems =>
    cases hm
    rw [Script.filter_lines_text options hrows (htest .nil), Script.Module.lines, List.map_append,
      List.map_append, List.filter_append, List.filter_append,
      Script.Component.filter_of_plain htest (Script.plain_preludeLines options), List.nil_append,
      Program.filter_items hbody hitems htest, List.filter_flatMap]
    rfl

theorem filter_isImport : (Text.lines (m.text options).toList).filter Script.isImport =
    Script.importRows p.components := by
  have hdeclared : m.components.flatMap (fun c => c.declared.filter Script.isImport) = [] := by
    refine List.flatMap_eq_nil_iff.2 fun c _ => ?_
    rw [Script.Component.filter_declared _ (fun name => (Script.Component.tests_styleRow name).1) c
      c.tests_exportLine.1]
    rfl
  rw [filter_rows h hm options fun hplain => hplain.notImport, hdeclared, List.append_nil,
    p.rows_imported, Script.importRows]
  split
  · rfl
  · exact List.filter_cons_of_pos (Script.tests_importRow _).1

theorem any_isImport : (Text.lines (m.text options).toList).any Script.isImport = p.isModule := by
  have htwice : (Text.lines (m.text options).toList).any Script.isImport =
      ((Text.lines (m.text options).toList).filter Script.isImport).any Script.isImport := by
    simp only [List.any_filter, Bool.and_self]
  rw [htwice, filter_isImport h hm options, Script.importRows, Program.isModule_eq]
  cases p.components.isEmpty with
  | true => rfl
  | false => simp [Script.tests_importRow]

theorem filter_isExport : (Text.lines (m.text options).toList).filter Script.isExport =
    Script.exportRows p.components := by
  have hdeclared (c : Script.Component) : c.declared.filter Script.isExport = [c.exportLine.row] :=
    Script.Component.filter_declared _ (fun name => (Script.Component.tests_styleRow name).2.1) c
      c.tests_exportLine.2.1
  rw [filter_rows h hm options fun hplain => hplain.notExport,
    p.filter_imported rfl fun usesState => (Script.tests_importRow usesState).2.1, List.nil_append]
  simp only [hdeclared]
  rw [Program.lower] at hm
  split at hm
  · cases hm
  · next items hitems =>
    cases hm
    rw [Program.components, Stmt.allComponents_eq_filterMap (check_topLevel h),
      ← List.map_eq_flatMap]
    exact Program.lowerItems_exports hitems

theorem filter_isStyleConstant :
    (Text.lines (m.text options).toList).filter Script.isStyleConstant =
      m.styleNames.map Script.styleRow := by
  have hdeclared (c : Script.Component) : c.declared.filter Script.isStyleConstant =
      c.stylesName?.toList.map Script.styleRow := by
    rw [Script.Component.filter_declared _ (fun name => (Script.Component.tests_styleRow name).2.2)
      c c.tests_exportLine.2.2]
    exact List.append_nil _
  rw [filter_rows h hm options fun hplain => hplain.notStyles,
    p.filter_imported rfl fun usesState => (Script.tests_importRow usesState).2.2, List.nil_append]
  simp only [hdeclared]
  rw [Script.Module.styleNames, List.filterMap_eq_flatMap_toList, List.map_flatMap]

theorem prelude_import_prefix (hne : p.components ≠ []) :
    Script.preludeRows options ++ Script.importRows p.components <+:
      Text.lines (m.text options).toList := by
  have hrows := check_areRows h hm
  have himported : m.imported = p.imported := by
    rw [Program.lower] at hm
    split at hm <;> cases hm
    rfl
  obtain ⟨row, hrow, himport⟩ : ∃ row, row ≠ [] ∧ Script.importRows p.components = [row] := by
    rw [Script.importRows, if_neg (by simpa using hne)]
    refine ⟨_, ?_, rfl⟩
    cases p.components.any fun c => !c.state.isEmpty <;> decide
  have hlines : (m.lines options).map Line.row = Script.preludeRows options ++
      row :: [] :: (m.items.flatMap Script.Item.lines).map Line.row := by
    rw [Script.Module.lines, List.map_append, List.map_append, himported, p.rows_imported, himport,
      if_neg (by simpa using hne), List.append_assoc]
    rfl
  rw [Script.lines_text options hrows, hlines,
    (Script.spaced_preludeRows options).mergeBlank_append hrow, Text.dropBlankEnd_append _ hrow,
    himport]
  exact ⟨_, by rw [List.append_assoc, List.append_assoc]; rfl⟩

end Accepted

/-- The text of every accepted program tells the facts about its components. -/
theorem compile_moduleFacts {source : String} {code : List Char} {p : Program}
    (h : check source code = .ok p) (options : Script.Options) :
    ∃ compiled, compile options source code = .ok compiled ∧ compiled.program = p ∧
      ModuleFacts options (p.body.filterMap Stmt.component?) compiled := by
  have htop := check_topLevel h
  have hcomponents : p.components = p.body.filterMap Stmt.component? := by
    rw [Program.components, Stmt.allComponents_eq_filterMap htop]
  obtain ⟨m, hm, hlower⟩ := Program.lower_components htop
  refine ⟨⟨source, p, m.text options⟩, compile_of_lower h hm options, rfl, ?_⟩
  rw [← hcomponents]
  constructor
  · exact filter_isImport h hm options
  · exact prelude_import_prefix h hm options
  · exact filter_isExport h hm options
  · refine (filter_isStyleConstant h hm options).trans ?_
    rw [Script.Module.styleNames, styleNames_eq hlower, List.map_map, List.map_map,
      p.styledCount_eq]
    rfl
  · exact fun c _ => Script.stylesName_eq_iff _ c.name
  · exact (any_isImport h hm options).symm

/-- Two components with styles, one of them with state, and a variable that has the name of a word
of the script. -/
def cardsSource : List Char :=
  ("component Card\n  state\n    count : number = 0\n  end\n  style\n  end\nend\n" ++
    "export = 1\nexport = 2\ncomponent Panel\n  style\n  end\nend\n").toList

theorem compile_moduleFacts_cards : ∃ p compiled, check "m" cardsSource = .ok p ∧
    compile .standard "m" cardsSource = .ok compiled ∧ compiled.program = p ∧
    compiled.rows.filter Script.isImport =
      ["import React, \x7b useState \x7d from 'react';".toList] ∧
    compiled.rows.filter Script.isExport =
      ["export default Card;", "export \x7b Panel \x7d;"].map String.toList ∧
    compiled.rows.filter Script.isStyleConstant =
      ["const cardStyles = \x7b", "const panelStyles = \x7b"].map String.toList ∧
    compiled.isModule = true := by
  obtain ⟨p, hp, htest⟩ : ∃ p, check "m" cardsSource = .ok p ∧
      (let components := p.body.filterMap Stmt.component?
      decide (Script.importRows components =
        ["import React, \x7b useState \x7d from 'react';".toList] ∧
        Script.exportRows components =
          ["export default Card;", "export \x7b Panel \x7d;"].map String.toList ∧
        Script.styleRows components =
          ["const cardStyles = \x7b", "const panelStyles = \x7b"].map String.toList)) = true :=
    exists_check_ok (by decide +kernel)
  obtain ⟨himports, hexports, hstyles⟩ := of_decide_eq_true htest
  obtain ⟨compiled, hcompiled, hprogram, hfacts⟩ := compile_moduleFacts hp .standard
  refine ⟨p, compiled, hp, hcompiled, hprogram, hfacts.imports.trans himports,
    hfacts.exports.trans hexports, hfacts.styleConstants.trans hstyles, ?_⟩
  have himport : "import React, \x7b useState \x7d from 'react';".toList ∈
      compiled.rows.filter Script.isImport := by
    rw [hfacts.imports, himports]
    exact List.mem_singleton_self _
  obtain ⟨hrow, hisImport⟩ := List.mem_filter.1 himport
  rw [hfacts.isModule]
  exact List.any_eq_true.2 ⟨_, hrow, hisImport⟩

end LayoutScript

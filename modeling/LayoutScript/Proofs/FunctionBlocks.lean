import LayoutScript.Proofs.FunctionRows
import LayoutScript.Proofs.VariableBindings

/-! The functions of a script in the order of its text. What a program declares is written as one
block for each function: its header, its body one level further in and the line that closes it. No
other line of the script opens a function. -/
namespace LayoutScript

open LayoutScript.Script (Scope Line Statement Method)

/-! ### The functions of a program -/

/-- What the members of a class give, each with the mark of a constructor: one constructor at most,
and then all other methods in their order. -/
def leadFirst (members : List (Bool × List α)) : List α :=
  ((members.filter Prod.fst).take 1 ++ members.filter fun m => !m.1).flatMap Prod.snd

theorem flatten_constructorFirst (members : List (Bool × List α)) :
    (constructorFirst members).flatten = leadFirst members := by
  have hfirst : (members.find? Prod.fst).toList = (members.filter Prod.fst).take 1 := by
    rw [← List.head?_filter]
    cases members.filter Prod.fst <;> rfl
  rw [constructorFirst, leadFirst, hfirst, List.flatMap_def]

namespace Stmt

mutual

def openings (level : Nat) : Stmt → List Opening
  | .function f => openingsOf .statement level f
  | .classDecl ⟨_, _, methods, _⟩ => leadFirst (memberOpenings (level + 1) methods)
  | .component ⟨name, _, _, methods, _, _, _⟩ => .other name :: methodOpenings (level + 1) methods
  | .branch _ body elsifs otherwise _ _ =>
    allOpenings (level + 1) body ++ elsifOpenings (level + 1) elsifs ++
      allOpenings (level + 1) otherwise
  | .assign .. | .assignProperty .. | .assignInstanceVar .. | .print .. | .give .. | .expr _ => []

def openingsOf (form : Script.Form) (level : Nat) : FunctionOf Stmt → List Opening
  | ⟨name, params, type, body, span⟩ =>
    .declared form level ⟨name, params, type, body, span⟩ :: allOpenings (level + 1) body

def memberOpenings (level : Nat) : List (FunctionOf Stmt) → List (Bool × List Opening)
  | [] => []
  | f :: fs => (f.isConstructor, openingsOf .member level f) :: memberOpenings level fs

def methodOpenings (level : Nat) : List (FunctionOf Stmt) → List Opening
  | [] => []
  | f :: fs => openingsOf .constant level f ++ methodOpenings level fs

def elsifOpenings (level : Nat) : List (ElsifOf Stmt) → List Opening
  | [] => []
  | ⟨_, body⟩ :: es => allOpenings level body ++ elsifOpenings level es

def allOpenings (level : Nat) : List Stmt → List Opening
  | [] => []
  | s :: ss => openings level s ++ allOpenings level ss

end

end Stmt

def Program.openings (p : Program) : List Opening := Stmt.allOpenings 0 p.body

/-! ### Blocks -/

def Script.Form.block (form : Script.Form) (level : Nat) (f : FunctionDecl) (ts : List Statement) :
    List Line :=
  ⟨level, form.header f⟩ :: Statement.allLines (level + 1) ts ++ [⟨level, form.closing⟩]

theorem Script.Form.opensFunction_closing (form : Script.Form) (level : Nat) :
    opensFunction (Line.row ⟨level, form.closing⟩) = false := by
  refine opensFunction_of_getLast? ?_
  cases form <;> decide

theorem Opened.flatten {openings : List (List Opening)} {rows : List (List (List Char))}
    (h : List.Forall₂ Opened openings rows) : Opened openings.flatten rows.flatten := by
  induction h with
  | nil => exact .nil
  | cons hfirst _ ih => exact hfirst.append ih

theorem Script.Statement.opensFunction_closing (level : Nat) :
    ∀ line ∈ [⟨level, "\x7d"⟩, Line.blank], opensFunction line.row = false :=
  List.forall_mem_cons.2 ⟨opensFunction_of_getLast? (by decide), List.forall_mem_singleton.2 rfl⟩

theorem Script.Statement.opensFunction_of_isLine {t : Statement} (h : t.isLine = true)
    (level : Nat) :
    ∀ line ∈ t.lines level, opensFunction line.row = false := by
  cases t with
  | function | classDecl | branch => cases h
  | letVar name value | setVar name value | setField name value | eval text =>
    rw [lines]
    exact List.forall_mem_singleton.2 (opensFunction_append (by decide))
  | give value =>
    cases value with
    | none =>
      rw [lines]
      exact List.forall_mem_singleton.2 (opensFunction_of_getLast? (by decide))
    | some text =>
      rw [lines]
      exact List.forall_mem_singleton.2 (opensFunction_append (by decide))

namespace Stmt

variable {scope : Scope}

def OpensAll (s : Stmt) : Prop :=
  ∀ {scope t after}, s.lower scope = .ok (t, after) →
    ∀ level, Opened (s.openings level) (Script.rowsOf (t.lines level))

theorem allOpenings_opened {body : List Stmt} (hbody : ∀ s ∈ body, s.OpensAll) {ts : List Statement}
    (h : lowerAll scope body = .ok ts) (level : Nat) :
    Opened (allOpenings level body) (Script.rowsOf (Statement.allLines level ts)) := by
  induction body generalizing scope ts with
  | nil =>
    rw [lowerAll] at h
    cases h
    rw [allOpenings, Statement.allLines]
    exact .nil
  | cons s body ih =>
    obtain ⟨t, after, rest, ht, hrest, rfl⟩ := lowerAll_cons h
    obtain ⟨hs, hbody⟩ := List.forall_mem_cons.1 hbody
    rw [allOpenings, Statement.allLines, Script.rowsOf_append]
    exact (hs ht level).append (ih hbody hrest)

theorem openingsOf_opened {f : FunctionDecl} (hf : f.WellFormed) (hbody : ∀ s ∈ f.body, s.OpensAll)
    {ts : List Statement} (h : lowerAll (scope.declareAll (Param.names f.params)) f.body = .ok ts)
    (form : Script.Form) (level : Nat) :
    Opened (openingsOf form level f) (Script.rowsOf (form.block level f ts)) := by
  have hopens := form.opensFunction_header level hf.isWord_name
  have hclosing : form.closing ≠ "" := by cases form <;> decide
  have hrows : Script.rowsOf (form.block level f ts) = Line.row ⟨level, form.header f⟩ ::
      (Script.rowsOf (Statement.allLines (level + 1) ts) ++ [Line.row ⟨level, form.closing⟩]) := by
    rw [Script.Form.block, List.cons_append,
      Script.rowsOf_cons (Script.ne_nil_of_opensFunction hopens), Script.rowsOf_append,
      Script.rowsOf_cons (Script.row_ne_nil hclosing)]
    rfl
  have hrest := (allOpenings_opened hbody h (level + 1)).append
    (Opened.of_plain (List.forall_mem_singleton.2 (form.opensFunction_closing level)))
  rw [List.append_nil] at hrest
  rw [hrows]
  obtain ⟨name, params, type, body, span⟩ := f
  rw [openingsOf]
  exact .cons hopens ⟨scope, ts, [], h, rfl⟩ hrest

/-! ### Statements -/

theorem lowerFunction_opened {f : FunctionDecl} (hf : f.WellFormed)
    (hbody : ∀ s ∈ f.body, s.OpensAll) {m : Method} (h : lowerFunction scope f = .ok m)
    (level : Nat) :
    Opened (openingsOf .statement level f)
      (Script.rowsOf ((Statement.function m).lines level)) := by
  obtain ⟨hparams, hlower⟩ := lowerFunction_body h
  have hlines : (Statement.function m).lines level =
      Script.Form.statement.block level f m.body ++ [.blank] := by
    have hname := lowerFunction_name h
    obtain ⟨name, params, ts⟩ := m
    dsimp only at hname hparams
    subst hname hparams
    rw [Statement.lines, Script.Form.block, List.append_assoc]
    rfl
  rw [hlines]
  exact (openingsOf_opened hf hbody hlower .statement level).appendPlain
    (List.forall_mem_singleton.2 rfl)

def memberBlock (level : Nat) (m : Method) : List Line :=
  ⟨level, m.name ++ "(" ++ Script.paramList m.params ++ ") \x7b"⟩ ::
    Statement.allLines (level + 1) m.body ++
    [⟨level, "\x7d"⟩]

theorem rowsOf_memberLines (indent : Nat) (members : List Method) :
    Script.rowsOf (Statement.memberLines indent members) =
      (members.map fun m => Script.rowsOf (memberBlock (indent + 1) m)).flatten := by
  induction members with
  | nil => rw [Statement.memberLines]; rfl
  | cons m members ih =>
    obtain ⟨name, params, body⟩ := m
    have hgap : Script.rowsOf (if members.isEmpty then [] else [.blank]) = [] := by
      split <;> rfl
    rw [Statement.memberLines, List.map_cons, List.flatten_cons, ← ih, List.append_cons,
      List.append_assoc]
    simp only [Script.rowsOf_append, hgap, List.nil_append, memberBlock]

def MemberOpened (level : Nat) (openings : List Opening) (r : Except UnknownNode Method) : Prop :=
  ∀ m, r = .ok m → Opened openings (Script.rowsOf (memberBlock level m))

theorem memberOpenings_opened {fs : List FunctionDecl} (hfs : ∀ f ∈ fs, f.WellFormed)
    (hbodies : ∀ f ∈ fs, ∀ s ∈ f.body, s.OpensAll) (level : Nat) :
    List.Forall₂
      (fun openings member => openings.1 = member.1 ∧ MemberOpened level openings.2 member.2)
      (memberOpenings level fs) (lowerMembers fs) := by
  induction fs with
  | nil =>
    rw [memberOpenings, lowerMembers]
    exact .nil
  | cons f fs ih =>
    obtain ⟨hf, hrest⟩ := List.forall_mem_cons.1 hfs
    obtain ⟨hbody, hbodiesRest⟩ := List.forall_mem_cons.1 hbodies
    obtain ⟨name, params, type, body, span⟩ := f
    rw [memberOpenings, lowerMembers]
    refine .cons ⟨rfl, fun m hm => ?_⟩ (ih hrest hbodiesRest)
    dsimp only at hm
    split at hm
    · cases hm
    · next ts hts =>
      cases hm
      exact openingsOf_opened hf hbody hts .member level

theorem elsifOpenings_opened {es : List Elsif} (hes : ∀ e ∈ es, ∀ s ∈ e.body, s.OpensAll)
    {bs : List (Script.BranchOf Statement)} (h : lowerElsifs scope es = .ok bs) (level : Nat) :
    Opened (elsifOpenings (level + 1) es) (Script.rowsOf (Statement.branchLines level bs)) := by
  induction es generalizing bs with
  | nil =>
    rw [lowerElsifs] at h
    cases h
    rw [elsifOpenings, Statement.branchLines]
    exact .nil
  | cons e es ih =>
    obtain ⟨hbody, hothers⟩ := List.forall_mem_cons.1 hes
    obtain ⟨ts, rest, hts, hrest, rfl⟩ := lowerElsifs_cons h
    obtain ⟨condition, body⟩ := e
    rw [elsifOpenings, Statement.branchLines, List.cons_append]
    refine Opened.consPlain (Script.opensFunction_of_start ?_) ?_
    · simp only [String.toList_append, List.append_assoc]
      rfl
    · rw [Script.rowsOf_append]
      exact (allOpenings_opened hbody hts (level + 1)).append (ih hothers hrest)

theorem otherwiseOpenings_opened {body : List Stmt} (hbody : ∀ s ∈ body, s.OpensAll)
    {hasElse : Bool} (helse : hasElse = false → body = []) {ts : Option (List Statement)}
    (h : (if hasElse then (lowerAll scope body).map some else .ok none) = .ok ts) (level : Nat) :
    Opened (allOpenings (level + 1) body) (Script.rowsOf (Statement.elseLines level ts)) := by
  rcases lowerElse_eq h with ⟨hnone, rfl⟩ | ⟨us, -, rfl, hus⟩
  · rw [helse hnone, allOpenings, Statement.elseLines]
    exact .nil
  · rw [Statement.elseLines]
    exact Opened.consPlain (Script.opensFunction_of_start rfl)
      (allOpenings_opened hbody hus (level + 1))

theorem opensAll_of_isLine {s : Stmt} (hs : s.isLine = true) : s.OpensAll := by
  intro scope t after h level
  have ht := (lower_isLine hs h).1
  have hopenings : s.openings level = [] := by
    cases s <;> cases hs <;> rw [openings]
  rw [hopenings]
  exact Opened.of_lines (Statement.opensFunction_of_isLine ht level)

theorem Canonical.opensAll {s : Stmt} (h : s.Canonical) : s.OpensAll := by
  induction h with
  | function hf _ ih =>
    intro scope t after h level
    obtain ⟨m, hm, rfl, _⟩ := lower_function h
    rw [openings]
    exact lowerFunction_opened hf ih hm level
  | @classDecl c _ _ hmethods _ ih =>
    intro scope t after h level
    obtain ⟨members, hmembers, rfl, _⟩ := lower_classDecl h
    -- The members and their functions are put in the same order, so they stay paired.
    have hfirst := constructorFirst_rel (memberOpenings_opened hmethods ih (level + 1))
    rw [hmembers, List.forall₂_map_right_iff] at hfirst
    have hblocks : List.Forall₂ Opened (constructorFirst (memberOpenings (level + 1) c.methods))
        (members.map fun m => Script.rowsOf (memberBlock (level + 1) m)) := by
      rw [List.forall₂_map_right_iff]
      exact hfirst.imp fun openings m hm => hm m rfl
    have hmemberLines := Opened.flatten hblocks
    rw [← rowsOf_memberLines, flatten_constructorFirst] at hmemberLines
    obtain ⟨name, properties, methods, span⟩ := c
    rw [openings, Statement.lines, List.cons_append]
    refine Opened.consPlain (Script.opensFunction_of_start ?_)
      (hmemberLines.appendPlain (Statement.opensFunction_closing level))
    simp only [String.toList_append, List.append_assoc]
    rfl
  | branch _ _ _ _ helse _ ihb ihe iho =>
    intro scope t after h level
    obtain ⟨ts, bs, os, hts, hbs, hos, rfl, _⟩ := lower_branch h
    rw [openings, Statement.lines]
    refine Opened.appendPlain ?_
      (List.forall_mem_singleton.2 (Script.opensFunction_of_getLast? (by decide)))
    rw [Script.rowsOf_append, Script.rowsOf_append]
    refine Opened.append (Opened.append (Opened.consPlain (Script.opensFunction_of_start ?_)
      (allOpenings_opened ihb hts (level + 1))) (elsifOpenings_opened ihe hbs level))
      (otherwiseOpenings_opened iho helse hos level)
    simp only [String.toList_append, List.append_assoc]
    rfl
  | assign | assignProperty | assignInstanceProperty | assignInstanceVar | print | give
  | giveNothing | access
  | instanceCall =>
    exact opensAll_of_isLine rfl

end Stmt

/-! ### Components -/

open LayoutScript.Script (opensFunction opensFunction_of_getLast? opensFunction_append)

namespace Markup

theorem getLast?_escapeChar (c : Char) : (escapeChar c).getLast?.any (· != '{') = true := by
  unfold escapeChar
  split
  · decide
  · split
    · decide
    · split
      · decide
      · split
        · decide
        · next hc _ _ _ => simpa using hc

theorem getLast?_escapeText (value : String) : (escapeText value).toList.getLast? ≠ some '{' := by
  rw [escapeText, String.toList_ofList]
  rcases List.eq_nil_or_concat value.toList with hnil | ⟨front, c, hvalue⟩
  · simp [hnil]
  · have hlast := getLast?_escapeChar c
    rw [hvalue, List.concat_eq_append, List.flatMap_append, List.flatMap_singleton,
      List.getLast?_append]
    cases hc : (escapeChar c).getLast? with
    | none =>
      rw [hc] at hlast
      cases hlast
    | some d =>
      rw [hc, Option.any_some, bne_iff_ne] at hlast
      exact fun heq => hlast (Option.some.inj heq)

mutual

theorem opensFunction_lines (scope : Scope) (indent : Nat) (m : Markup) :
    ∀ line ∈ m.lines scope indent, opensFunction line.row = false := by
  cases m with
  | text value s =>
    rw [lines]
    · exact List.forall_mem_singleton.2 (opensFunction_of_getLast? (getLast?_escapeText value))
    · simp
  | interpolation raw s =>
    rw [lines]
    · exact List.forall_mem_singleton.2 (opensFunction_append (by decide))
    · simp
  | element e =>
    rw [lines]
    exact opensFunction_elementLines scope indent e

theorem opensFunction_elementLines (scope : Scope) (indent : Nat) (e : Element) :
    ∀ line ∈ elementLines scope indent e, opensFunction line.row = false := by
  obtain ⟨tag, className, attributes, children, span⟩ := e
  rw [elementLines]
  split
  · exact List.forall_mem_singleton.2 (opensFunction_append (by decide))
  · split
    · exact List.forall_mem_append.2 ⟨List.forall_mem_cons.2 ⟨opensFunction_append (by decide),
        opensFunction_allLines scope (indent + 1) children⟩,
        List.forall_mem_singleton.2 (opensFunction_append (by decide))⟩
    · exact List.forall_mem_singleton.2 (opensFunction_append (by decide))

theorem opensFunction_allLines (scope : Scope) (indent : Nat) (ms : List Markup) :
    ∀ line ∈ allLines scope indent ms, opensFunction line.row = false := by
  cases ms with
  | nil => simp [allLines]
  | cons m ms =>
    rw [allLines]
    exact List.forall_mem_append.2
      ⟨opensFunction_lines scope indent m, opensFunction_allLines scope indent ms⟩

end

end Markup

theorem RenderBlock.opensFunction_lines (scope : Scope) (indent : Nat)
    (render : Option RenderBlock) :
    ∀ line ∈ RenderBlock.lines scope indent render, opensFunction line.row = false := by
  unfold RenderBlock.lines
  split
  · exact List.forall_mem_singleton.2 (opensFunction_of_getLast? (by decide))
  · exact List.forall_mem_singleton.2 (opensFunction_of_getLast? (by decide))
  · exact List.forall_mem_append.2 ⟨List.forall_mem_cons.2 ⟨opensFunction_of_getLast? (by decide),
      Markup.opensFunction_elementLines scope (indent + 1) _⟩,
      List.forall_mem_singleton.2 (opensFunction_of_getLast? (by decide))⟩
  · refine List.forall_mem_append.2 ⟨List.forall_mem_cons.2 ⟨opensFunction_of_getLast? (by decide),
      List.forall_mem_cons.2 ⟨opensFunction_of_getLast? (by decide), ?_⟩⟩,
      List.forall_mem_cons.2 ⟨opensFunction_of_getLast? (by decide),
        List.forall_mem_singleton.2 (opensFunction_of_getLast? (by decide))⟩⟩
    intro line hline
    obtain ⟨e, -, hline⟩ := List.mem_flatMap.1 hline
    exact Markup.opensFunction_elementLines scope (indent + 2) e line hline

namespace Script.Component

theorem opensFunction_ruleLines (rule : Rule) :
    ∀ line ∈ ruleLines rule, opensFunction line.row = false := by
  refine List.forall_mem_append.2 ⟨List.forall_mem_cons.2 ⟨?_, fun line hline => ?_⟩,
    List.forall_mem_singleton.2 (opensFunction_of_getLast? (by decide))⟩
  · exact opensFunction_of_end (String.toList_append ..) (by decide) (by decide) (by decide)
  · obtain ⟨d, -, rfl⟩ := List.mem_map.1 hline
    exact opensFunction_append (by decide)

theorem opensFunction_styleLines (styles : Styles) :
    ∀ line ∈ styleLines styles, opensFunction line.row = false := by
  refine List.forall_mem_append.2 ⟨List.forall_mem_cons.2 ⟨?_, fun line hline => ?_⟩,
    List.forall_mem_cons.2 ⟨opensFunction_of_getLast? (by decide), List.forall_mem_singleton.2 rfl⟩⟩
  · exact opensFunction_of_end (String.toList_append ..) (by decide) (by decide) (by decide)
  · obtain ⟨rule, -, hline⟩ := List.mem_flatMap.1 hline
    exact opensFunction_ruleLines rule line hline

theorem opensFunction_exportLine (c : Component) : opensFunction c.exportLine.row = false := by
  unfold exportLine
  split <;> exact opensFunction_append (by decide)

theorem opensFunction_cells (c : Component) :
    ∀ line ∈ c.cells.map cellLine ++ (if c.cells.isEmpty then [] else [.blank]),
      opensFunction line.row = false := by
  refine List.forall_mem_append.2 ⟨fun line hline => ?_, ?_⟩
  · obtain ⟨cell, -, rfl⟩ := List.mem_map.1 hline
    exact opensFunction_append (by decide)
  · split
    · simp
    · exact List.forall_mem_singleton.2 rfl

theorem opensFunction_end (c : Component) :
    ∀ line ∈ [⟨0, "\x7d"⟩, Line.blank] ++ (c.styles.map styleLines).getD [] ++
      [c.exportLine, .blank], opensFunction line.row = false := by
  have hstyles : ∀ line ∈ (c.styles.map styleLines).getD [], opensFunction line.row = false := by
    cases c.styles with
    | none => simp
    | some styles => exact opensFunction_styleLines styles
  exact List.forall_mem_append.2
    ⟨List.forall_mem_append.2 ⟨Statement.opensFunction_closing 0, hstyles⟩,
    List.forall_mem_cons.2 ⟨c.opensFunction_exportLine, List.forall_mem_singleton.2 rfl⟩⟩

theorem lines_opened {c : Component} {openings : List Opening}
    (hmethods : Opened openings (rowsOf (c.methods.flatMap methodLines)))
    (hview : ∀ line ∈ c.view, opensFunction line.row = false) :
    Opened (.other c.name :: openings) (rowsOf c.lines) := by
  have hlines : c.lines = ⟨0, "function " ++ c.name ++ "(" ++ c.propsParam ++ ") \x7b"⟩ ::
      (c.cells.map cellLine ++ (if c.cells.isEmpty then [] else [.blank]) ++
        (c.methods.flatMap methodLines ++
          (c.view ++ ([⟨0, "\x7d"⟩, .blank] ++ (c.styles.map styleLines).getD [] ++
            [c.exportLine, .blank])))) := by
    simp only [lines, List.cons_append, List.append_assoc]
  have hopens : opensFunction
      (Line.row ⟨0, "function " ++ c.name ++ "(" ++ c.propsParam ++ ") \x7b"⟩) = true := by
    refine opensFunction_of_named ("function " ++ c.name ++ "(" ++ c.propsParam).toList ?_ ?_ ?_
    · rw [String.toList_append]
    · simp
    · simp only [String.toList_append, List.append_assoc]
      rfl
  have hrest := (Opened.of_lines c.opensFunction_cells).append
    (hmethods.append (Opened.of_lines (List.forall_mem_append.2 ⟨hview, c.opensFunction_end⟩)))
  rw [List.nil_append, List.append_nil, ← rowsOf_append, ← rowsOf_append] at hrest
  rw [hlines, rowsOf_cons (ne_nil_of_opensFunction hopens)]
  refine .cons hopens ⟨c.propsParam, ?_⟩ hrest
  rw [Statement.row_atMargin, List.head?_cons]

end Script.Component

theorem Stmt.methodOpenings_opened {scope : Scope} {fs : List FunctionDecl} {ms : List Method}
    (h : List.Forall₂ (fun f m => lowerFunction scope f = .ok m) fs ms)
    (hfs : ∀ f ∈ fs, f.WellFormed ∧ ∀ s ∈ f.body, s.Canonical) :
    Opened (methodOpenings 1 fs) (Script.rowsOf (ms.flatMap Script.Component.methodLines)) := by
  induction h with
  | nil =>
    rw [methodOpenings]
    exact .nil
  | @cons f m fs ms hm _ ih =>
    obtain ⟨⟨hwell, hbody⟩, hfs⟩ := List.forall_mem_cons.1 hfs
    obtain ⟨hparams, hlower⟩ := lowerFunction_body hm
    have hlines : Script.Component.methodLines m =
        Script.Form.constant.block 1 f m.body ++ [.blank] := by
      rw [Script.Component.methodLines, Script.Form.block, lowerFunction_name hm, hparams,
        List.append_assoc]
      rfl
    rw [methodOpenings, List.flatMap_cons, Script.rowsOf_append, hlines]
    exact ((openingsOf_opened hwell (fun s hs => (hbody s hs).opensAll) hlower .constant
      1).appendPlain (List.forall_mem_singleton.2 rfl)).append (ih hfs)

/-! ### Scripts -/

namespace Program

theorem lowerItems_opened {body : List Stmt}
    (hbody : ∀ s ∈ body, s.Canonical ∨ ∃ c, s = .component c ∧ c.OnLines) {styledCount before : Nat}
    {scope : Scope} {items : List Script.Item}
    (h : lowerItems styledCount scope before body = .ok items) :
    Opened (Stmt.allOpenings 0 body) (Script.rowsOf (items.flatMap Script.Item.lines)) := by
  induction body generalizing scope before items with
  | nil =>
    cases h
    rw [Stmt.allOpenings]
    exact .nil
  | cons s body ih =>
    obtain ⟨hs, hrest⟩ := List.forall_mem_cons.1 hbody
    rw [Stmt.allOpenings]
    rcases lowerItems_cons h with
      ⟨c, component, rest, rfl, hc, htail, rfl⟩ | ⟨t, after, rest, hne, ht, htail, rfl⟩
    · rw [List.flatMap_cons, Script.rowsOf_append]
      refine Opened.append ?_ (ih hrest htail)
      rcases hs with hs | ⟨c', heq, honLines⟩
      · cases hs
      · cases heq
        have hmethods :=
          Stmt.methodOpenings_opened (ComponentOf.methods_lowered hc) honLines.methods
        have hview : ∀ line ∈ component.view, opensFunction line.row = false := by
          rw [ComponentOf.eq_of_lower hc]
          exact RenderBlock.opensFunction_lines c.scope 1 c.render
        have hopened := Script.Component.lines_opened hmethods hview
        rw [ComponentOf.lower_name hc] at hopened
        obtain ⟨name, props, state, methods, render, style, span⟩ := c
        rw [Stmt.openings]
        exact hopened
    · rw [List.flatMap_cons, Script.rowsOf_append]
      refine Opened.append ?_ (ih hrest htail)
      rcases hs with hs | ⟨c, rfl, -⟩
      · exact hs.opensAll ht 0
      · exact absurd rfl (hne c)

end Program

def helperOpenings : List Opening := [.other "print", .other "defined"]

theorem Script.preludeLines_opened (options : Options) :
    Opened helperOpenings (rowsOf (preludeLines options)) := by
  have hstarts : starts (rowsOf (preludeLines options)) =
      [(rowsOf (helperLines.map (⟨0, ·⟩))).drop 1, (rowsOf (helperLines.map (⟨0, ·⟩))).drop 9] := by
    rcases options with ⟨_ | _⟩ <;> decide +kernel
  rw [Opened, hstarts]
  exact .cons ⟨"value", by decide +kernel⟩ (.cons ⟨"value", by decide +kernel⟩ .nil)

theorem Script.opensFunction_imported (imported : Import) :
    ∀ line ∈ imported.lines, opensFunction line.row = false := by
  cases imported <;> decide +kernel

def Compiled.solidRows (compiled : Compiled) : List (List Char) :=
  compiled.rows.filter fun row => !row.isEmpty

theorem opened_of_lower {source : String} {code : List Char} {p : Program} {m : Script.Module}
    (h : check source code = .ok p) (hm : p.lower = .ok m) (options : Script.Options) :
    Opened (helperOpenings ++ p.openings) (Compiled.solidRows ⟨source, p, m.text options⟩) := by
  have hrows := check_areRows h hm
  have hbody := check_onLines h
  rw [Program.lower] at hm
  split at hm
  · cases hm
  · next items hitems =>
    cases hm
    have hitemRows := Program.lowerItems_opened hbody hitems
    have hprelude :=
      (Script.preludeLines_opened options).appendPlain (Script.opensFunction_imported p.imported)
    have hall := hprelude.append hitemRows
    rw [← Script.rowsOf_append] at hall
    rw [Compiled.solidRows, Compiled.rows, Script.filter_lines_text options hrows rfl]
    exact hall

end LayoutScript

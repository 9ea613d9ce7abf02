import LayoutScript.Proofs.InlineContent
import LayoutScript.Proofs.StatementRows

/-! The lines of components. The texts of a render block are the only ones that a line may end with;
they are made of tokens, and no token ends in a carriage return. -/
namespace LayoutScript

open LayoutScript.Script (Scope Line Statement Method AreRows)

theorem Script.Line.isRow_of_text {indent : Nat} {s : String} (h : Text.IsRow s.toList) :
    Text.IsRow (row ⟨indent, s⟩) := by
  refine .append ⟨by simp, fun hlast => ?_⟩ h
  cases List.eq_of_mem_replicate (List.mem_of_getLast? hlast)

/-! ### What is emitted -/

theorem Expr.Canonical.oneLine_string {role : Expr.Role} {e : Expr} (h : e.Canonical role) :
    ∀ text s, e = .string text s → OneLine text := by
  induction h with
  | atom ha hl =>
    unfold Expr.atom? at ha
    split at ha <;> cases ha <;> intro text s heq <;> cases heq
    exact hl.2.1
  | @access base start last properties _ _ ih =>
    unfold Expr.accessed
    split
    · exact ih
    · simp
    · simp
  | chain _ ih | operand _ ih => exact ih
  | _ => simp

theorem Script.Scope.oneLine_of_instanceMethod {scope : Scope} {name : String}
    (h : OneLine (scope.instanceMethod name)) : OneLine name := by
  unfold instanceMethod at h
  split at h
  · exact h
  · exact (oneLine_append.1 h).2

namespace Attribute

variable {a : Attribute}

theorem OnLines.oneLine_emitValue (h : a.OnLines) (scope : Scope) :
    OneLine (a.emitValue scope) := by
  have hemit := h.value.oneLine_emit scope
  have hstring := h.value.oneLine_string
  unfold emitValue
  dsimp only
  split
  · next method _ _ heq _ =>
    simp only [heq, Expr.emit, oneLine_append] at hemit
    have hmethod := Scope.oneLine_of_instanceMethod hemit.1.1.1
    simp +decide [hmethod]
  · next method args _ _ _ heq _ =>
    simp only [heq, Expr.emit, Expr.emitAll_eq_map, oneLine_append] at hemit
    have hmethod := Scope.oneLine_of_instanceMethod hemit.1.1.1
    simp +decide [hmethod, Expr.emitArgs, hemit.1.2]
  · next text s heq =>
    have htext := hstring text s heq
    split
    · simp +decide [htext]
    · simp +decide [Expr.emit, Script.oneLine_quote]
  · simp +decide [hemit]

theorem OnLines.oneLine_emit (h : a.OnLines) (scope : Scope) : OneLine (a.emit scope) := by
  rw [emit, oneLine_append]
  exact ⟨Script.oneLine_attributeName h.name, h.oneLine_emitValue scope⟩

theorem OnLines.oneLine_classes (h : a.OnLines) : ∀ text ∈ a.classes?, OneLine text := by
  intro text htext
  unfold classes? at htext
  split at htext
  · next text s _ heq =>
    cases htext
    exact h.value.oneLine_string text s heq
  · cases htext

theorem oneLine_emitAll {className : String} (hc : OneLine className) {attributes : List Attribute}
    (h : ∀ a ∈ attributes, a.OnLines) (scope : Scope) :
    OneLine (emitAll scope className attributes) := by
  have hclasses :
      ∀ text ∈ (if className = "" then [] else [className]) ++ attributes.filterMap classes?,
      OneLine text := by
    refine List.forall_mem_append.2 ⟨?_, fun text htext => ?_⟩
    · split
      · simp
      · simpa using hc
    · obtain ⟨a, ha, htext⟩ := List.mem_filterMap.1 htext
      exact (h a ha).oneLine_classes text htext
  have hothers :
      ∀ text ∈ (attributes.filter fun a => a.classes?.isNone).map fun a => " " ++ a.emit scope,
      OneLine text := by
    intro text htext
    obtain ⟨a, ha, rfl⟩ := List.mem_map.1 htext
    rw [oneLine_append]
    exact ⟨by decide, (h a (List.mem_of_mem_filter ha)).oneLine_emit scope⟩
  unfold emitAll
  dsimp only
  generalize (if className = "" then [] else [className]) ++ attributes.filterMap classes? = classes
    at hclasses
  have hmerged : OneLine (" ".intercalate classes) := .intercalate (by decide) hclasses
  rw [oneLine_append]
  refine ⟨?_, .join hothers⟩
  split
  · decide
  · simp +decide [hmerged]

end Attribute

namespace Markup

theorem escapeChar_cases (c : Char) :
    escapeChar c = [c] ∨ escapeChar c ≠ [] ∧ Text.IsRow (escapeChar c) := by
  unfold escapeChar
  repeat' split
  all_goals first | exact .inl rfl | exact .inr ⟨by decide, Text.isRow_of_test (by decide)⟩

theorem isRow_escapeText {value : String} (h : Text.IsRow value.toList) :
    Text.IsRow (escapeText value).toList := by
  rw [escapeText, String.toList_ofList]
  constructor
  · intro hfeed
    obtain ⟨c, hc, hfeed⟩ := List.mem_flatMap.1 hfeed
    rcases escapeChar_cases c with hself | ⟨_, hrow⟩
    · rw [hself, List.mem_singleton] at hfeed
      exact h.unbroken (hfeed ▸ hc)
    · exact hrow.unbroken hfeed
  · have hlast := h.noReturn
    rcases List.eq_nil_or_concat value.toList with hnil | ⟨cs, c, hvalue⟩
    · simp [hnil]
    · rw [hvalue, List.concat_eq_append, List.getLast?_concat] at hlast
      rw [hvalue, List.concat_eq_append, List.flatMap_append, List.flatMap_singleton]
      rcases escapeChar_cases c with hself | ⟨hne, hrow⟩
      · rwa [hself, List.getLast?_concat]
      · rw [List.getLast?_append_of_ne_nil _ hne]
        exact hrow.noReturn

theorem OnLines.isRow_inlineText {m : Markup} (h : m.OnLines) : Text.IsRow m.inlineText.toList := by
  cases h with
  | text hrow => exact isRow_escapeText hrow
  | interpolation hraw =>
    rw [inlineText, emitInline, Except.toOption, Option.getD_some, String.toList_append]
    refine Script.isRow_append ?_ (by decide)
    have hstrip := Script.Template.oneLine_stripSigils hraw
    simpa [OneLine] using hstrip
  | element _ _ _ _ => exact Text.isRow_of_test rfl

theorem areRows_allLines {ms : List Markup} {scope : Scope} {indent : Nat}
    (h : ∀ m ∈ ms, AreRows (m.lines scope indent)) : AreRows (allLines scope indent ms) := by
  induction ms with
  | nil => exact .nil
  | cons m ms ih =>
    obtain ⟨hm, hms⟩ := List.forall_mem_cons.1 h
    rw [allLines]
    exact .append hm (ih hms)

theorem OnLines.areRows {m : Markup} (h : m.OnLines) (scope : Scope) :
    ∀ indent, AreRows (m.lines scope indent) := by
  induction h with
  | text hrow =>
    intro indent
    rw [lines]
    · exact .cons (Line.isRow_of_text (isRow_escapeText hrow)) .nil
    · simp
  | interpolation hraw =>
    intro indent
    rw [lines]
    · exact .cons
        (Line.isRow_of_text (OnLines.interpolation (s := .origin) hraw).isRow_inlineText) .nil
    · simp
  | @element e htag hclass hattributes hchildren ih =>
    intro indent
    obtain ⟨tag, className, attributes, children, span⟩ := e
    have hopening : OneLine ("<" ++ tag ++ Attribute.emitAll scope className attributes) := by
      simp +decide [htag, Attribute.oneLine_emitAll hclass hattributes scope]
    rw [lines, elementLines]
    split
    · exact .cons (Line.isRow hopening (by decide)) .nil
    · split
      · refine .append (.cons (Line.isRow hopening (by decide)) ?_)
          (.cons (Line.isRow ?_ (by decide)) .nil)
        · exact areRows_allLines fun m hm => ih m hm (indent + 1)
        · simp +decide [htag]
      · have hinline : OneLine (String.join (children.map inlineText)) := by
          refine .join fun text htext => ?_
          obtain ⟨m, hm, rfl⟩ := List.mem_map.1 htext
          exact (hchildren m hm).isRow_inlineText.unbroken
        refine .cons (Line.isRow ?_ (by decide)) .nil
        simp +decide [hopening, hinline, htag]

end Markup

theorem RenderBlock.areRows_lines {render : Option RenderBlock}
    (h : ∀ r ∈ render, ∀ e ∈ r.elements, (Markup.element e).OnLines) (scope : Scope)
    (indent : Nat) :
    AreRows (RenderBlock.lines scope indent render) := by
  have helement {e : Element} (he : (Markup.element e).OnLines) (indent : Nat) :
      AreRows (Markup.elementLines scope indent e) := by
    have hrows := he.areRows scope indent
    rwa [Markup.lines] at hrows
  unfold RenderBlock.lines
  split
  · exact .cons (Line.isRow_of_endsRow (by decide)) .nil
  · exact .cons (Line.isRow_of_endsRow (by decide)) .nil
  · next e _ =>
    refine .append (.cons (Line.isRow_of_endsRow (by decide)) (helement ?_ _))
      (.cons (Line.isRow_of_endsRow (by decide)) .nil)
    exact h _ rfl e List.mem_cons_self
  · refine .append
      (.cons (Line.isRow_of_endsRow (by decide))
      (.cons (Line.isRow_of_endsRow (by decide)) (.flatMap fun e he => helement ?_ _)))
      (.cons (Line.isRow_of_endsRow (by decide)) (.cons (Line.isRow_of_endsRow (by decide)) .nil))
    exact h _ rfl e he

namespace Script.Component

variable {c : Component}

theorem oneLine_propsParam (h : ∀ p ∈ c.props, OneLine p.1 ∧ ∀ value ∈ p.2, OneLine value) :
    OneLine c.propsParam := by
  unfold propsParam
  dsimp only
  split
  · decide
  · rw [oneLine_append, oneLine_append]
    refine ⟨⟨by decide, .intercalate (by decide) fun text htext => ?_⟩, by decide⟩
    obtain ⟨⟨name, value⟩, hp, rfl⟩ := List.mem_map.1 htext
    obtain ⟨hname, hvalue⟩ := h _ hp
    cases value with
    | none => exact hname
    | some value => simp +decide [hname, hvalue value rfl]

theorem isRow_cellLine {cell : Cell} (hname : OneLine cell.name) (hsetter : OneLine cell.setter)
    (hinitial : OneLine cell.initial) : Text.IsRow (cellLine cell).row :=
  Line.isRow (by simp +decide [hname, hsetter, hinitial]) (by decide)

theorem areRows_methodLines {m : Method} (h : m.InRows) : AreRows (methodLines m) := by
  refine .append (.cons (Line.isRow ?_ (by decide)) (Statement.areRows_allLines h.body _))
    (.closing (by decide))
  simp +decide [h.name, h.oneLine_paramList]

theorem areRows_ruleLines {rule : Rule} (hkey : OneLine rule.key)
    (h : ∀ d ∈ rule.declarations, OneLine d.1 ∧ OneLine d.2) : AreRows (ruleLines rule) := by
  refine .append (.cons (Line.isRow (by simpa using hkey) (by decide)) ?_)
    (.cons (Line.isRow_of_endsRow (by decide)) .nil)
  intro line hline
  obtain ⟨d, hd, rfl⟩ := List.mem_map.1 hline
  refine Line.isRow ?_ (by decide)
  simp +decide [h d hd]

theorem isRow_exportLine (h : OneLine c.name) : Text.IsRow c.exportLine.row := by
  unfold exportLine
  split <;> exact Line.isRow (by simp +decide [h]) (by decide)

theorem areRows_lines (hname : OneLine c.name)
    (hprops : ∀ p ∈ c.props, OneLine p.1 ∧ ∀ value ∈ p.2, OneLine value)
    (hcells : ∀ cell ∈ c.cells, Text.IsRow (cellLine cell).row)
    (hmethods : ∀ m ∈ c.methods, m.InRows) (hview : AreRows c.view)
    (hstyles : ∀ styles ∈ c.styles, AreRows (styleLines styles)) :
    AreRows c.lines := by
  have hcellLines : AreRows (c.cells.map cellLine) := by
    intro line hline
    obtain ⟨cell, hcell, rfl⟩ := List.mem_map.1 hline
    exact hcells cell hcell
  have hgap : AreRows (if c.cells.isEmpty then [] else [.blank]) := by
    split
    · exact .nil
    · exact .cons Line.isRow_blank .nil
  have hstyleLines : AreRows ((c.styles.map styleLines).getD []) := by
    cases hs : c.styles with
    | none => exact .nil
    | some styles => exact hstyles styles hs
  have hbody := ((hcellLines.append hgap).append
    (.flatMap fun m hm => areRows_methodLines (hmethods m hm))).append hview
  have hexport : AreRows [c.exportLine, .blank] :=
    .cons (isRow_exportLine hname) (.cons Line.isRow_blank .nil)
  refine .append (.append (.append (.cons (Line.isRow ?_ (by decide)) hbody) (.closing (by decide)))
    hstyleLines) hexport
  simp +decide [hname, oneLine_propsParam hprops]

end Script.Component

theorem StyleBlock.areRows_lower {b : StyleBlock} (h : ∀ rule ∈ b.rules, rule.OnLines)
    {name : String} (hname : OneLine name) :
    AreRows (Script.Component.styleLines (b.lower name)) := by
  refine .append (.cons (Line.isRow ?_ (by decide)) (.flatMap fun rule hrule => ?_))
    (.closing (by decide))
  · simp +decide [StyleBlock.lower, hname]
  · obtain ⟨r, hr, rfl⟩ := List.mem_map.1 hrule
    refine Script.Component.areRows_ruleLines (Script.oneLine_objectKey (h r hr).selector)
      fun d hd => ?_
    obtain ⟨declaration, hdeclaration, rfl⟩ := List.mem_map.1 hd
    obtain ⟨hproperty, hvalue⟩ := (h r hr).declarations declaration hdeclaration
    exact ⟨Script.oneLine_objectKey (Script.oneLine_camelCase hproperty),
      hvalue.oneLine_emit .empty⟩

theorem Script.oneLine_stylesName (styledCount : Nat) {component : String} (h : OneLine component) :
    OneLine (stylesName styledCount component) := by
  unfold stylesName
  split
  · rw [oneLine_append]
    exact ⟨Text.oneLine_lowerFirst h, by decide⟩
  · decide

namespace ComponentOf

variable {c : ComponentDecl} {component : Script.Component} {styledCount before : Nat}

theorem OnLines.methods_inRows (hc : c.OnLines) (h : c.lower styledCount before = .ok component) :
    ∀ m ∈ component.methods, m.InRows := by
  intro m hm
  have hmem : .ok m ∈ c.methods.map (Stmt.lowerFunction c.scope) := by
    rw [methods_of_lower h]
    exact List.mem_map_of_mem hm
  obtain ⟨f, hf, hlower⟩ := List.mem_map.1 hmem
  obtain ⟨hwell, hbody⟩ := hc.methods f hf
  exact Stmt.lowerFunction_inRows hwell (fun s hs => (hbody s hs).lowersToRows) hlower

theorem isRow_lowerCell {entry : Entry} (h : entry.OnLines) (scope : Scope) :
    Text.IsRow (Script.Component.cellLine (lowerCell scope entry)).row := by
  have hname : OneLine entry.name := .of_isWord h.name
  refine Script.Component.isRow_cellLine hname (Script.oneLine_setterName hname) ?_
  rw [lowerCell]
  cases hvalue : entry.value with
  | none => exact (by decide : OneLine "null")
  | some v => exact (h.value v hvalue).oneLine_emit scope

theorem OnLines.areRows (hc : c.OnLines) (h : c.lower styledCount before = .ok component) :
    AreRows component.lines := by
  have hname : OneLine c.name := .of_isWord hc.name
  refine Script.Component.areRows_lines ?_ ?_ ?_ (hc.methods_inRows h) ?_ ?_ <;> rw [eq_of_lower h]
  · exact hname
  · intro p hp
    obtain ⟨entry, hentry, rfl⟩ := List.mem_map.1 hp
    refine ⟨.of_isWord (hc.props entry hentry).name, fun text htext => ?_⟩
    obtain ⟨v, hv, rfl⟩ := Option.map_eq_some_iff.1 htext
    exact ((hc.props entry hentry).value v hv).oneLine_emit c.scope
  · intro cell hcell
    obtain ⟨entry, hentry, rfl⟩ := List.mem_map.1 hcell
    exact isRow_lowerCell (hc.state entry hentry) c.scope
  · exact RenderBlock.areRows_lines hc.render c.scope 1
  · intro styles hstyles
    obtain ⟨b, hb, rfl⟩ := Option.map_eq_some_iff.1 hstyles
    exact StyleBlock.areRows_lower (hc.style b hb) (Script.oneLine_stylesName _ hname)

end ComponentOf

/-! ### Programs -/

theorem Program.lowerItems_areRows {body : List Stmt}
    (hbody : ∀ s ∈ body, s.Canonical ∨ ∃ c, s = .component c ∧ c.OnLines) {styledCount before : Nat}
    {scope : Scope} {items : List Script.Item}
    (h : lowerItems styledCount scope before body = .ok items) :
    ∀ item ∈ items, AreRows item.lines := by
  induction body generalizing scope before items with
  | nil =>
    cases h
    simp
  | cons s body ih =>
    obtain ⟨hs, hrest⟩ := List.forall_mem_cons.1 hbody
    rcases lowerItems_cons h with ⟨c, component, rest, rfl, hc, htail, rfl⟩ |
      ⟨t, after, rest, hne, ht, htail, rfl⟩
    · refine List.forall_mem_cons.2 ⟨?_, ih hrest htail⟩
      rcases hs with hs | ⟨c', heq, honLines⟩
      · cases hs
      · cases heq
        exact honLines.areRows hc
    · refine List.forall_mem_cons.2 ⟨?_, ih hrest htail⟩
      rcases hs with hs | ⟨c, rfl, _⟩
      · exact hs.lowersToRows scope t after ht 0
      · exact absurd rfl (hne c)

theorem check_areRows {source : String} {code : List Char} {p : Program} {m : Script.Module}
    (h : check source code = .ok p) (hm : p.lower = .ok m) :
    ∀ item ∈ m.items, AreRows item.lines := by
  rw [Program.lower] at hm
  split at hm
  · cases hm
  · next items hitems =>
    cases hm
    exact Program.lowerItems_areRows (check_onLines h) hitems

end LayoutScript

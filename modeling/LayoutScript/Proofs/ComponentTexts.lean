import LayoutScript.Proofs.Canonical
import LayoutScript.Proofs.CleanUp
import LayoutScript.Proofs.InlineContent
import LayoutScript.Proofs.TemplateParts

/-! What the components of a text hold: names on one line, values that are canonical, and texts that
a line may end with. All of them are made of tokens, and no token holds a line feed or ends in a
carriage return. -/
namespace LayoutScript

/-! ### Texts on one line -/

def OneLine (s : String) : Prop := '\n' ∉ s.toList

instance : DecidablePred OneLine := fun s => inferInstanceAs (Decidable (¬ '\n' ∈ s.toList))

@[simp] theorem oneLine_append {s t : String} : OneLine (s ++ t) ↔ OneLine s ∧ OneLine t := by
  simp only [OneLine, String.toList_append, List.mem_append, not_or]

@[simp] theorem oneLine_ofList {cs : List Char} : OneLine (String.ofList cs) ↔ '\n' ∉ cs := by
  rw [OneLine, String.toList_ofList]

namespace OneLine

theorem intercalate {separator : String} (hs : OneLine separator) {texts : List String}
    (h : ∀ text ∈ texts, OneLine text) : OneLine (separator.intercalate texts) := by
  induction texts with
  | nil =>
    rw [String.intercalate_nil]
    decide
  | cons text texts ih =>
    obtain ⟨htext, htexts⟩ := List.forall_mem_cons.1 h
    cases texts with
    | nil => rwa [String.intercalate_singleton]
    | cons next texts =>
      rw [String.intercalate_cons_cons, oneLine_append, oneLine_append]
      exact ⟨⟨htext, hs⟩, ih htexts⟩

theorem join {texts : List String} (h : ∀ text ∈ texts, OneLine text) :
    OneLine (String.join texts) := by
  induction texts with
  | nil =>
    rw [String.join_nil]
    decide
  | cons text texts ih =>
    obtain ⟨htext, htexts⟩ := List.forall_mem_cons.1 h
    rw [String.join_cons, oneLine_append]
    exact ⟨htext, ih htexts⟩

end OneLine

theorem not_feed_of_isWordChar {c : Char} (h : isWordChar c = true) : c ≠ '\n' := by
  rintro rfl
  cases h

theorem OneLine.of_isWord {name : String} (h : isWord name = true) : OneLine name := by
  intro hfeed
  exact not_feed_of_isWordChar (Script.Template.isWordChar_of_mem h hfeed) rfl

namespace Text

theorem trim_subset (cs : List Char) : trim cs ⊆ cs := by
  obtain ⟨front, back, hcs, _⟩ := trim_append cs
  intro c hc
  rw [hcs]
  simp [hc]

theorem IsRow.append {row row' : List Char} (h : IsRow row) (h' : IsRow row') :
    IsRow (row ++ row') := by
  constructor
  · rw [List.mem_append, not_or]
    exact ⟨h.unbroken, h'.unbroken⟩
  · rw [List.getLast?_append]
    have hlast := h'.noReturn
    cases hrow : row'.getLast? with
    | none => exact h.noReturn
    | some c =>
      rw [hrow] at hlast
      exact hlast

theorem isRow_intercalate {texts : List String} (h : ∀ text ∈ texts, IsRow text.toList) :
    IsRow (" ".intercalate texts).toList := by
  induction texts with
  | nil => exact isRow_of_test (by decide)
  | cons text texts ih =>
    obtain ⟨htext, htexts⟩ := List.forall_mem_cons.1 h
    cases texts with
    | nil => rwa [String.intercalate_singleton]
    | cons next texts =>
      have hblank : IsRow " ".toList := isRow_of_test (by decide)
      rw [String.intercalate_cons_cons, String.toList_append, String.toList_append]
      exact (htext.append hblank).append (ih htexts)

end Text

def Script.endsRow (s : String) : Bool :=
  !s.toList.isEmpty && !s.toList.contains '\n' && s.toList.getLast? != some '\r'

theorem Script.isRow_append {cs : List Char} {tail : String} (hcs : '\n' ∉ cs)
    (ht : endsRow tail = true) : Text.IsRow (cs ++ tail.toList) := by
  simp only [endsRow, Bool.and_eq_true, Bool.not_eq_true', List.isEmpty_eq_false_iff,
    List.contains_eq_mem, decide_eq_false_iff_not, bne_iff_ne] at ht
  obtain ⟨⟨hne, hfeed⟩, hreturn⟩ := ht
  constructor
  · rw [List.mem_append, not_or]
    exact ⟨hcs, hfeed⟩
  · rwa [List.getLast?_append_of_ne_nil _ hne]

theorem Numeral.not_mem {cs : List Char} (h : Numeral cs) {c : Char} (hc : Text.isDigit c = false)
    (hdot : c ≠ '.') : c ∉ cs := by
  intro hmem
  refine h.forall_mem (P := (c ≠ ·)) (fun d hd => ?_) hdot c hmem rfl
  rintro rfl
  rw [hd] at hc
  cases hc

/-! ### Tokens -/

structure Lexeme.OnLine (l : Lexeme) : Prop where
  wellFormed : l.WellFormed
  oneLine : OneLine l.text

theorem Lexeme.Spells.onLine {l : Lexeme} {text : List Char} (h : l.Spells text)
    (hfeed : '\n' ∉ text) :
    l.OnLine := by
  refine ⟨h.wellFormed, ?_⟩
  cases l with
  | interpolation raw =>
    obtain ⟨inner, rfl, htrim⟩ := h
    have hraw : OneLine raw := by
      intro hmem
      rw [← htrim] at hmem
      have hinner := Text.trim_subset inner hmem
      exact hfeed (by simp [hinner])
    simp +decide [Lexeme.text, hraw]
  | _ =>
    rw [OneLine, ← h.1]
    exact hfeed

theorem Token.ofText_onLine {source : String} {code : List Char} {tokens : List Token}
    (h : ofText source code = .ok tokens) : ∀ t ∈ tokens, t.lexeme.OnLine := by
  intro t ht
  rcases ofText_spells h t ht with hlayout | ⟨text, hfeed, hs⟩
  · generalize t.lexeme = l at hlayout
    cases l with
    | indent | dedent | newline | eof => exact ⟨trivial, by decide⟩
    | punct p => cases p <;> cases hlayout
    | _ => cases hlayout
  · exact hs.onLine hfeed

theorem Lexeme.OnLine.isRow {l : Lexeme} (h : l.OnLine) : Text.IsRow l.text.toList := by
  have hno {s : String} (hs : OneLine s) (hreturn : '\r' ∉ s.toList) : Text.IsRow s.toList :=
    ⟨hs, fun hlast => hreturn (List.mem_of_getLast? hlast)⟩
  have hword {name : String} (hname : isWord name = true) : '\r' ∉ name.toList := by
    intro hreturn
    cases Script.Template.isWordChar_of_mem hname hreturn
  cases l with
  | keyword k => cases k <;> exact Text.isRow_of_test (by decide)
  | punct p => cases p <;> exact Text.isRow_of_test (by decide)
  | indent | dedent | newline | eof => exact Text.isRow_of_test (by decide)
  | identifier name => exact hno h.oneLine (hword h.wellFormed.1)
  | instanceVar name => exact hno h.oneLine (by simp [text, value, hword h.wellFormed])
  | number raw => exact hno h.oneLine (Numeral.not_mem h.wellFormed (by decide) (by decide))
  | string raw | template raw | interpolation raw =>
    have hline := h.oneLine
    rw [text, oneLine_append] at hline
    rw [text, String.toList_append]
    exact Script.isRow_append hline.1 (by decide)

/-! ### What components of a text hold -/

structure Entry.OnLines (e : Entry) : Prop where
  name : isWord e.name = true
  value : ∀ v ∈ e.value, v.Canonical .whole

structure Attribute.OnLines (a : Attribute) : Prop where
  name : OneLine a.name
  value : a.value.Canonical .whole

inductive Markup.OnLines : Markup → Prop
  | text {value s} : Text.IsRow value.toList → OnLines (.text value s)
  | interpolation {raw s} : OneLine raw → OnLines (.interpolation raw s)
  | element {e} : OneLine e.tag → OneLine e.className → (∀ a ∈ e.attributes, a.OnLines) →
    (∀ m ∈ e.children, OnLines m) → OnLines (.element e)

structure StyleDeclaration.OnLines (d : StyleDeclaration) : Prop where
  property : OneLine d.property
  value : d.value.Canonical .whole

structure StyleRule.OnLines (rule : StyleRule) : Prop where
  selector : OneLine rule.selector
  declarations : ∀ d ∈ rule.declarations, d.OnLines

structure ComponentOf.OnLines (c : ComponentDecl) : Prop where
  name : isWord c.name = true
  props : ∀ entry ∈ c.props, entry.OnLines
  state : ∀ entry ∈ c.state, entry.OnLines
  methods : ∀ f ∈ c.methods, f.WellFormed ∧ ∀ s ∈ f.body, s.Canonical
  render : ∀ r ∈ c.render, ∀ e ∈ r.elements, (Markup.element e).OnLines
  style : ∀ b ∈ c.style, ∀ rule ∈ b.rules, rule.OnLines

section Grammar

variable {S : Place → Rule Stmt} {ts : List Token} {next : Token}

theorem wellFormed_of_onLine (h : ∀ t ∈ ts, t.lexeme.OnLine) : ∀ t ∈ ts, t.lexeme.WellFormed :=
  fun t ht => (h t ht).wellFormed

theorem EntryBlock.onLines {k : Keyword} {entries : List Entry} (hw : ∀ t ∈ ts, t.lexeme.WellFormed)
    (h : EntryBlock k ts next entries) : ∀ entry ∈ entries, entry.OnLines := by
  cases h with
  | mk _ hb _ =>
    refine hb.forall_mem fun {us next entry} hsub h => ?_
    have hus : ∀ u ∈ us, u.lexeme.WellFormed := fun u hu => hw u (by simp [hsub hu])
    cases h with
    | @mk t _ _ _ _ _ _ _ _ ht _ _ hv _ =>
      have hname := hus t List.mem_cons_self
      rw [ht] at hname
      refine ⟨hname.1, ?_⟩
      cases hv with
      | none _ => simp
      | some _ he =>
        intro v hvalue
        cases hvalue
        exact he.canonical fun u hu => hus u (by simp [hu])

theorem oneLine_of_name? {l : Lexeme} {name : String} (hl : l.WellFormed)
    (h : l.name? = some name) :
    OneLine name := .of_isWord (Expr.isWord_of_name? hl h)

theorem DashTail.oneLine {prev : Token} {name result : String} (hw : ∀ t ∈ ts, t.lexeme.WellFormed)
    (h : DashTail prev name ts next result) (hname : OneLine name) : OneLine result := by
  induction h with
  | stop _ => exact hname
  | @more prev name dash word s us next result _ hs _ ih =>
    have hword := oneLine_of_name? (hw word (by simp)) hs
    exact ih (fun t ht => hw t (by simp [ht])) (by simp +decide [hname, hword])

theorem DashedName.oneLine {name : String} (hw : ∀ t ∈ ts, t.lexeme.WellFormed)
    (h : DashedName ts next name) : OneLine name := by
  cases h with
  | @mk t first us _ _ ht htail =>
    exact htail.oneLine (fun t ht => hw t (by simp [ht])) (oneLine_of_name? (hw t (by simp)) ht)

theorem AttributeName.oneLine {name : String} (hw : ∀ t ∈ ts, t.lexeme.WellFormed)
    (h : AttributeName ts next name) : OneLine name := by
  cases h with
  | plain hd _ => exact hd.oneLine hw
  | event hn _ he =>
    have hname := hn.oneLine fun t ht => hw t (by simp [ht])
    have hevent := he.oneLine fun t ht => hw t (by simp [ht])
    simp +decide [hname, hevent]

theorem AttributeItems.onLines {as : List Attribute} (hw : ∀ t ∈ ts, t.lexeme.WellFormed)
    (h : AttributeItems ts next as) : ∀ a ∈ as, a.OnLines := by
  induction h with
  | nil => simp
  | cons ha _ ih =>
    refine List.forall_mem_cons.2 ⟨?_, ih fun u hu => hw u (by simp [hu])⟩
    cases ha with
    | mk hn _ hv _ =>
      exact ⟨hn.oneLine fun u hu => hw u (by simp [hu]),
        hv.canonical fun u hu => hw u (by simp [hu])⟩

theorem AttributeList.onLines {prev : Token} {as : List Attribute}
    (hw : ∀ t ∈ ts, t.lexeme.WellFormed) (h : AttributeList prev ts next as) :
    ∀ a ∈ as, a.OnLines := by
  cases h with
  | none _ => simp
  | some _ hs _ => exact hs.onLines fun u hu => hw u (by simp [hu])

theorem ClassList.oneLine {prev : Token} {names : List String} (hw : ∀ t ∈ ts, t.lexeme.WellFormed)
    (h : ClassList prev ts next names) : ∀ name ∈ names, OneLine name := by
  induction h with
  | nil _ => simp
  | cons _ hd _ ih =>
    exact List.forall_mem_cons.2
      ⟨hd.oneLine fun t ht => hw t (by simp [ht]), ih fun t ht => hw t (by simp [ht])⟩

theorem Markup.onLines_ofTokens (h : ∀ t ∈ ts, t.lexeme.OnLine) :
    ∀ m ∈ Markup.ofTokens ts, m.OnLines := by
  intro m hm
  obtain ⟨run, hrun, hmake⟩ := exists_makes_of_mem_ofTokens hm
  cases hmake with
  | interpolation hraw =>
    have hline := (h _ (hrun List.mem_cons_self)).oneLine
    rw [hraw, Lexeme.text, oneLine_append, oneLine_append] at hline
    exact .interpolation hline.1.2
  | text _ =>
    refine .text (Text.isRow_intercalate fun text htext => ?_)
    obtain ⟨t, ht, rfl⟩ := List.mem_map.1 htext
    exact (h t (hrun ht)).isRow

theorem ElementRule.onLines {e : Element} (h : ElementRule ts next e)
    (hw : ∀ t ∈ ts, t.lexeme.OnLine) :
    (Markup.element e).OnLines := by
  induction h with
  | of _ h ih =>
    cases h with
    | @mk t tag us vs ws xs _ names attributes children ht hnames ha _ hb =>
      have hwell := wellFormed_of_onLine hw
      have htag := hwell t (by simp)
      rw [ht] at htag
      have hclass := hnames.oneLine fun u hu => hwell u (by simp [hu])
      refine .element (.of_isWord htag.1) (.intercalate (by decide) hclass)
        (ha.onLines fun u hu => hwell u (by simp [hu])) (List.forall_mem_append.2 ⟨?_, ?_⟩)
      · exact Markup.onLines_ofTokens fun u hu => hw u (by simp [hu])
      · intro m hm
        obtain ⟨child, hchild, rfl⟩ := List.mem_map.1 hm
        exact hb.forall_mem (fun hsub h => ih h fun u hu => hw u (by simp [hsub hu])) child hchild

theorem RenderRule.onLines {r : RenderBlock} (hw : ∀ t ∈ ts, t.lexeme.OnLine)
    (h : RenderRule ts next r) : ∀ e ∈ r.elements, (Markup.element e).OnLines := by
  cases h with
  | mk _ hb _ => exact hb.forall_mem fun hsub h => h.onLines fun u hu => hw u (by simp [hsub hu])

theorem StyleRuleRule.onLines {rule : StyleRule} (hw : ∀ t ∈ ts, t.lexeme.WellFormed)
    (h : StyleRuleRule ts next rule) : rule.OnLines := by
  cases h with
  | @mk dot us vs _ _ _ _ hselector hds =>
    refine ⟨hselector.oneLine fun u hu => hw u (by simp [hu]),
      hds.forall_mem fun {ws next d} hsub h => ?_⟩
    have hws : ∀ u ∈ ws, u.lexeme.WellFormed := fun u hu => hw u (by simp [hsub hu])
    cases h with
    | mk hproperty _ hv _ =>
      exact ⟨hproperty.oneLine fun u hu => hws u (by simp [hu]),
        hv.canonical fun u hu => hws u (by simp [hu])⟩

theorem StyleBlockRule.onLines {b : StyleBlock} (hw : ∀ t ∈ ts, t.lexeme.WellFormed)
    (h : StyleBlockRule ts next b) : ∀ rule ∈ b.rules, rule.OnLines := by
  cases h with
  | mk _ hb _ => exact hb.forall_mem fun hsub h => h.onLines fun u hu => hw u (by simp [hsub hu])

theorem ComponentMember.onLines {c c' : ComponentDecl} (hw : ∀ t ∈ ts, t.lexeme.OnLine)
    (hS : ∀ {us next s}, us ⊆ ts → S .functionBody us next s → s.Canonical)
    (h : ComponentMember S c ts next c') (hc : c.OnLines) : c'.OnLines := by
  have hwell := wellFormed_of_onLine hw
  cases h with
  | props he => exact { hc with props := List.forall_mem_append.2 ⟨hc.props, he.onLines hwell⟩ }
  | state he => exact { hc with state := List.forall_mem_append.2 ⟨hc.state, he.onLines hwell⟩ }
  | method hf =>
    refine { hc with methods := List.forall_mem_append.2 ⟨hc.methods, fun f hmem => ?_⟩ }
    rw [List.mem_singleton.1 hmem]
    exact hf.canonical hwell hS
  | render _ hr =>
    refine { hc with render := fun r hmem => ?_ }
    cases hmem
    exact hr.onLines hw
  | style _ hs =>
    refine { hc with style := fun b hmem => ?_ }
    cases hmem
    exact hs.onLines hwell

theorem ComponentLevel.onLines {c : ComponentDecl} (hw : ∀ t ∈ ts, t.lexeme.OnLine)
    (hS : ∀ {us next s}, us ⊆ ts → S .functionBody us next s → s.Canonical)
    (h : ComponentLevel S ts next c) : c.OnLines := by
  cases h with
  | @mk k t us vs _ name _ _ _ ht hb _ =>
    have hname := (hw t (by simp)).wellFormed
    rw [ht] at hname
    have hempty : ComponentOf.OnLines ⟨name, [], [], [], none, none, k.span⟩ :=
      { name := hname.1, props := by simp, state := by simp, methods := by simp, render := by simp,
        style := by simp }
    have hmembers := hb.invariant ?_ hempty
    · exact { hmembers with }
    · intro c c' ws next hsub hm hc
      exact hm.onLines (fun u hu => hw u (by simp [hsub hu]))
        (fun hsub' => hS fun u hu => by simp [hsub (hsub' hu)]) hc

end Grammar

theorem check_onLines {source : String} {code : List Char} {p : Program}
    (h : check source code = .ok p) :
    ∀ s ∈ p.body, s.Canonical ∨ ∃ c, s = .component c ∧ c.OnLines := by
  obtain ⟨tokens, ts, next, htokens, hsub, hss⟩ := check_tokens h
  intro s hs
  obtain ⟨us, next', husub, hrule⟩ := hss.rule_of_mem hs
  have hus : ∀ t ∈ us, t.lexeme.OnLine :=
    fun t ht => Token.ofText_onLine htokens t (hsub (husub ht))
  have hwell := wellFormed_of_onLine hus
  cases s with
  | component c =>
    refine .inr ⟨c, rfl, hrule.componentLevel.onLines hus fun hsub' h => ?_⟩
    exact h.canonical (fun u hu => hwell u (hsub' hu)) (.inl rfl)
  | _ => exact .inl (hrule.canonical hwell (.inr (by simp)))

end LayoutScript

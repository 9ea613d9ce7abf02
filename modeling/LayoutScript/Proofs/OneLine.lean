import LayoutScript.Proofs.Receiver
import LayoutScript.Proofs.StringLiterals
import LayoutScript.Proofs.TemplateReading
import LayoutScript.Proofs.TemplateRewriting

/-! Texts that stand on one line. What a script takes from a program is made of pieces of its source
lines, so no name, literal or expression of it brings a line feed along. -/
namespace LayoutScript

open LayoutScript.Script (Scope)

/-! ### Names -/

namespace Text

/-- No run of letters goes down to the control characters. -/
theorem shiftCase_ne_feed {runs : List CaseRun} (hruns : ∀ run ∈ runs, 10 < run.first + run.shift)
    {c : Char} (h : c ≠ '\n') : shiftCase runs c ≠ '\n' := by
  unfold shiftCase
  split
  · next run hfind =>
    have hcovers : run.covers c.toNat = true :=
      List.find?_some (p := fun run : CaseRun => run.covers c.toNat) hfind
    have hfirst := hruns run (List.mem_of_find?_eq_some hfind)
    simp only [CaseRun.covers, Bool.and_eq_true, decide_eq_true_eq] at hcovers
    intro hfeed
    have hnat := congrArg Char.toNat hfeed
    by_cases hvalid : (c.toNat + run.shift).toNat.isValidChar
    · rw [Char.ofNat, dif_pos hvalid] at hnat
      have hshifted : (c.toNat + run.shift).toNat = 10 := hnat
      omega
    · rw [Char.ofNat, dif_neg hvalid] at hnat
      cases hnat
  · exact h

theorem oneLine_mapFirst {f : Char → Char} (hf : ∀ c, c ≠ '\n' → f c ≠ '\n') {s : String}
    (h : OneLine s) : OneLine (mapFirst f s) := by
  unfold mapFirst
  split
  · exact h
  · next c cs hs =>
    rw [OneLine, hs, List.mem_cons, not_or] at h
    rw [oneLine_ofList, List.mem_cons, not_or]
    exact ⟨Ne.symm (hf c (Ne.symm h.1)), h.2⟩

theorem oneLine_capitalize {s : String} (h : OneLine s) : OneLine (capitalize s) :=
  oneLine_mapFirst (fun _ => shiftCase_ne_feed (by decide +kernel)) h

theorem oneLine_lowerFirst {s : String} (h : OneLine s) : OneLine (lowerFirst s) :=
  oneLine_mapFirst (fun _ => shiftCase_ne_feed (by decide +kernel)) h

end Text

theorem Text.subset_of_mem_split {divider : Char} {cs part : List Char}
    (h : part ∈ split divider cs) : part ⊆ cs := by
  induction cs generalizing part with
  | nil =>
    rw [List.mem_singleton.1 h]
    exact List.nil_subset _
  | cons c cs ih =>
    rw [Text.split] at h
    split at h
    · rcases List.mem_cons.1 h with rfl | h
      · exact List.nil_subset _
      · exact List.subset_cons_of_subset _ (ih h)
    · split at h
      · rw [List.mem_singleton.1 h]
        exact List.cons_subset.2 ⟨List.mem_cons_self, List.nil_subset _⟩
      · next first rest hparts =>
        rw [hparts] at ih
        rcases List.mem_cons.1 h with rfl | h
        · exact List.cons_subset_cons c (ih List.mem_cons_self)
        · exact List.subset_cons_of_subset _ (ih (List.mem_cons_of_mem _ h))

namespace Script

theorem oneLine_quote (s : String) : OneLine (quote s) := by
  intro hfeed
  have hstays := List.all_eq_true.1 (staysOnLine_quote s) '\n' hfeed
  cases hstays

theorem oneLine_setterName {name : String} (h : OneLine name) : OneLine (setterName name) := by
  rw [setterName, oneLine_append]
  exact ⟨by decide, Text.oneLine_capitalize h⟩

theorem oneLine_camelCase {s : String} (h : OneLine s) : OneLine (camelCase s) := by
  have hparts : ∀ part ∈ (Text.split '-' s.toList).map String.ofList, OneLine part := by
    intro part hpart
    obtain ⟨cs, hcs, rfl⟩ := List.mem_map.1 hpart
    rw [oneLine_ofList]
    exact fun hfeed => h (Text.subset_of_mem_split hcs hfeed)
  unfold camelCase
  split
  · decide
  · next first rest heq =>
    rw [heq] at hparts
    obtain ⟨hfirst, hrest⟩ := List.forall_mem_cons.1 hparts
    rw [oneLine_append]
    refine ⟨hfirst, .join fun text htext => ?_⟩
    obtain ⟨part, hpart, rfl⟩ := List.mem_map.1 htext
    exact Text.oneLine_capitalize (hrest part hpart)

theorem oneLine_objectKey {key : String} (h : OneLine key) : OneLine (objectKey key) := by
  unfold objectKey
  split
  · exact h
  · exact oneLine_quote key

theorem oneLine_attributeName {name : String} (h : OneLine name) :
    OneLine (attributeName name) := by
  unfold attributeName
  split
  · next event hevent =>
    have hsub : OneLine event := by
      unfold eventName? at hevent
      split at hevent
      · next cs hname =>
        cases hevent
        rw [OneLine, hname] at h
        rw [oneLine_ofList]
        exact fun hfeed => h (by simp [hfeed])
      · cases hevent
    rw [oneLine_append]
    exact ⟨by decide, Text.oneLine_capitalize (oneLine_camelCase hsub)⟩
  · split
    · decide
    · exact h

theorem oneLine_paramList {params : List String} (h : ∀ name ∈ params, OneLine name) :
    OneLine (paramList params) := OneLine.intercalate (by decide) h

/-! ### Templates -/

namespace Template

theorem oneLine_of_solid {s : String} (h : Solid s.toList) : OneLine s := by
  intro hfeed
  have hblank := h.2 '\n' hfeed
  cases hblank

theorem oneLine_instanceVar (scope : Scope) {name : String} (h : isWord name = true) :
    OneLine (scope.instanceVar name) := oneLine_of_solid (solid_instanceVar scope name h)

theorem oneLine_instanceMethod (scope : Scope) {name : String} (h : isWord name = true) :
    OneLine (scope.instanceMethod name) := by
  unfold Scope.instanceMethod
  split
  · exact .of_isWord h
  · rw [oneLine_append]
    exact ⟨by decide, .of_isWord h⟩

theorem not_feed_mapSigils {f : String → String}
    (hf : ∀ name, isWord name = true → OneLine (f name)) {cs : List Char} (h : '\n' ∉ cs) :
    '\n' ∉ mapSigils f cs := by
  have hresolves := resolves_mapSigils f cs
  generalize mapSigils f cs = out at hresolves
  induction hresolves with
  | nil => exact h
  | name hname _ _ ih =>
    rw [List.mem_append, not_or] at h ⊢
    exact ⟨hf _ hname, ih h.2⟩
  | char _ _ ih =>
    rw [List.mem_cons, not_or] at h ⊢
    exact ⟨h.1, ih h.2⟩

theorem oneLine_stripSigils {s : String} (h : OneLine s) : OneLine (stripSigils s) := by
  rw [stripSigils, oneLine_ofList]
  exact not_feed_mapSigils (fun _ => .of_isWord) h

theorem not_feed_escapeText {cs : List Char} (h : '\n' ∉ cs) : '\n' ∉ escapeText cs := by
  fun_induction escapeText cs with
  | case1 cs ih | case2 c cs _ _ ih | case3 c cs _ _ ih => simp_all
  | case4 => exact h

def Part.chars : Part → List Char
  | .text cs | .slot cs => cs

theorem subset_of_mem_parts {cs : List Char} {part : Part} (h : part ∈ parts cs) :
    part.chars ⊆ cs := by
  -- The rest after a slot is shorter, so the induction is on the length.
  induction hn : cs.length using Nat.strongRecOn generalizing cs with
  | ind n ih =>
    subst hn
    cases hnext : nextSlot? cs with
    | none =>
      rw [parts_of_none hnext, List.mem_singleton] at h
      subst h
      exact List.Subset.refl _
    | some slot =>
      obtain ⟨before, inside, after⟩ := slot
      have hcs := (nextSlot?_eq_some hnext).1
      have hafter : after ⊆ cs := by
        rw [hcs]
        exact List.subset_append_of_subset_right _ (List.subset_cons_self _ _)
      have hrest (h : part ∈ parts after) : part.chars ⊆ cs :=
        List.Subset.trans (ih after.length (length_lt_of_nextSlot? hnext) h rfl) hafter
      cases hblank : Text.allBlank inside with
      | true =>
        have hsplit : cs = before ++ '#' :: '{' :: inside ++ ['}'] ++ after := by
          rw [hcs, List.append_assoc _ ['}']]
          rfl
        rw [parts_of_blank hnext hblank] at h
        rcases List.mem_cons.1 h with rfl | h
        · rw [hsplit]
          exact List.subset_append_left _ _
        · exact hrest h
      | false =>
        rw [parts_of_slot hnext hblank] at h
        rcases List.mem_cons.1 h with rfl | h
        · rw [hcs, List.append_assoc]
          exact List.subset_append_left _ _
        · rcases List.mem_cons.1 h with rfl | h
          · intro c hc
            have hinside : c ∈ inside := Text.trim_subset inside hc
            rw [hcs]
            simp [hinside]
          · exact hrest h

theorem oneLine_emit (scope : Scope) {raw : String} (h : OneLine raw) :
    OneLine (emit scope raw) := by
  have hparts : '\n' ∉ (parts raw.toList).flatMap (Part.emit scope) := by
    intro hfeed
    obtain ⟨part, hpart, hfeed⟩ := List.mem_flatMap.1 hfeed
    have hchars : '\n' ∉ part.chars := fun hmem => h (subset_of_mem_parts hpart hmem)
    cases part with
    | text cs => exact not_feed_escapeText hchars hfeed
    | slot cs =>
      have hslot : '\n' ∉ mapSigils scope.instanceVar cs :=
        not_feed_mapSigils (fun _ => oneLine_instanceVar scope) hchars
      simp [Part.emit, hslot] at hfeed
  rw [emit, oneLine_ofList]
  simp [hparts]

end Template

end Script

/-! ### Expressions -/

theorem Numeral.oneLine {raw : String} (h : Numeral raw.toList) : OneLine raw :=
  h.not_mem (by decide) (by decide)

theorem Punct.oneLine_text (p : Punct) : OneLine p.text := by
  cases p <;> decide

theorem FunctionOf.WellFormed.isWord_name {f : FunctionDecl} (h : f.WellFormed) :
    isWord f.name = true := by
  obtain ⟨l, hl, hname⟩ := h.name
  generalize f.name = name at hname ⊢
  unfold Lexeme.functionName? at hname
  split at hname <;> cases hname
  · exact hl.1
  · decide
  · decide

namespace Expr

theorem oneLine_args {scope : Scope} {args : List Expr} (h : ∀ a ∈ args, OneLine (a.emit scope)) :
    OneLine (", ".intercalate (args.map (emit scope))) := by
  refine .intercalate (by decide) fun text htext => ?_
  obtain ⟨a, ha, rfl⟩ := List.mem_map.1 htext
  exact h a ha

theorem Canonical.oneLine_emit {role : Role} {e : Expr} (h : e.Canonical role) (scope : Scope) :
    OneLine (e.emit scope) := by
  induction h with
  | identifier hname => exact .of_isWord hname.1
  | instanceVar hname => exact Script.Template.oneLine_instanceVar scope hname
  | negative hraw => simp +decide [emit, Numeral.oneLine hraw]
  | call hname _ ih | construct hname _ ih =>
    simp +decide [emit, OneLine.of_isWord hname.1, oneLine_args ih]
  | instanceCall hname _ ih =>
    simp +decide [emit, Script.Template.oneLine_instanceMethod scope hname, oneLine_args ih]
  | methodCall _ hname _ iho iha =>
    simp +decide [emit, iho, OneLine.of_isWord hname, oneLine_args iha]
  | @access base start last properties _ hnames ih =>
    rw [OneLine, toList_emit_accessed, List.mem_append, not_or]
    refine ⟨ih, fun hfeed => ?_⟩
    obtain ⟨name, hname, hfeed⟩ := List.mem_flatMap.1 hfeed
    rcases List.mem_cons.1 hfeed with hdot | hfeed
    · cases hdot
    · exact OneLine.of_isWord (hnames name hname) hfeed
  | @atom l _ _ ha hl =>
    unfold atom? at ha
    split at ha <;> cases ha
    · exact Script.oneLine_quote _
    · exact Script.Template.oneLine_emit scope hl.2.1
    · exact Numeral.oneLine hl
    · exact (by decide : OneLine "true")
    · exact (by decide : OneLine "false")
    · exact (by decide : OneLine "null")
  | @group _ _ _ p _ _ _ ihl ihr | @binary _ _ _ p _ _ _ ihl ihr =>
    simp +decide [emit, ihl, ihr, p.oneLine_text]
  | chain _ ih | operand _ ih => exact ih

theorem oneLine_emit_propertyAccess {scope : Scope} {object : Expr}
    (h : OneLine (object.emit scope)) {properties : List String}
    (hp : ∀ name ∈ properties, isWord name = true) (s : Span) :
    OneLine ((Expr.propertyAccess object properties s).emit scope) := by
  have hnames : OneLine (".".intercalate properties) :=
    .intercalate (by decide) fun name hname => .of_isWord (hp name hname)
  simp +decide [emit, h, hnames]

end Expr

end LayoutScript

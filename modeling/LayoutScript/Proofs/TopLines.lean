import LayoutScript.Proofs.ComponentRows

/-! The lines at the margin of a script. Imports, exports and style constants are told from all
other lines by how they start and end, so what a script declares to its surroundings can be read off
its text. -/
namespace LayoutScript

open LayoutScript.Script (Scope Line Statement Method)

namespace Script

/-! ### Three kinds of lines -/

def isImport (row : List Char) : Bool := "import React".toList.isPrefixOf row

def isExport (row : List Char) : Bool :=
  "export default ".toList.isPrefixOf row || "export \x7b ".toList.isPrefixOf row

def isStyleConstant (row : List Char) : Bool :=
  "const ".toList.isPrefixOf row && row.getLast? == some '{'

/-- Every other line. -/
structure Plain (row : List Char) : Prop where
  notImport : isImport row = false
  notExport : isExport row = false
  notStyles : isStyleConstant row = false

namespace Plain

theorem nil : Plain [] := ⟨rfl, rfl, rfl⟩

theorem blank (cs : List Char) : Plain (' ' :: cs) := ⟨rfl, rfl, rfl⟩

end Plain

theorem eq_of_words {u w cs rest : List Char} (hu : ∀ c ∈ u, isWordChar c = true)
    (hw : ∀ c ∈ w, isWordChar c = true) (hcs : ∀ c ∈ cs.head?, isWordChar c = false)
    (hrest : ∀ c ∈ rest.head?, isWordChar c = false) (h : u ++ cs = w ++ rest) :
    u = w ∧ cs = rest := by
  have htake := congrArg (List.takeWhile isWordChar) h
  rw [takeWhile_append_of_head hu hcs, takeWhile_append_of_head hw hrest] at htake
  subst htake
  exact ⟨rfl, List.append_cancel_left h⟩

def followsName : List Char → Bool
  | '.' :: _ | '(' :: _ | ';' :: _ | ' ' :: '=' :: _ => true
  | _ => false

theorem head?_of_followsName {rest : List Char} (h : followsName rest = true) :
    ∀ c ∈ rest.head?, isWordChar c = false := by
  unfold followsName at h
  split at h
  · simp +decide
  · simp +decide
  · simp +decide
  · simp +decide
  · cases h

/-- A name is not taken for a word of the script that something else follows. -/
theorem isPrefixOf_name {u ds : List Char} (hu : u.all isWordChar = true) {d : Char} (hd : d ≠ '=')
    {name : String} (hname : isWord name = true) {rest : List Char}
    (hrest : followsName rest = true) :
    (u ++ ' ' :: d :: ds).isPrefixOf (name.toList ++ rest) = false := by
  rw [Bool.eq_false_iff]
  intro h
  obtain ⟨more, heq⟩ := List.isPrefixOf_iff_prefix.1 h
  rw [List.append_assoc] at heq
  obtain ⟨_, rfl⟩ := eq_of_words (List.all_eq_true.1 hu) (fun c => Template.isWordChar_of_mem hname)
    (by simp +decide) (head?_of_followsName hrest) heq
  simp only [List.cons_append, followsName] at hrest
  split at hrest <;> simp_all

theorem Plain.of_name {name : String} (hname : isWord name = true) {rest : List Char}
    (hrest : followsName rest = true) (hlast : rest.getLast? = some ';') :
    Plain (name.toList ++ rest) where
  notImport := isPrefixOf_name (u := "import".toList) (by decide) (by decide) hname hrest
  notExport := by
    rw [isExport, Bool.or_eq_false_iff]
    exact ⟨isPrefixOf_name (u := "export".toList) (by decide) (by decide) hname hrest,
      isPrefixOf_name (u := "export".toList) (by decide) (by decide) hname hrest⟩
  notStyles := by
    rw [isStyleConstant, List.getLast?_append, hlast]
    exact Bool.and_false _

/-! ### Lines away from the margin -/

def Within (level : Nat) (lines : List Line) : Prop :=
  ∀ line ∈ lines, line = .blank ∨ level ≤ line.indent

namespace Within

variable {level : Nat} {line : Line} {lines lines' : List Line}

theorem nil : Within level [] := by simp [Within]

theorem cons (h : level ≤ line.indent) (hs : Within level lines) : Within level (line :: lines) :=
  List.forall_mem_cons.2 ⟨.inr h, hs⟩

theorem consBlank (hs : Within level lines) : Within level (.blank :: lines) :=
  List.forall_mem_cons.2 ⟨.inl rfl, hs⟩

theorem append (h : Within level lines) (h' : Within level lines') :
    Within level (lines ++ lines') :=
  List.forall_mem_append.2 ⟨h, h'⟩

theorem flatMap {α : Type} {xs : List α} {f : α → List Line} (h : ∀ x ∈ xs, Within level (f x)) :
    Within level (xs.flatMap f) := by
  intro line hline
  obtain ⟨x, hx, hline⟩ := List.mem_flatMap.1 hline
  exact h x hx line hline

theorem mono {outer : Nat} (h : Within level lines) (hle : outer ≤ level) : Within outer lines :=
  fun line hline => (h line hline).imp_right (Nat.le_trans hle)

theorem plain (h : Within (level + 1) lines) : ∀ line ∈ lines, Plain line.row := by
  intro line hline
  rcases h line hline with rfl | hindent
  · exact .nil
  · obtain ⟨n, hn⟩ : ∃ n, 2 * line.indent = n + 1 := ⟨2 * line.indent - 1, by omega⟩
    rw [Line.row, hn, List.replicate_succ, List.cons_append]
    exact .blank _

end Within

namespace Statement

mutual

theorem within_lines (indent : Nat) (t : Statement) : Within indent (t.lines indent) := by
  cases t with
  | letVar | setVar | setField | eval =>
    rw [lines]
    exact .cons (Nat.le_refl _) .nil
  | give value =>
    cases value <;> rw [lines] <;> exact .cons (Nat.le_refl _) .nil
  | branch first others otherwise =>
    obtain ⟨condition, body⟩ := first
    rw [lines]
    have hbody : Within indent (allLines (indent + 1) body) :=
      (within_allLines (indent + 1) body).mono (Nat.le_succ _)
    exact .append
      (.append (.append (.cons (Nat.le_refl _) hbody) (within_branchLines indent others))
      (within_elseLines indent otherwise)) (.cons (Nat.le_refl _) .nil)
  | function f =>
    obtain ⟨name, params, body⟩ := f
    rw [lines]
    exact .append (.cons (Nat.le_refl _) ((within_allLines (indent + 1) body).mono (Nat.le_succ _)))
      (.cons (Nat.le_refl _) (.consBlank .nil))
  | classDecl name members =>
    rw [lines]
    exact .append (.cons (Nat.le_refl _) ((within_memberLines indent members).mono (Nat.le_succ _)))
      (.cons (Nat.le_refl _) (.consBlank .nil))

theorem within_branchLines (indent : Nat) (others : List (BranchOf Statement)) :
    Within indent (branchLines indent others) := by
  cases others with
  | nil => exact .nil
  | cons b others =>
    obtain ⟨condition, body⟩ := b
    rw [branchLines]
    exact .append (.cons (Nat.le_refl _) ((within_allLines (indent + 1) body).mono (Nat.le_succ _)))
      (within_branchLines indent others)

theorem within_elseLines (indent : Nat) (otherwise : Option (List Statement)) :
    Within indent (elseLines indent otherwise) := by
  cases otherwise with
  | none => exact .nil
  | some body =>
    rw [elseLines]
    exact .cons (Nat.le_refl _) ((within_allLines (indent + 1) body).mono (Nat.le_succ _))

theorem within_memberLines (indent : Nat) (members : List Method) :
    Within (indent + 1) (memberLines indent members) := by
  cases members with
  | nil => exact .nil
  | cons m members =>
    obtain ⟨name, params, body⟩ := m
    have hgap : Within (indent + 1) (if members.isEmpty then [] else [.blank]) := by
      split
      · exact .nil
      · exact .consBlank .nil
    have hbody : Within (indent + 1) (allLines (indent + 2) body) :=
      (within_allLines (indent + 2) body).mono (Nat.le_succ _)
    rw [memberLines]
    exact .append (.append (.cons (Nat.le_refl _) hbody) (.cons (Nat.le_refl _) hgap))
      (within_memberLines indent members)

theorem within_allLines (indent : Nat) (ts : List Statement) :
    Within indent (allLines indent ts) := by
  cases ts with
  | nil => exact .nil
  | cons t ts =>
    rw [allLines]
    exact (within_lines indent t).append (within_allLines indent ts)

end

end Statement

end Script

open LayoutScript.Script (Within Plain)

namespace Markup

mutual

theorem within_lines (scope : Scope) (indent : Nat) (m : Markup) :
    Within indent (m.lines scope indent) := by
  cases m with
  | text | interpolation =>
    rw [lines]
    · exact .cons (Nat.le_refl _) .nil
    · simp
  | element e =>
    rw [lines]
    exact within_elementLines scope indent e

theorem within_elementLines (scope : Scope) (indent : Nat) (e : Element) :
    Within indent (elementLines scope indent e) := by
  obtain ⟨tag, className, attributes, children, span⟩ := e
  have hchildren : Within indent (allLines scope (indent + 1) children) :=
    (within_allLines scope (indent + 1) children).mono (Nat.le_succ _)
  rw [elementLines]
  split
  · exact .cons (Nat.le_refl _) .nil
  · split
    · exact .append (.cons (Nat.le_refl _) hchildren) (.cons (Nat.le_refl _) .nil)
    · exact .cons (Nat.le_refl _) .nil

theorem within_allLines (scope : Scope) (indent : Nat) (ms : List Markup) :
    Within indent (allLines scope indent ms) := by
  cases ms with
  | nil => exact .nil
  | cons m ms =>
    rw [allLines]
    exact (within_lines scope indent m).append (within_allLines scope indent ms)

end

end Markup

theorem RenderBlock.within_lines (scope : Scope) (indent : Nat) (render : Option RenderBlock) :
    Within indent (RenderBlock.lines scope indent render) := by
  have helement (k : Nat) (e : Element) :
      Within indent (Markup.elementLines scope (indent + k) e) :=
    (Markup.within_elementLines scope (indent + k) e).mono (Nat.le_add_right _ _)
  unfold RenderBlock.lines
  split
  · exact .cons (Nat.le_refl _) .nil
  · exact .cons (Nat.le_refl _) .nil
  · exact .append (.cons (Nat.le_refl _) (helement 1 _)) (.cons (Nat.le_refl _) .nil)
  · exact .append (.cons (Nat.le_refl _) (.cons (Nat.le_succ _) (.flatMap fun e _ => helement 2 e)))
      (.cons (Nat.le_succ _) (.cons (Nat.le_refl _) .nil))

/-! ### Statements at the margin -/

/-- The text starts with a word, and a dot or a parenthesis follows it, if anything does. -/
def NameFirst (cs : List Char) : Prop :=
  ∃ name rest, isWord name = true ∧ cs = name.toList ++ rest ∧ ∀ c ∈ rest.head?, c = '.' ∨ c = '('

namespace NameFirst

theorem of_isWord {name : String} (h : isWord name = true) : NameFirst name.toList :=
  ⟨name, [], h, (List.append_nil _).symm, by simp⟩

theorem append {cs ds : List Char} (h : NameFirst cs) (hds : ∀ c ∈ ds.head?, c = '.' ∨ c = '(') :
    NameFirst (cs ++ ds) := by
  obtain ⟨name, rest, hname, rfl, hrest⟩ := h
  refine ⟨name, rest ++ ds, hname, List.append_assoc _ _ _, ?_⟩
  cases rest with
  | nil => exact hds
  | cons c rest => exact hrest

theorem plain {cs tail : List Char} (h : NameFirst cs) (ht : Script.followsName tail = true)
    (hlast : tail.getLast? = some ';') : Plain (cs ++ tail) := by
  obtain ⟨name, rest, hname, rfl, hrest⟩ := h
  rw [List.append_assoc]
  refine .of_name hname ?_ (by rw [List.getLast?_append, hlast]; rfl)
  cases rest with
  | nil => exact ht
  | cons c rest =>
    rcases hrest c rfl with rfl | rfl <;> rfl

theorem instanceName {name : String} (h : isWord name = true) (inside : Bool) :
    NameFirst (if inside then name else "this." ++ name).toList := by
  cases inside with
  | true => exact of_isWord h
  | false =>
    refine ⟨"this", '.' :: name.toList, by decide, ?_, by simp⟩
    rw [if_neg Bool.false_ne_true, String.toList_append]
    rfl

theorem call {callee : String} (h : NameFirst callee.toList) (args : String) :
    NameFirst (callee ++ "(" ++ args ++ ")").toList := by
  simp only [String.toList_append, List.append_assoc]
  exact h.append (by simp)

end NameFirst

theorem Text.isWordChar_toUpper {c : Char} (h : isWordStart c = true) :
    isWordChar (toUpper c) = true := by
  have hascii : ∀ n : Fin 128, isWordStart (Char.ofNat n) = true →
      isWordChar (toUpper (Char.ofNat n)) = true := by
    decide +kernel
  have hlt : c.toNat < 128 := by
    rcases isWordStart_iff.1 h with hc | hc | hc <;> omega
  have hupper := hascii ⟨c.toNat, hlt⟩
  simp only [Char.ofNat_toNat] at hupper
  exact hupper h

theorem Script.isWord_setterName {name : String} (h : isWord name = true) :
    isWord (setterName name) = true := by
  unfold isWord at h
  split at h
  · cases h
  · next c cs hname =>
    have hcapitalize : Text.capitalize name = String.ofList (Text.toUpper c :: cs) := by
      simp only [Text.capitalize, Text.mapFirst, hname]
    rw [Bool.and_eq_true, List.all_eq_true] at h
    rw [setterName, hcapitalize]
    exact Template.isWord_append (by decide)
      (List.forall_mem_cons.2 ⟨Text.isWordChar_toUpper h.1, h.2⟩)

namespace Expr

theorem head?_propertiesText (properties : List String) :
    ∀ c ∈ (propertiesText properties).head?, c = '.' ∨ c = '(' := by
  cases properties <;> simp [propertiesText]

theorem nameFirst_propertyAccess {scope : Scope} {object : Expr}
    (h : NameFirst (object.emit scope).toList) (properties : List String) (s : Span) :
    NameFirst ((Expr.propertyAccess object properties s).emit scope).toList := by
  rw [emit, String.toList_append, String.toList_append, List.append_assoc]
  exact h.append (by simp)

theorem Canonical.nameFirst {role : Role} {e : Expr} (h : e.Canonical role) (ho : e.opening? ≠ none)
    (scope : Scope) : NameFirst (e.emit scope).toList := by
  induction h with
  | identifier hname => exact .of_isWord hname.1
  | call hname _ _ => exact NameFirst.call (.of_isWord hname.1) _
  | instanceVar hname => exact .instanceName hname _
  | instanceCall hname _ _ => exact NameFirst.call (.instanceName hname _) _
  | methodCall _ _ _ iho _ =>
    refine NameFirst.call ?_ _
    rw [String.toList_append, String.toList_append, List.append_assoc]
    exact (iho ho).append (by simp)
  | access _ _ ih =>
    rw [opening?_accessed] at ho
    rw [toList_emit_accessed]
    exact (ih ho).append (head?_propertiesText _)
  | @atom l _ _ ha _ =>
    unfold atom? at ha
    split at ha <;> cases ha <;> exact absurd rfl ho
  | chain _ ih | operand _ ih => exact ih ho
  | _ => exact absurd rfl ho

end Expr

namespace Script.Statement

/-- Names at the margin are followed by a sign of the script. -/
def NamesFirst : Statement → Prop
  | .setVar text _ | .setField text _ | .eval text => NameFirst text.toList
  | _ => True

theorem row_atMargin (text : String) : Line.row ⟨0, text⟩ = text.toList := by simp [Line.row]

theorem plain_branchLines (others : List (BranchOf Statement)) :
    ∀ line ∈ branchLines 0 others, Plain line.row := by
  induction others with
  | nil => simp [branchLines]
  | cons b others ih =>
    rw [branchLines]
    refine List.forall_mem_append.2 ⟨List.forall_mem_cons.2 ⟨?_, (within_allLines 1 _).plain⟩, ih⟩
    simp only [row_atMargin, String.toList_append, List.append_assoc]
    exact ⟨rfl, rfl, rfl⟩

theorem plain_elseLines (otherwise : Option (List Statement)) :
    ∀ line ∈ elseLines 0 otherwise, Plain line.row := by
  cases otherwise with
  | none => simp [elseLines]
  | some body => exact List.forall_mem_cons.2 ⟨⟨rfl, rfl, rfl⟩, (within_allLines 1 body).plain⟩

theorem plain_closing : ∀ line ∈ [⟨0, "\x7d"⟩, Line.blank], Plain line.row :=
  List.forall_mem_cons.2 ⟨⟨rfl, rfl, rfl⟩, List.forall_mem_singleton.2 .nil⟩

theorem plain_lines {t : Statement} (h : t.NamesFirst) : ∀ line ∈ t.lines 0, Plain line.row := by
  cases t with
  | letVar name value =>
    refine List.forall_mem_singleton.2 ?_
    simp only [row_atMargin, String.toList_append, List.append_assoc]
    exact ⟨rfl, rfl, rfl⟩
  | setVar text value | setField text value =>
    refine List.forall_mem_singleton.2 ?_
    simp only [row_atMargin, String.toList_append, List.append_assoc]
    exact NameFirst.plain h rfl (by rw [← List.append_assoc, List.getLast?_append]; rfl)
  | eval text =>
    refine List.forall_mem_singleton.2 ?_
    rw [row_atMargin, String.toList_append]
    exact NameFirst.plain h rfl rfl
  | give value =>
    cases value with
    | none => exact List.forall_mem_singleton.2 ⟨rfl, rfl, rfl⟩
    | some text =>
      refine List.forall_mem_singleton.2 ?_
      rw [row_atMargin, String.toList_append, String.toList_append, List.append_assoc]
      exact ⟨rfl, rfl, rfl⟩
  | branch first others otherwise =>
    rw [lines]
    refine List.forall_mem_append.2 ⟨List.forall_mem_append.2 ⟨List.forall_mem_append.2
      ⟨List.forall_mem_cons.2 ⟨?_, (within_allLines 1 _).plain⟩, plain_branchLines others⟩,
      plain_elseLines otherwise⟩, List.forall_mem_singleton.2 ⟨rfl, rfl, rfl⟩⟩
    simp only [row_atMargin, String.toList_append, List.append_assoc]
    exact ⟨rfl, rfl, rfl⟩
  | function f =>
    rw [lines]
    refine List.forall_mem_append.2
      ⟨List.forall_mem_cons.2 ⟨?_, (within_allLines 1 _).plain⟩, plain_closing⟩
    simp only [row_atMargin, String.toList_append, List.append_assoc]
    exact ⟨rfl, rfl, rfl⟩
  | classDecl name members =>
    rw [lines]
    refine List.forall_mem_append.2
      ⟨List.forall_mem_cons.2 ⟨?_, (within_memberLines 0 members).plain⟩, plain_closing⟩
    simp only [row_atMargin, String.toList_append, List.append_assoc]
    exact ⟨rfl, rfl, rfl⟩

end Script.Statement

theorem Stmt.Canonical.namesFirst {s : Stmt} (h : s.Canonical) {scope after : Scope} {t : Statement}
    (hlower : s.lower scope = .ok (t, after)) : t.NamesFirst := by
  cases h with
  | function _ _ =>
    obtain ⟨m, _, rfl, _⟩ := lower_function hlower
    trivial
  | classDecl _ _ _ _ =>
    obtain ⟨members, _, rfl, _⟩ := lower_classDecl hlower
    trivial
  | branch _ _ _ _ _ _ =>
    obtain ⟨ts, bs, os, _, _, _, rfl, _⟩ := lower_branch hlower
    trivial
  | assign hname _ =>
    rw [lower] at hlower
    split at hlower <;> cases hlower
    · exact NameFirst.of_isWord hname.1
    · trivial
  | assignProperty hobject _ _ ho _ =>
    rw [lower] at hlower
    cases hlower
    exact Expr.nameFirst_propertyAccess (hobject.nameFirst (by simp [ho]) scope) _ _
  | @assignInstanceProperty _ s _ _ _ _ hname _ _ _ =>
    rw [lower] at hlower
    cases hlower
    have hobject :=
      (Expr.Canonical.instanceVar (s := s) hname).nameFirst (by simp [Expr.opening?]) scope
    exact Expr.nameFirst_propertyAccess hobject _ _
  | assignInstanceVar hname _ =>
    rw [lower] at hlower
    split at hlower <;> cases hlower
    · exact NameFirst.call (.of_isWord (Script.isWord_setterName hname)) _
    · exact NameFirst.instanceName hname false
  | print _ =>
    rw [lower] at hlower
    cases hlower
    have hprint : NameFirst "print".toList := .of_isWord (by decide)
    exact hprint.call _
  | give _ | giveNothing =>
    rw [lower] at hlower
    cases hlower
    trivial
  | access he ho _ | instanceCall he ho _ =>
    rw [(lower_expr hlower).1]
    exact he.nameFirst (by simp [ho]) scope

end LayoutScript

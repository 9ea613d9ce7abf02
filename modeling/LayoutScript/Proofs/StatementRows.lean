import LayoutScript.Proofs.CleanUp
import LayoutScript.Proofs.GeneratedNames
import LayoutScript.Proofs.LineSites
import LayoutScript.Proofs.OneLine

/-! The lines of statements. Each is a row: it holds no line feed, and ends in a sign of the
script. -/
namespace LayoutScript

open LayoutScript.Script (Scope Line Statement Method)

namespace Script

def AreRows (lines : List Line) : Prop := ∀ line ∈ lines, Text.IsRow line.row

namespace Line

theorem isRow {indent : Nat} {s tail : String} (hs : OneLine s) (ht : endsRow tail = true) :
    Text.IsRow (row ⟨indent, s ++ tail⟩) := by
  rw [row, String.toList_append, ← List.append_assoc]
  refine isRow_append ?_ ht
  rw [List.mem_append, not_or]
  exact ⟨by simp, hs⟩

theorem isRow_of_endsRow {indent : Nat} {s : String} (h : endsRow s = true) :
    Text.IsRow (row ⟨indent, s⟩) := by
  rw [← String.empty_append (s := s)]
  exact isRow (by decide) h

theorem isRow_blank : Text.IsRow blank.row := Text.isRow_of_test (by decide)

end Line

namespace AreRows

theorem nil : AreRows [] := by simp [AreRows]

theorem cons {line : Line} {lines : List Line} (h : Text.IsRow line.row) (hs : AreRows lines) :
    AreRows (line :: lines) := List.forall_mem_cons.2 ⟨h, hs⟩

theorem append {lines lines' : List Line} (h : AreRows lines) (h' : AreRows lines') :
    AreRows (lines ++ lines') := List.forall_mem_append.2 ⟨h, h'⟩

theorem flatMap {α : Type} {xs : List α} {f : α → List Line} (h : ∀ x ∈ xs, AreRows (f x)) :
    AreRows (xs.flatMap f) := by
  intro line hline
  obtain ⟨x, hx, hline⟩ := List.mem_flatMap.1 hline
  exact h x hx line hline

theorem closing {indent : Nat} {s : String} (h : endsRow s = true) :
    AreRows [⟨indent, s⟩, .blank] := .cons (Line.isRow_of_endsRow h) (.cons Line.isRow_blank .nil)

end AreRows

namespace Statement

def InRows (t : Statement) : Prop := ∀ indent, AreRows (t.lines indent)

theorem areRows_allLines {ts : List Statement} (h : ∀ t ∈ ts, t.InRows) (indent : Nat) :
    AreRows (allLines indent ts) := by
  induction ts with
  | nil => exact .nil
  | cons t ts ih =>
    obtain ⟨ht, hts⟩ := List.forall_mem_cons.1 h
    rw [allLines]
    exact .append (ht indent) (ih hts)

theorem inRows_of_lines {t : Statement} {s tail : String}
    (h : ∀ indent, t.lines indent = [⟨indent, s ++ tail⟩]) (hs : OneLine s)
    (ht : endsRow tail = true) :
    t.InRows := by
  intro indent
  rw [h]
  exact .cons (Line.isRow hs ht) .nil

theorem inRows_letVar {name value : String} (hname : OneLine name) (hvalue : OneLine value) :
    (Statement.letVar name value).InRows :=
  inRows_of_lines (fun _ => rfl) (by simp +decide [hname, hvalue]) (by decide)

theorem inRows_setVar {name value : String} (hname : OneLine name) (hvalue : OneLine value) :
    (Statement.setVar name value).InRows :=
  inRows_of_lines (fun _ => rfl) (by simp +decide [hname, hvalue]) (by decide)

theorem inRows_setField {target value : String} (htarget : OneLine target)
    (hvalue : OneLine value) :
    (Statement.setField target value).InRows :=
  inRows_of_lines (fun _ => rfl) (by simp +decide [htarget, hvalue]) (by decide)

theorem inRows_eval {text : String} (h : OneLine text) : (Statement.eval text).InRows :=
  inRows_of_lines (fun _ => rfl) h (by decide)

theorem inRows_give {value : Option String} (h : ∀ text ∈ value, OneLine text) :
    (Statement.give value).InRows := by
  cases value with
  | none =>
    intro indent
    rw [lines]
    exact .cons (Line.isRow_of_endsRow (by decide)) .nil
  | some text =>
    exact inRows_of_lines (fun _ => rfl) (by simp +decide [h text rfl]) (by decide)

end Statement

structure MethodOf.InRows (m : Method) : Prop where
  name : OneLine m.name
  params : ∀ name ∈ m.params, OneLine name
  body : ∀ t ∈ m.body, t.InRows

structure BranchOf.InRows (b : BranchOf Statement) : Prop where
  condition : OneLine b.condition
  body : ∀ t ∈ b.body, t.InRows

theorem MethodOf.InRows.oneLine_paramList {m : Method} (h : m.InRows) :
    OneLine (paramList m.params) :=
  Script.oneLine_paramList h.params

namespace Statement

theorem inRows_function {m : Method} (h : m.InRows) : (Statement.function m).InRows := by
  intro indent
  rw [lines]
  refine .append (.cons (Line.isRow ?_ (by decide)) (areRows_allLines h.body _))
    (.closing (by decide))
  simp +decide [h.name, h.oneLine_paramList]

theorem areRows_memberLines {members : List Method} (h : ∀ m ∈ members, m.InRows) (indent : Nat) :
    AreRows (memberLines indent members) := by
  induction members with
  | nil => exact .nil
  | cons m members ih =>
    obtain ⟨hm, hmembers⟩ := List.forall_mem_cons.1 h
    have hgap : AreRows (if members.isEmpty then [] else [.blank]) := by
      split
      · exact .nil
      · exact .cons Line.isRow_blank .nil
    rw [memberLines]
    refine .append (.append (.cons (Line.isRow ?_ (by decide)) (areRows_allLines hm.body _))
      (.cons (Line.isRow_of_endsRow (by decide)) hgap)) (ih hmembers)
    simp +decide [hm.name, hm.oneLine_paramList]

theorem inRows_classDecl {name : String} {members : List Method} (hname : OneLine name)
    (h : ∀ m ∈ members, m.InRows) : (Statement.classDecl name members).InRows := by
  intro indent
  rw [lines]
  refine .append (.cons (Line.isRow ?_ (by decide)) (areRows_memberLines h _))
    (.closing (by decide))
  simp +decide [hname]

theorem areRows_branchLines {others : List (BranchOf Statement)} (h : ∀ b ∈ others, b.InRows)
    (indent : Nat) : AreRows (branchLines indent others) := by
  induction others with
  | nil => exact .nil
  | cons b others ih =>
    obtain ⟨hb, hothers⟩ := List.forall_mem_cons.1 h
    rw [branchLines]
    refine .append (.cons (Line.isRow ?_ (by decide)) (areRows_allLines hb.body _)) (ih hothers)
    simp +decide [hb.condition]

theorem areRows_elseLines {otherwise : Option (List Statement)}
    (h : ∀ body ∈ otherwise, ∀ t ∈ body, t.InRows) (indent : Nat) :
    AreRows (elseLines indent otherwise) := by
  cases otherwise with
  | none => exact .nil
  | some body =>
    exact .cons (Line.isRow_of_endsRow (by decide)) (areRows_allLines (h body rfl) _)

theorem inRows_branch {first : BranchOf Statement} {others : List (BranchOf Statement)}
    {otherwise : Option (List Statement)} (hfirst : first.InRows) (hothers : ∀ b ∈ others, b.InRows)
    (hotherwise : ∀ body ∈ otherwise, ∀ t ∈ body, t.InRows) :
    (Statement.branch first others otherwise).InRows := by
  intro indent
  rw [lines]
  refine .append
    (.append (.append (.cons (Line.isRow ?_ (by decide)) (areRows_allLines hfirst.body _))
    (areRows_branchLines hothers _)) (areRows_elseLines hotherwise _))
    (.cons (Line.isRow_of_endsRow (by decide)) .nil)
  simp +decide [hfirst.condition]

end Statement

end Script

/-! ### What lowering gives -/

namespace Stmt

def LowersToRows (s : Stmt) : Prop := ∀ scope t after, s.lower scope = .ok (t, after) → t.InRows

theorem lowerAll_inRows {body : List Stmt} (hbody : ∀ s ∈ body, s.LowersToRows) {scope : Scope}
    {ts : List Statement} (h : lowerAll scope body = .ok ts) : ∀ t ∈ ts, t.InRows := by
  induction body generalizing scope ts with
  | nil =>
    rw [lowerAll] at h
    cases h
    simp
  | cons s body ih =>
    obtain ⟨hs, hrest⟩ := List.forall_mem_cons.1 hbody
    obtain ⟨t, after, rest, ht, htail, rfl⟩ := lowerAll_cons h
    exact List.forall_mem_cons.2 ⟨hs scope t after ht, ih hrest htail⟩

theorem oneLine_paramNames {params : List Param} (h : ∀ p ∈ params, p.WellFormed) :
    ∀ name ∈ Param.names params, OneLine name := by
  intro name hname
  obtain ⟨p, hp, rfl⟩ := List.mem_map.1 hname
  exact .of_isWord (h p hp).1.1

theorem lowerFunction_inRows {f : FunctionDecl} (hf : f.WellFormed)
    (hbody : ∀ s ∈ f.body, s.LowersToRows) {scope : Scope} {m : Method}
    (h : lowerFunction scope f = .ok m) : m.InRows := by
  obtain ⟨hparams, hlower⟩ := lowerFunction_body h
  refine ⟨?_, ?_, lowerAll_inRows hbody hlower⟩
  · rw [lowerFunction_name h]
    exact .of_isWord hf.isWord_name
  · rw [hparams]
    exact oneLine_paramNames hf.params

theorem lowerMembers_inRows {fs : List FunctionDecl} (hfs : ∀ f ∈ fs, f.WellFormed)
    (hbodies : ∀ f ∈ fs, ∀ s ∈ f.body, s.LowersToRows) {isConstructor : Bool} {m : Method}
    (h : (isConstructor, .ok m) ∈ lowerMembers fs) : m.InRows := by
  induction fs with
  | nil => cases h
  | cons f fs ih =>
    obtain ⟨hf, hrest⟩ := List.forall_mem_cons.1 hfs
    obtain ⟨hbody, hbodiesRest⟩ := List.forall_mem_cons.1 hbodies
    obtain ⟨name, params, type, body, span⟩ := f
    rw [lowerMembers] at h
    rcases List.mem_cons.1 h with heq | hmem
    · obtain ⟨rfl, hm⟩ := Prod.mk.inj heq
      split at hm
      · cases hm
      · next hts =>
        cases hm
        refine ⟨?_, oneLine_paramNames hf.params, lowerAll_inRows hbody hts⟩
        dsimp only
        split
        · decide
        · exact .of_isWord hf.isWord_name
    · exact ih hrest hbodiesRest hmem

theorem lowerElsifs_inRows {es : List Elsif} (hconditions : ∀ e ∈ es, e.condition.Canonical .whole)
    (hes : ∀ e ∈ es, ∀ s ∈ e.body, s.LowersToRows) {scope : Scope}
    {bs : List (Script.BranchOf Statement)} (h : lowerElsifs scope es = .ok bs) :
    ∀ b ∈ bs, b.InRows := by
  induction es generalizing bs with
  | nil =>
    rw [lowerElsifs] at h
    cases h
    simp
  | cons e es ih =>
    obtain ⟨hcondition, hconditions⟩ := List.forall_mem_cons.1 hconditions
    obtain ⟨he, hes⟩ := List.forall_mem_cons.1 hes
    obtain ⟨ts, rest, hts, hrest, rfl⟩ := lowerElsifs_cons h
    exact List.forall_mem_cons.2
      ⟨⟨hcondition.oneLine_emit scope, lowerAll_inRows he hts⟩, ih hconditions hes hrest⟩

theorem lowerElse_inRows {otherwise : List Stmt} (hbody : ∀ s ∈ otherwise, s.LowersToRows)
    {scope : Scope} {hasElse : Bool} {os : Option (List Statement)}
    (h : (if hasElse then (lowerAll scope otherwise).map some else .ok none) = .ok os) :
    ∀ body ∈ os, ∀ t ∈ body, t.InRows := by
  rcases lowerElse_eq h with ⟨_, rfl⟩ | ⟨us, _, rfl, hus⟩
  · simp
  · intro body hmem
    cases hmem
    exact lowerAll_inRows hbody hus

theorem lower_expr {e : Expr} {scope after : Scope} {t : Statement}
    (h : lower scope (.expr e) = .ok (t, after)) : t = .eval (e.emit scope) ∧ after = scope := by
  rw [lower] at h
  split at h
  · cases h
  · next he =>
    cases h
    cases e <;> cases he <;> exact ⟨rfl, rfl⟩

theorem Canonical.lowersToRows {s : Stmt} (h : s.Canonical) : s.LowersToRows := by
  induction h with
  | function hf _ ih =>
    intro scope t after hlower
    obtain ⟨m, hm, rfl, _⟩ := lower_function hlower
    exact Statement.inRows_function (lowerFunction_inRows hf ih hm)
  | classDecl hname _ hmethods _ ih =>
    intro scope t after hlower
    obtain ⟨members, hmembers, rfl, _⟩ := lower_classDecl hlower
    refine Statement.inRows_classDecl (.of_isWord hname.1) fun m hm => ?_
    have hmem : .ok m ∈ constructorFirst (lowerMembers _) := hmembers ▸ List.mem_map_of_mem hm
    obtain ⟨isConstructor, hmem⟩ := mem_of_mem_constructorFirst hmem
    exact lowerMembers_inRows hmethods ih hmem
  | branch hcondition _ hconditions _ _ _ ihb ihe iho =>
    intro scope t after hlower
    obtain ⟨ts, bs, os, hts, hbs, hos, rfl, _⟩ := lower_branch hlower
    exact Statement.inRows_branch ⟨hcondition.oneLine_emit scope, lowerAll_inRows ihb hts⟩
      (lowerElsifs_inRows hconditions ihe hbs) (lowerElse_inRows iho hos)
  | assign hname hvalue =>
    intro scope t after hlower
    rw [lower] at hlower
    split at hlower <;> cases hlower
    · exact Statement.inRows_setVar (.of_isWord hname.1) (hvalue.oneLine_emit scope)
    · exact Statement.inRows_letVar (.of_isWord hname.1) (hvalue.oneLine_emit scope)
  | assignProperty hobject _ hnames _ hvalue =>
    intro scope t after hlower
    rw [lower] at hlower
    cases hlower
    exact Statement.inRows_setField
      (Expr.oneLine_emit_propertyAccess (hobject.oneLine_emit scope) hnames _)
        (hvalue.oneLine_emit scope)
  | assignInstanceProperty hname _ hnames hvalue =>
    intro scope t after hlower
    rw [lower] at hlower
    cases hlower
    exact Statement.inRows_setField (Expr.oneLine_emit_propertyAccess
      ((Expr.Canonical.instanceVar hname).oneLine_emit scope) hnames _) (hvalue.oneLine_emit scope)
  | assignInstanceVar hname hvalue =>
    have hline := OneLine.of_isWord hname
    intro scope t after hlower
    rw [lower] at hlower
    split at hlower <;> cases hlower
    · apply Statement.inRows_eval
      simp +decide [Script.oneLine_setterName hline, hvalue.oneLine_emit scope]
    · exact Statement.inRows_setField (by simp +decide [hline]) (hvalue.oneLine_emit scope)
  | print hvalue =>
    intro scope t after hlower
    rw [lower] at hlower
    cases hlower
    apply Statement.inRows_eval
    simp +decide [hvalue.oneLine_emit scope]
  | give hvalue =>
    intro scope t after hlower
    rw [lower] at hlower
    cases hlower
    refine Statement.inRows_give fun text htext => ?_
    cases htext
    exact hvalue.oneLine_emit scope
  | giveNothing =>
    intro scope t after hlower
    rw [lower] at hlower
    cases hlower
    exact Statement.inRows_give (by simp)
  | access he _ _ | instanceCall he _ _ =>
    intro scope t after hlower
    rw [(lower_expr hlower).1]
    exact Statement.inRows_eval (he.oneLine_emit scope)

end Stmt

end LayoutScript

import LayoutScript.Proofs.Classification
import LayoutScript.Proofs.Components
import LayoutScript.Proofs.Occurrences
import Mathlib.Data.List.Forall2
import Mathlib.Data.List.Perm.Basic

/-! Names that a script makes up: setters and style constants. They are made from other names by
changing the case of a first letter, so two of them are the same exactly if the names behind them
differ in nothing else. -/
namespace LayoutScript

/-! ### The case of a first letter -/

def differInCase (a b : String) : Bool :=
  match a.toList, b.toList with
  | c :: cs, d :: ds => c != d && c.toLower == d.toLower && cs == ds
  | _, _ => false

namespace Text

/-- The first characters of words have the case mappings of ASCII letters. -/
theorem wordStart_case_ascii : ∀ n : Fin 128, isWordStart (Char.ofNat n) = true →
    toUpper (Char.ofNat n) = (Char.ofNat n).toUpper ∧
    toLower (Char.ofNat n) = (Char.ofNat n).toLower ∧
      (Char.ofNat n).toUpper.toLower = (Char.ofNat n).toLower ∧
      (Char.ofNat n).toLower.toUpper = (Char.ofNat n).toUpper := by
  decide +kernel

theorem wordStart_case {c : Char} (h : isWordStart c = true) : toUpper c = c.toUpper ∧
    toLower c = c.toLower ∧ c.toUpper.toLower = c.toLower ∧ c.toLower.toUpper = c.toUpper := by
  have hlt : c.toNat < 128 := by
    rcases isWordStart_iff.1 h with hc | hc | hc <;> omega
  have hcase := wordStart_case_ascii ⟨c.toNat, hlt⟩
  simp only [Char.ofNat_toNat] at hcase
  exact hcase h

theorem toUpper_eq_iff {c d : Char} (hc : isWordStart c = true) (hd : isWordStart d = true) :
    toUpper c = toUpper d ↔ c.toLower = d.toLower := by
  obtain ⟨hcu, _, hcl, hcr⟩ := wordStart_case hc
  obtain ⟨hdu, _, hdl, hdr⟩ := wordStart_case hd
  rw [hcu, hdu]
  constructor
  · intro h
    rw [← hcl, h, hdl]
  · intro h
    rw [← hcr, h, hdr]

theorem toLower_eq_iff {c d : Char} (hc : isWordStart c = true) (hd : isWordStart d = true) :
    toLower c = toLower d ↔ c.toLower = d.toLower := by
  rw [(wordStart_case hc).2.1, (wordStart_case hd).2.1]

theorem mapFirst_eq_iff {f : Char → Char}
    (hf : ∀ {c d}, isWordStart c = true → isWordStart d = true →
      (f c = f d ↔ c.toLower = d.toLower)) {a b : String} (ha : isWord a = true) (hb :
        isWord b = true) :
    mapFirst f a = mapFirst f b ↔ a = b ∨ differInCase a b = true := by
  unfold isWord at ha hb
  cases hca : a.toList with
  | nil => simp [hca] at ha
  | cons c cs =>
    cases hdb : b.toList with
    | nil => simp [hdb] at hb
    | cons d ds =>
      simp only [hca, hdb, Bool.and_eq_true] at ha hb
      have hab : a = b ↔ c = d ∧ cs = ds := by
        rw [← String.toList_inj, hca, hdb, List.cons.injEq]
      have hfirst : mapFirst f a = mapFirst f b ↔ f c = f d ∧ cs = ds := by
        simp [mapFirst, hca, hdb, String.ofList_inj]
      rw [hfirst, hf ha.1 hb.1, hab]
      simp only [differInCase, hca, hdb, Bool.and_eq_true, bne_iff_ne, beq_iff_eq]
      grind

end Text

theorem Script.setterName_eq_iff {a b : String} (ha : isWord a = true) (hb : isWord b = true) :
    setterName a = setterName b ↔ a = b ∨ differInCase a b = true := by
  rw [← Text.mapFirst_eq_iff Text.toUpper_eq_iff ha hb, setterName, setterName, ← String.toList_inj,
    String.toList_append, String.toList_append, List.append_cancel_left_eq, String.toList_inj]
  rfl

theorem lowerFirst_append_eq_iff {a b : String} (ha : isWord a = true) (hb : isWord b = true)
    (ending : String) : Text.lowerFirst a ++ ending = Text.lowerFirst b ++ ending ↔
      a = b ∨ differInCase a b = true := by
  rw [← Text.mapFirst_eq_iff Text.toLower_eq_iff ha hb, ← String.toList_inj, String.toList_append,
    String.toList_append, List.append_cancel_right_eq, String.toList_inj]
  rfl

/-- Names that are made from distinct ones are distinct exactly if no two of those differ in case
only. -/
theorem nodup_map_iff {make : String → String} {names : List String}
    (hmake : ∀ a ∈ names, ∀ b ∈ names, make a = make b ↔ a = b ∨ differInCase a b = true)
    (h : names.Nodup) :
    (names.map make).Nodup ↔ names.Pairwise fun a b => differInCase a b = false := by
  rw [List.Nodup, List.pairwise_map]
  have hboth : names.Pairwise (fun a b => make a ≠ make b) ↔
      names.Pairwise (fun a b => a ≠ b ∧ differInCase a b = false) := by
    apply List.Pairwise.iff_of_mem
    intro a b ha hb
    rw [ne_eq, hmake a ha b hb, not_or, Bool.not_eq_true]
  rw [hboth, List.pairwise_and_iff]
  exact and_iff_right h

/-! ### Names in components are words -/

namespace ComponentOf

def ownNames (c : ComponentDecl) : List String :=
  c.props.map Entry.name ++ c.stateNames ++ c.methods.map FunctionOf.name

end ComponentOf

/-! ### Components of a program and of its script -/

def Stmt.component? : Stmt → Option ComponentDecl
  | .component c => some c
  | _ => none

def Script.Item.component? : Item → Option Component
  | .component c => some c
  | .statement _ => none

def Script.Component.stylesName? (c : Component) : Option String := c.styles.map Styles.name

def Script.Module.components (m : Module) : List Component := m.items.filterMap Item.component?

def Script.Module.styleNames (m : Module) : List String :=
  m.components.filterMap Component.stylesName?

namespace Stmt

theorem allComponents_eq_nil {body : List Stmt} (h : ∀ s ∈ body, s.components = []) :
    allComponents body = [] := by
  induction body with
  | nil => rw [allComponents]
  | cons s body ih =>
    obtain ⟨hs, hbody⟩ := List.forall_mem_cons.1 h
    rw [allComponents, hs, ih hbody, List.append_nil]

theorem methodComponents_eq_nil {fs : List FunctionDecl}
    (h : ∀ f ∈ fs, ∀ s ∈ f.body, s.components = []) :
    methodComponents fs = [] := by
  induction fs with
  | nil => rw [methodComponents]
  | cons f fs ih =>
    obtain ⟨hf, hfs⟩ := List.forall_mem_cons.1 h
    rw [methodComponents, functionComponents, allComponents_eq_nil hf, ih hfs, List.append_nil]

theorem elsifComponents_eq_nil {es : List Elsif} (h : ∀ e ∈ es, ∀ s ∈ e.body, s.components = []) :
    elsifComponents es = [] := by
  induction es with
  | nil => rw [elsifComponents]
  | cons e es ih =>
    obtain ⟨he, hes⟩ := List.forall_mem_cons.1 h
    rw [elsifComponents, allComponents_eq_nil he, ih hes, List.append_nil]

theorem Code.components_eq_nil {s : Stmt} (h : s.Code) : s.components = [] := by
  induction h with
  | function _ ih => rw [components, functionComponents, allComponents_eq_nil ih]
  | classDecl _ ih => rw [components, methodComponents_eq_nil ih]
  | branch _ _ _ ihb ihe iho =>
    rw [components, allComponents_eq_nil ihb, elsifComponents_eq_nil ihe, allComponents_eq_nil iho]
    rfl
  | _ => rw [components]

theorem allComponents_eq_filterMap {body : List Stmt} (h : ∀ s ∈ body, s.TopLevel) :
    allComponents body = body.filterMap component? := by
  induction body with
  | nil => rw [allComponents, List.filterMap_nil]
  | cons s body ih =>
    obtain ⟨hs, hbody⟩ := List.forall_mem_cons.1 h
    rw [allComponents, ih hbody]
    cases hs with
    | component _ =>
      rw [components]
      rfl
    | code hcode =>
      rw [hcode.components_eq_nil]
      cases hcode <;> rfl

theorem lowerFunction_name {scope : Script.Scope} {f : FunctionDecl} {m : Script.Method}
    (h : lowerFunction scope f = .ok m) : m.name = f.name := by
  obtain ⟨name, params, type, body, span⟩ := f
  rw [lowerFunction] at h
  split at h
  · cases h
  · cases h
    rfl

end Stmt

theorem Program.lowerItems_components {body : List Stmt} {styledCount before : Nat}
    {scope : Script.Scope} {items : List Script.Item}
    (h : lowerItems styledCount scope before body = .ok items) :
    List.Forall₂ (fun c component => ∃ before, c.lower styledCount before = .ok component)
      (body.filterMap Stmt.component?) (items.filterMap Script.Item.component?) := by
  induction body generalizing scope before items with
  | nil =>
    cases h
    exact .nil
  | cons s body ih =>
    cases lowerItems_cons h with
    | inl hcomponent =>
      obtain ⟨c, component, rest, rfl, hc, hrest, rfl⟩ := hcomponent
      exact .cons ⟨before, hc⟩ (ih hrest)
    | inr hstatement =>
      obtain ⟨t, after, rest, hne, _, hrest, rfl⟩ := hstatement
      have hs : Stmt.component? s = none := by
        cases s with
        | component c => exact absurd rfl (hne c)
        | _ => rfl
      rw [List.filterMap_cons_none hs, List.filterMap_cons_none rfl]
      exact ih hrest

theorem Program.lower_components {p : Program} (htop : ∀ s ∈ p.body, s.TopLevel) :
    ∃ m, p.lower = .ok m ∧
      List.Forall₂ (fun c component => ∃ before, c.lower p.styledCount before = .ok component)
        p.components m.components := by
  obtain ⟨items, hitems⟩ := lowerItems_eq_ok htop p.styledCount .empty 0
  refine ⟨⟨p.imported, items⟩, by rw [lower, hitems], ?_⟩
  rw [components, Stmt.allComponents_eq_filterMap htop]
  exact lowerItems_components hitems

theorem Program.component_mem_body {p : Program} (htop : ∀ s ∈ p.body, s.TopLevel)
    {c : ComponentDecl} (hc : c ∈ p.components) : .component c ∈ p.body := by
  rw [components, Stmt.allComponents_eq_filterMap htop, List.mem_filterMap] at hc
  obtain ⟨s, hs, hsc⟩ := hc
  cases s with
  | component c' =>
    cases hsc
    exact hs
  | _ => cases hsc

namespace ComponentOf

variable {c : ComponentDecl} {component : Script.Component} {styledCount before : Nat}

theorem methods_lowered (h : c.lower styledCount before = .ok component) :
    List.Forall₂ (fun f m => Stmt.lowerFunction c.scope f = .ok m) c.methods component.methods := by
  have hmethods := methods_of_lower h
  rw [← List.forall₂_eq_eq_eq, List.forall₂_map_left_iff, List.forall₂_map_right_iff] at hmethods
  exact hmethods

theorem methods_names (h : c.lower styledCount before = .ok component) :
    component.methods.map Script.MethodOf.name = c.methods.map FunctionOf.name := by
  rw [← List.forall₂_eq_eq_eq, List.forall₂_map_left_iff, List.forall₂_map_right_iff]
  exact (methods_lowered h).flip.imp fun m f hm => Stmt.lowerFunction_name hm

theorem boundNames_perm (h : c.lower styledCount before = .ok component) :
    component.boundNames.Perm (c.ownNames ++ c.stateNames.map Script.setterName) := by
  have hmethods := methods_names h
  have hcells :
      ((c.state.map (lowerCell c.scope)).flatMap fun cell => [cell.name, cell.setter]).Perm
      (c.stateNames ++ c.stateNames.map Script.setterName) := by
    have hpairs := List.map_append_flatMap_perm c.state Entry.name fun e =>
      [Script.setterName e.name]
    rw [← List.map_eq_flatMap] at hpairs
    rw [List.flatMap_map, stateNames, List.map_map]
    exact hpairs.symm
  have hprops : (c.props.map fun e => (e.name, e.value.map (Expr.emit c.scope))).map Prod.fst =
      c.props.map Entry.name := by
    rw [List.map_map]
    rfl
  have hswap := @List.perm_append_comm _ (c.stateNames.map Script.setterName)
    (c.methods.map FunctionOf.name)
  rw [eq_of_lower h]
  simp only [Script.Component.boundNames, hprops, hmethods, ownNames, List.append_assoc]
  refine .append_left _ ((hcells.append_right _).trans ?_)
  rw [List.append_assoc]
  exact .append_left _ hswap

theorem lower_name (h : c.lower styledCount before = .ok component) : component.name = c.name := by
  rw [eq_of_lower h]

theorem stylesName?_eq (h : c.lower styledCount before = .ok component) :
    component.stylesName? = c.style.map fun _ => Script.stylesName styledCount c.name := by
  rw [eq_of_lower h, Script.Component.stylesName?, Option.map_map]
  rfl

/-- No setter is needed twice, and none has the name of a member. -/
structure SettersApart (c : ComponentDecl) : Prop where
  state : c.stateNames.Pairwise fun a b => differInCase a b = false
  members : ∀ name ∈ c.stateNames, Script.setterName name ∉ c.ownNames

theorem boundNames_nodup_iff (h : c.lower styledCount before = .ok component) (hw : c.OnLines)
    (hown : c.ownNames.Nodup) : component.boundNames.Nodup ↔ c.SettersApart := by
  have hwords : ∀ name ∈ c.stateNames, isWord name = true := by
    intro name hname
    obtain ⟨entry, hentry, rfl⟩ := List.mem_map.1 hname
    exact (hw.state entry hentry).name
  have hstate : c.stateNames.Nodup := by
    rw [ownNames, List.nodup_append, List.nodup_append] at hown
    exact hown.1.2.1
  have hsetters : (c.stateNames.map Script.setterName).Nodup ↔
      c.stateNames.Pairwise fun a b => differInCase a b = false :=
    nodup_map_iff (fun a ha b hb => Script.setterName_eq_iff (hwords a ha) (hwords b hb)) hstate
  rw [(boundNames_perm h).nodup_iff, List.nodup_append, hsetters]
  constructor
  · rintro ⟨_, hpairs, hmembers⟩
    refine ⟨hpairs, fun name hname hmem => ?_⟩
    exact hmembers _ hmem _ (List.mem_map_of_mem hname) rfl
  · rintro ⟨hpairs, hmembers⟩
    refine ⟨hown, hpairs, fun a ha b hb heq => ?_⟩
    obtain ⟨name, hname, rfl⟩ := List.mem_map.1 hb
    exact hmembers name hname (heq ▸ ha)

end ComponentOf

/-! ### All names of a script -/

def Program.styled (p : Program) : List ComponentDecl := p.components.filter fun c => c.style.isSome

theorem styleNames_eq {styledCount : Nat} {cs : List ComponentDecl}
    {components : List Script.Component}
    (h : List.Forall₂ (fun c component => ∃ before, c.lower styledCount before = .ok component)
      cs components) : components.filterMap Script.Component.stylesName? =
        ((cs.filter fun c => c.style.isSome).map ComponentOf.name).map
          (Script.stylesName styledCount) := by
  induction h with
  | nil => rfl
  | @cons c component cs components hc _ ih =>
    obtain ⟨before, hc⟩ := hc
    have hname := ComponentOf.stylesName?_eq hc
    cases hstyle : c.style with
    | none =>
      rw [hstyle] at hname
      rw [List.filterMap_cons_none hname, List.filter_cons_of_neg (by simp [hstyle]), ih]
    | some block =>
      rw [hstyle] at hname
      rw [List.filterMap_cons_some hname, List.filter_cons_of_pos (by simp [hstyle]), ih]
      rfl

theorem stylesNames_nodup_iff {names : List String} (hw : ∀ name ∈ names, isWord name = true)
    (h : names.Nodup) : (names.map (Script.stylesName names.length)).Nodup ↔
      names.Pairwise fun a b => differInCase a b = false := by
  by_cases hcount : 1 < names.length
  · have hmake : Script.stylesName names.length = fun name => Text.lowerFirst name ++ "Styles" := by
      funext name
      rw [Script.stylesName, if_pos hcount]
    rw [hmake]
    exact nodup_map_iff (fun a ha b hb => lowerFirst_append_eq_iff (hw a ha) (hw b hb) "Styles") h
  · cases names with
    | nil => simp
    | cons name names =>
      cases names with
      | nil => simp
      | cons other names => exact absurd (by simp) hcount

/-- In the script of an accepted program whose names are distinct, a component binds a name twice
exactly if two of its state entries differ in the case of their first letters only or a member has
the name of a setter. Two style constants have the same name exactly if their components differ in
the case of the first letter only. -/
theorem names_distinct_iff {source : String} {code : List Char} {p : Program}
    (hp : check source code = .ok p) (hcomponents : (p.components.map ComponentOf.name).Nodup)
    (hown : ∀ c ∈ p.components, c.ownNames.Nodup) : ∃ m, p.lower = .ok m ∧
      List.Forall₂ (fun c component => component.name = c.name ∧
        (component.boundNames.Nodup ↔ c.SettersApart)) p.components m.components ∧
      (m.styleNames.Nodup ↔
        (p.styled.map ComponentOf.name).Pairwise fun a b => differInCase a b = false) := by
  have htop := check_topLevel hp
  obtain ⟨m, hm, hlower⟩ := Program.lower_components htop
  have hwords : ∀ c ∈ p.components, c.OnLines := by
    intro c hc
    rcases check_onLines hp _ (Program.component_mem_body htop hc) with h | ⟨c', heq, h⟩
    · cases h
    · cases heq
      exact h
  refine ⟨m, hm, ?_, ?_⟩
  · have hboth :=
      (List.forall₂_and_left _ _).2 ⟨fun c hc => And.intro (hwords c hc) (hown c hc), hlower⟩
    refine hboth.imp fun c component hc => ?_
    obtain ⟨⟨hw, hnodup⟩, before, hc⟩ := hc
    exact ⟨ComponentOf.lower_name hc, ComponentOf.boundNames_nodup_iff hc hw hnodup⟩
  · have hcount : p.styledCount = (p.styled.map ComponentOf.name).length := by
      rw [List.length_map, Program.styled, Program.styledCount_eq, List.countP_eq_length_filter]
    rw [Script.Module.styleNames, styleNames_eq hlower, hcount]
    apply stylesNames_nodup_iff
    · intro name hname
      obtain ⟨c, hc, rfl⟩ := List.mem_map.1 hname
      exact (hwords c (List.mem_of_mem_filter hc)).name
    · exact hcomponents.sublist (List.filter_sublist.map _)

/-- Two components with styles and state whose names are all distinct, also those that are made
up. -/
def twoCardsSource : List Char :=
  ("component Card\n  state\n    count : number = 0\n    total : number = 0\n  end\n" ++
    "  def bump(k)\n    @count = k\n  end\n  style\n  end\nend\n" ++
    "component Panel\n  style\n  end\nend\n").toList

def Program.namesAreDistinct (p : Program) : Bool :=
  decide ((p.components.map ComponentOf.name).Nodup ∧ ∀ c ∈ p.components, c.ownNames.Nodup)

theorem names_distinct_iff_twoCards : ∃ p m, check "m" twoCardsSource = .ok p ∧
    (p.components.map ComponentOf.name).Nodup ∧ (∀ c ∈ p.components, c.ownNames.Nodup) ∧
    p.lower = .ok m ∧ List.Forall₂ (fun c component => component.name = c.name ∧
      (component.boundNames.Nodup ↔ c.SettersApart)) p.components m.components ∧
    m.styleNames.Nodup := by
  obtain ⟨p, hp, htest⟩ : ∃ p, check "m" twoCardsSource = .ok p ∧
      (p.namesAreDistinct && decide
      ((p.styled.map ComponentOf.name).Pairwise fun a b => differInCase a b = false)) = true :=
    exists_check_ok (by decide +kernel)
  rw [Bool.and_eq_true, Program.namesAreDistinct, decide_eq_true_eq, decide_eq_true_eq] at htest
  obtain ⟨⟨hcomponents, hown⟩, hstyled⟩ := htest
  obtain ⟨m, hm, hbound, hstyles⟩ := names_distinct_iff hp hcomponents hown
  exact ⟨p, m, hp, hcomponents, hown, hm, hbound, hstyles.2 hstyled⟩

/-- A method with the name of a setter, and two components that differ in the case of the first
letter only. -/
def clashingSource : List Char :=
  ("component Card\n  state\n    count : number = 0\n  end\n" ++
    "  def setCount(k)\n    @count = k\n  end\n  style\n  end\nend\n" ++
    "component card\n  style\n  end\nend\n").toList

/-- Distinct names do not keep the names of a script distinct. -/
theorem names_clash : ∃ p m, check "m" clashingSource = .ok p ∧
    (p.components.map ComponentOf.name).Nodup ∧ (∀ c ∈ p.components, c.ownNames.Nodup) ∧
    p.lower = .ok m ∧ (∃ c ∈ m.components, ¬ c.boundNames.Nodup) ∧ ¬ m.styleNames.Nodup := by
  obtain ⟨p, hp, htest⟩ : ∃ p, check "m" clashingSource = .ok p ∧ (p.namesAreDistinct &&
      p.lower.toOption.any fun m =>
        decide ((∃ c ∈ m.components, ¬ c.boundNames.Nodup) ∧ ¬ m.styleNames.Nodup)) = true :=
    exists_check_ok (by decide +kernel)
  rw [Bool.and_eq_true, Program.namesAreDistinct, decide_eq_true_eq] at htest
  obtain ⟨⟨hcomponents, hown⟩, hlower⟩ := htest
  obtain ⟨m, hm, htest⟩ := exists_ok_of_any hlower
  exact ⟨p, m, hp, hcomponents, hown, hm, of_decide_eq_true htest⟩

end LayoutScript

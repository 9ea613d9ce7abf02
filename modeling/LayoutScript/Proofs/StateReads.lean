import LayoutScript.Proofs.VariableBindings

/-! What the state of a component is called in its methods. Instance variables have names of their
own in a source, but in a script they share one space with parameters, variables and functions. A
state entry that a method reads is the cell of the component exactly if nothing nearer, and nothing
else in the component, has its name. -/
namespace LayoutScript

open LayoutScript.Script (Scope Statement Method)

/-! ### Names and what binds them -/

namespace Script

inductive Binder where
  | letLine
  | param
  | functionLine
  | classLine
  | prop
  | cell
  | setter
  | method
  deriving DecidableEq, Repr

/-- The names that a block or a component binds. They hold everywhere in it, also before the line
that binds them. -/
abbrev Frame := List (String × Binder)

def Piece.binders : Piece → Frame
  | .header name => [(name, .functionLine)]
  | .params names => names.map (·, .param)
  | .classLine name => [(name, .classLine)]
  | .line t => t.lets.map (·, .letLine)
  | .condition _ => []

def blockFrame (ts : List (Site Piece)) (b : Address) : Frame :=
  (ts.filter fun t => t.block == b).flatMap fun t => t.piece.binders

/-- The frames around a line of the block `b`, the nearest first. -/
def framesAt (ts : List (Site Piece)) : Address → List Frame
  | [] => [blockFrame ts []]
  | step :: b => blockFrame ts (step :: b) :: framesAt ts b

def Component.frame (c : Component) : Frame :=
  c.props.map (fun entry => (entry.1, .prop)) ++
    c.cells.flatMap (fun cell => [(cell.name, .cell), (cell.setter, .setter)]) ++
    c.methods.map fun m => (m.name, .method)

def Frame.bindersOf (frame : Frame) (name : String) : List Binder :=
  (frame.filter fun entry => entry.1 == name).map Prod.snd

/-- What binds a name in the nearest frame that has it. A name that is bound twice there stands for
nothing. -/
def resolve (name : String) : List Frame → List Binder
  | [] => []
  | frame :: frames =>
    if frame.bindersOf name = [] then resolve name frames else frame.bindersOf name

theorem mem_framesAt {ts : List (Site Piece)} {b : Address} {entry : String × Binder} :
    (∃ frame ∈ framesAt ts b, entry ∈ frame) ↔
    ∃ t ∈ ts, t.block <:+ b ∧ entry ∈ t.piece.binders := by
  have hblock : ∀ b : Address, entry ∈ blockFrame ts b ↔
      ∃ t ∈ ts, t.block = b ∧ entry ∈ t.piece.binders := by
    intro b
    rw [blockFrame, List.mem_flatMap]
    simp only [List.mem_filter, beq_iff_eq, and_assoc]
  induction b with
  | nil => simp [framesAt, hblock, List.suffix_nil]
  | cons step b ih =>
    simp only [framesAt, List.mem_cons, or_and_right, exists_or, exists_eq_left, ih, hblock,
      List.suffix_cons_iff, and_or_left]

@[simp] theorem mem_bindersOf {frame : Frame} {name : String} {binder : Binder} :
    binder ∈ Frame.bindersOf frame name ↔ (name, binder) ∈ frame := by
  simp [Frame.bindersOf]

/-- A name stands for a cell exactly if no frame before that of the component has it, and the
component binds it once, as a cell. -/
theorem resolve_eq_cell_iff {name : String} {frames : List Frame} {last : Frame}
    (h : ∀ frame ∈ frames, (name, .cell) ∉ frame) :
    resolve name (frames ++ [last]) = [.cell] ↔
      (∀ frame ∈ frames, ∀ binder, (name, binder) ∉ frame) ∧ last.bindersOf name = [.cell] := by
  induction frames with
  | nil =>
    rw [List.nil_append, resolve, resolve]
    cases hb : last.bindersOf name with
    | nil => simp
    | cons binder binders => simp
  | cons frame frames ih =>
    obtain ⟨hframe, hframes⟩ := List.forall_mem_cons.1 h
    rw [List.cons_append, resolve, List.forall_mem_cons, and_assoc]
    cases hb : frame.bindersOf name with
    | nil =>
      have hnone : ∀ binder, (name, binder) ∉ frame := by
        intro binder hmem
        rw [← mem_bindersOf, hb] at hmem
        cases hmem
      rw [if_pos rfl, ih hframes]
      exact (and_iff_right hnone).symm
    | cons binder binders =>
      rw [if_neg (by simp)]
      constructor
      · intro heq
        rw [heq] at hb
        exact absurd (mem_bindersOf.1 (hb ▸ List.mem_cons_self)) hframe
      · rintro ⟨hnone, _⟩
        exact absurd (mem_bindersOf.1 (hb ▸ List.mem_cons_self)) (hnone binder)

end Script

theorem Script.Piece.exists_binder_of_declares {t : Script.Piece} {name : String}
    (h : name ∈ t.declares) : ∃ binder, (name, binder) ∈ t.binders := by
  cases t with
  | params names => exact ⟨.param, List.mem_map_of_mem h⟩
  | line t => exact ⟨.letLine, List.mem_map_of_mem h⟩
  | header | classLine | condition => cases h

/-! ### Reads of instance variables -/

namespace Script.Template

/-- The names after sigils. The first `covered` characters belong to a name that has been read. -/
def sigilsFrom : Nat → List Char → List String
  | _, [] => []
  | covered + 1, _ :: cs => sigilsFrom covered cs
  | 0, c :: cs =>
    if c = '@' ∧ leadingName cs ≠ [] then
      String.ofList (leadingName cs) :: sigilsFrom (leadingName cs).length cs
    else sigilsFrom 0 cs

def Part.sigils : Part → List String
  | .text _ => []
  | .slot cs => sigilsFrom 0 cs

end Script.Template

/-- The instance variables that an expression reads or calls itself, the expressions inside it
aside. -/
def Expr.sigils : Expr → List String
  | .instanceVar name _ | .instanceVarAccess name _ _ | .instanceMethodCall name _ _ => [name]
  | .template raw _ => (Script.Template.parts raw.toList).flatMap Script.Template.Part.sigils
  | .interpolation raw _ => Script.Template.sigilsFrom 0 raw.toList
  | .string .. | .number .. | .boolean .. | .null _ | .identifier .. | .propertyAccess ..
  | .construct .. | .call .. | .methodCall .. | .binary .. => []

namespace Piece

def sigils (s : Piece) : List String := s.expressions.flatMap Expr.sigils

/-- The names that a line gives to something: variables, parameters, a function or a class. -/
def introduces : Piece → List String
  | .header name | .classLine name => [name]
  | .params names => names
  | .line s => s.assigned
  | .condition _ => []

variable {s : Piece} {scope : Scope} {t : Script.Piece} {name : String}

theorem introduces_of_mem_binders (h : s.lower scope = .ok t) {binder : Script.Binder}
    (hmem : (name, binder) ∈ t.binders) : name ∈ s.introduces := by
  cases s with
  | line s =>
    obtain ⟨t, after, ht, rfl⟩ := lower_line h
    rw [Script.Piece.binders, List.mem_map] at hmem
    obtain ⟨other, hother, heq⟩ := hmem
    cases heq
    exact ((Stmt.mem_lets ht).1 hother).1
  | header | classLine =>
    cases h
    cases List.mem_singleton.1 hmem
    exact List.mem_singleton_self name
  | params names =>
    cases h
    obtain ⟨other, hother, heq⟩ := List.mem_map.1 hmem
    cases heq
    exact hother
  | condition =>
    cases h
    cases hmem

theorem exists_binder_of_introduces (h : s.lower scope = .ok t) (hname : name ∈ s.introduces)
    (hscope : name ∉ scope.declared) : ∃ binder, (name, binder) ∈ t.binders := by
  cases s with
  | line s =>
    obtain ⟨t, after, ht, rfl⟩ := lower_line h
    exact ⟨.letLine, List.mem_map_of_mem ((Stmt.mem_lets ht).2 ⟨hname, hscope⟩)⟩
  | header | classLine | params =>
    cases h
    simpa [Script.Piece.binders, introduces] using hname
  | condition =>
    cases h
    cases hname

end Piece

namespace EmitsLines

variable {outer : Scope} {ss : List (Site Piece)} {ts : List (Site Script.Piece)} {name : String}
  {b : Address}

theorem exists_source (h : EmitsLines outer [] ss ts) {t : Site Script.Piece} (ht : t ∈ ts) :
    ∃ s, (s, t) ∈ ss.zip ts := by
  rw [← List.map_snd_zip (Nat.le_of_eq h.length_eq)] at ht
  obtain ⟨⟨s, _⟩, hmem, rfl⟩ := List.mem_map.1 ht
  exact ⟨s, hmem⟩

theorem exists_line (h : EmitsLines outer [] ss ts) {s : Site Piece} (hs : s ∈ ss) :
    ∃ t, (s, t) ∈ ss.zip ts := by
  rw [← List.map_fst_zip (Nat.le_of_eq h.length_eq.symm)] at hs
  obtain ⟨⟨_, t⟩, hmem, rfl⟩ := List.mem_map.1 hs
  exact ⟨t, hmem⟩

/-- The lines around a line of a script bind a name exactly if those of the source introduce it,
given that it is not known outside. -/
theorem exists_binder_iff (h : EmitsLines outer [] ss ts) (hname : name ∉ outer.declared) :
    (∃ t ∈ ts, t.block <:+ b ∧ ∃ binder, (name, binder) ∈ t.piece.binders) ↔
      ∃ s ∈ ss, s.block <:+ b ∧ name ∈ s.piece.introduces := by
  constructor
  · rintro ⟨t, ht, hsuffix, binder, hmem⟩
    obtain ⟨s, hs⟩ := h.exists_source ht
    obtain ⟨before, later, heq⟩ := List.append_of_mem hs
    obtain ⟨_, hblock, hlower⟩ := h.split heq
    exact ⟨s, (List.of_mem_zip hs).1, hblock ▸ hsuffix, Piece.introduces_of_mem_binders hlower hmem⟩
  · rintro ⟨s, hs, hsuffix, hmem⟩
    obtain ⟨t, ht⟩ := h.exists_line hs
    obtain ⟨before, later, heq⟩ := List.append_of_mem ht
    obtain ⟨_, hblock, hlower⟩ := h.split heq
    by_cases hknown : name ∈ (outer.seenAt ([] ++ before.map Prod.snd) s.block).declared
    · -- An earlier line of a block around `s` has declared the name.
      rcases Script.Scope.mem_seenAt.1 hknown with hknown | ⟨e, he, hesuffix, hdeclares⟩
      · exact absurd hknown hname
      · obtain ⟨l, hl, rfl⟩ := List.mem_map.1 he
        have hmem : l ∈ ss.zip ts := heq ▸ List.mem_append_left _ hl
        exact ⟨l.2, (List.of_mem_zip hmem).2, hesuffix.trans hsuffix,
          Script.Piece.exists_binder_of_declares hdeclares⟩
    · exact ⟨t, (List.of_mem_zip ht).2, hblock ▸ hsuffix,
        Piece.exists_binder_of_introduces hlower hmem hknown⟩

end EmitsLines

/-! ### The names of a component -/

namespace ComponentOf

variable {c : ComponentDecl} {component : Script.Component} {styledCount before : Nat}
  {name : String}

def scriptNames (c : ComponentDecl) : List String :=
  c.ownNames ++ c.stateNames.map Script.setterName

theorem frame_names (component : Script.Component) :
    component.frame.map Prod.fst = component.boundNames := by
  simp [Script.Component.frame, Script.Component.boundNames, List.map_flatMap, Function.comp_def]

theorem cells_of_lower (h : c.lower styledCount before = .ok component) :
    component.cells = c.state.map (lowerCell c.scope) := by
  rw [eq_of_lower h]

theorem cell_mem_frame (h : c.lower styledCount before = .ok component)
    (hname : name ∈ c.stateNames) :
    (name, .cell) ∈ component.frame := by
  obtain ⟨entry, hentry, rfl⟩ := List.mem_map.1 hname
  have hcell : lowerCell c.scope entry ∈ component.cells := by
    rw [cells_of_lower h]
    exact List.mem_map_of_mem hentry
  rw [Script.Component.frame, List.mem_append, List.mem_append]
  exact .inl (.inr (List.mem_flatMap.2 ⟨_, hcell, List.mem_cons_self⟩))

theorem bindersOf_frame_iff (h : c.lower styledCount before = .ok component)
    (hname : name ∈ c.stateNames) :
    component.frame.bindersOf name = [.cell] ↔ c.scriptNames.count name = 1 := by
  have hcount : (component.frame.bindersOf name).length = c.scriptNames.count name := by
    calc (component.frame.bindersOf name).length
        = (component.frame.map Prod.fst).count name := by
          rw [Script.Frame.bindersOf, List.length_map, List.count_eq_countP, List.countP_map,
            List.countP_eq_length_filter]
          rfl
      _ = component.boundNames.count name := by rw [frame_names]
      _ = c.scriptNames.count name := (boundNames_perm h).count_eq name
  have hcell : .cell ∈ component.frame.bindersOf name :=
    Script.mem_bindersOf.2 (cell_mem_frame h hname)
  rw [← hcount, List.length_eq_one_iff]
  constructor
  · exact fun heq => ⟨.cell, heq⟩
  · rintro ⟨binder, heq⟩
    rw [heq] at hcell ⊢
    rw [List.mem_singleton.1 hcell]

theorem not_mem_props (hname : name ∈ c.stateNames) (h : c.scriptNames.count name = 1) :
    name ∉ c.props.map Entry.name := by
  intro hprop
  have hstate := List.count_pos_iff.2 hname
  have hprops := List.count_pos_iff.2 hprop
  rw [scriptNames, ownNames, List.count_append, List.count_append, List.count_append] at h
  omega

end ComponentOf

/-- How a method of a component reads the state of the component. -/
structure ReadsState (c : ComponentDecl) (component : Script.Component) (f : FunctionDecl)
    (m : Method) : Prop where
  blocks : m.sites.map Site.block = f.sites.map Site.block
  bare : ∀ l ∈ f.sites.zip m.sites, ∃ scope : Scope, l.1.piece.lower scope = .ok l.2.piece ∧
    ∀ n ∈ l.1.piece.sigils, n ∈ c.stateNames → scope.instanceVar n = n ∧ scope.instanceMethod n = n
  /-- The name stands for the cell exactly if no line around the read introduces it, and the
  component binds it once. -/
  resolves : ∀ l ∈ f.sites.zip m.sites, ∀ n ∈ l.1.piece.sigils, n ∈ c.stateNames →
    (Script.resolve n (Script.framesAt m.sites l.2.block ++ [component.frame]) = [.cell] ↔
      (∀ s ∈ f.sites, s.block <:+ l.1.block → n ∉ s.piece.introduces) ∧ c.scriptNames.count n = 1)

theorem Script.Piece.cell_not_mem_binders (t : Script.Piece) (name : String) :
    (name, .cell) ∉ t.binders := by
  cases t <;> simp [binders]

namespace ComponentOf

variable {c : ComponentDecl} {component : Script.Component} {styledCount before : Nat}

theorem instanceVar_seenAt {n : String} (hn : n ∈ c.stateNames) (earlier : List (Site Script.Piece))
    (b : Address) : (c.scope.seenAt earlier b).instanceVar n = n ∧
      (c.scope.seenAt earlier b).instanceMethod n = n := by
  rw [Script.Scope.seenAt, scope, Script.Scope.declareAll_eq, Script.Scope.declareAll_eq]
  simp [Scope.instanceVar, Scope.instanceMethod, Scope.isState, hn]

theorem readsState (h : c.lower styledCount before = .ok component) {f : FunctionDecl} {m : Method}
    (hlines : EmitsLines c.scope [] f.sites m.sites) : ReadsState c component f m where
  blocks := hlines.blocks
  bare l hl := by
    obtain ⟨earlier, later, heq⟩ := List.append_of_mem hl
    obtain ⟨_, _, hlower⟩ := hlines.split heq
    exact ⟨_, hlower, fun n _ hn => instanceVar_seenAt hn _ _⟩
  resolves l hl n _ hn := by
    obtain ⟨earlier, later, heq⟩ := List.append_of_mem hl
    obtain ⟨_, hblock, _⟩ := hlines.split heq
    have hcells : ∀ frame ∈ Script.framesAt m.sites l.2.block, (n, .cell) ∉ frame := by
      intro frame hframe hmem
      obtain ⟨t, _, _, hbinder⟩ := Script.mem_framesAt.1 ⟨frame, hframe, hmem⟩
      exact t.piece.cell_not_mem_binders n hbinder
    rw [Script.resolve_eq_cell_iff hcells, bindersOf_frame_iff h hn]
    apply and_congr_left
    intro hcount
    have hknown : n ∉ c.scope.declared := by
      rw [mem_scope_declared]
      exact not_mem_props hn hcount
    have hbinders := hlines.exists_binder_iff (b := l.1.block) hknown
    rw [hblock]
    constructor
    · intro hnone s hs hsuffix hmem
      obtain ⟨t, ht, htsuffix, binder, hbinder⟩ := hbinders.2 ⟨s, hs, hsuffix, hmem⟩
      obtain ⟨frame, hframe, hentry⟩ := Script.mem_framesAt.2 ⟨t, ht, htsuffix, hbinder⟩
      exact hnone frame hframe binder hentry
    · intro hnone frame hframe binder hentry
      obtain ⟨t, ht, htsuffix, hbinder⟩ := Script.mem_framesAt.1 ⟨frame, hframe, hentry⟩
      obtain ⟨s, hs, hsuffix, hmem⟩ := hbinders.1 ⟨t, ht, htsuffix, binder, hbinder⟩
      exact hnone s hs hsuffix hmem

theorem methods_readState (hc : ∀ f ∈ c.methods, ∀ s ∈ f.body, s.Code)
    (h : c.lower styledCount before = .ok component) :
    List.Forall₂ (ReadsState c component) c.methods component.methods := by
  have hmethods := (List.forall₂_and_left _ _).2 ⟨hc, methods_lowered h⟩
  refine hmethods.imp fun f m hm => readsState h ?_
  obtain ⟨hparams, hlower⟩ := Stmt.lowerFunction_body hm.2
  exact Stmt.lowerAll_sites hm.1 hlower hparams

end ComponentOf

/-- In every method of an accepted component, the name that is written for a read of a state entry
stands for the cell of that entry exactly if no parameter, variable, function or class around the
read has the name, and no other member or setter of the component has it. -/
theorem state_read_resolves_iff {source : String} {code : List Char} {p : Program}
    (hp : check source code = .ok p) : ∃ m, p.lower = .ok m ∧
      List.Forall₂
        (fun c component => List.Forall₂ (ReadsState c component) c.methods component.methods)
        p.components m.components := by
  have htop := check_topLevel hp
  obtain ⟨m, hm, hlower⟩ := Program.lower_components htop
  have hcode : ∀ c ∈ p.components, ∀ f ∈ c.methods, ∀ s ∈ f.body, s.Code := by
    intro c hc
    cases htop _ (Program.component_mem_body htop hc) with
    | component hcode => exact hcode
    | code h => cases h
  have hboth := (List.forall₂_and_left _ _).2 ⟨hcode, hlower⟩
  refine ⟨m, hm, hboth.imp fun c component hc => ?_⟩
  obtain ⟨hcode, before, hc⟩ := hc
  exact ComponentOf.methods_readState hcode hc

def Program.anyMethod (p : Program)
    (test : ComponentDecl → Script.Component → FunctionDecl → Method → Bool) : Bool :=
  p.lower.toOption.any fun m => (p.components.zip m.components).any fun c =>
    (c.1.methods.zip c.2.methods).any fun f => test c.1 c.2 f.1 f.2

theorem Program.exists_of_anyMethod {p : Program}
    {test : ComponentDecl → Script.Component → FunctionDecl → Method → Bool}
    (h : p.anyMethod test = true) : ∃ m c component f method, p.lower = .ok m ∧
      (c, component) ∈ p.components.zip m.components ∧
      (f, method) ∈ c.methods.zip component.methods ∧ test c component f method = true := by
  obtain ⟨m, hm, h⟩ := exists_ok_of_any h
  obtain ⟨⟨c, component⟩, hc, h⟩ := List.any_eq_true.1 h
  obtain ⟨⟨f, method⟩, hf, htest⟩ := List.any_eq_true.1 h
  exact ⟨m, c, component, f, method, hm, hc, hf, htest⟩

def counterSource : List Char :=
  ("component Box\n  state\n    n : number = 0\n  end\n  def show(k)\n    if k\n" ++
    "      t = @n + k\n    end\n    print \"#\x7b @n \x7d\"\n  end\nend\n").toList

theorem state_read_resolves_counter : ∃ p m c component f method, check "m" counterSource = .ok p ∧
    p.lower = .ok m ∧ (c, component) ∈ p.components.zip m.components ∧
    (f, method) ∈ c.methods.zip component.methods ∧ "n" ∈ c.stateNames ∧
    ((f.sites.zip method.sites).filter fun l => l.1.piece.sigils.contains "n").length = 2 ∧
    ∀ l ∈ f.sites.zip method.sites, "n" ∈ l.1.piece.sigils →
      Script.resolve "n" (Script.framesAt method.sites l.2.block ++ [component.frame]) =
        [.cell] := by
  obtain ⟨p, hp, htest⟩ : ∃ p, check "m" counterSource = .ok p ∧ (p.anyMethod fun c _ f method =>
      decide ("n" ∈ c.stateNames ∧
        ((f.sites.zip method.sites).filter fun l => l.1.piece.sigils.contains "n").length = 2 ∧
        (∀ s ∈ f.sites, "n" ∉ s.piece.introduces) ∧ c.scriptNames.count "n" = 1)) = true :=
    exists_check_ok (by decide +kernel)
  obtain ⟨m, c, component, f, method, hm, hc, hf, htest⟩ := Program.exists_of_anyMethod htest
  obtain ⟨hn, hreads, hnone, hcount⟩ := of_decide_eq_true htest
  obtain ⟨m', hm', hall⟩ := state_read_resolves_iff hp
  obtain rfl : m = m' := Except.ok.inj (hm.symm.trans hm')
  have hmethods := (List.forall₂_iff_zip.1 hall).2 hc
  have hstate : ReadsState c component f method := (List.forall₂_iff_zip.1 hmethods).2 hf
  refine ⟨p, m, c, component, f, method, hp, hm, hc, hf, hn, hreads, fun l hl hsigil => ?_⟩
  exact (hstate.resolves l hl "n" hsigil hn).2 ⟨fun s hs _ => hnone s hs, hcount⟩

/-- A method whose parameter has the name of a state entry that it reads. -/
def capturingSource : List Char :=
  ("component Box\n  state\n    n : number = 0\n  end\n  def show(n)\n    print @n\n" ++
    "  end\nend\n").toList

/-- A read of a state entry may be written with the name of a parameter. -/
theorem state_read_captured : ∃ p m c component f method, check "m" capturingSource = .ok p ∧
    p.lower = .ok m ∧ (c, component) ∈ p.components.zip m.components ∧
    (f, method) ∈ c.methods.zip component.methods ∧
    ∃ l ∈ f.sites.zip method.sites, "n" ∈ l.1.piece.sigils ∧ "n" ∈ c.stateNames ∧
      Script.resolve "n" (Script.framesAt method.sites l.2.block ++ [component.frame]) =
        [.param] := by
  obtain ⟨p, hp, htest⟩ : ∃ p, check "m" capturingSource = .ok p ∧
      (p.anyMethod fun c component f method => decide (∃ l ∈ f.sites.zip method.sites,
        "n" ∈ l.1.piece.sigils ∧ "n" ∈ c.stateNames ∧ Script.resolve "n"
          (Script.framesAt method.sites l.2.block ++ [component.frame]) = [.param])) = true :=
    exists_check_ok (by decide +kernel)
  obtain ⟨m, c, component, f, method, hm, hc, hf, htest⟩ := Program.exists_of_anyMethod htest
  exact ⟨p, m, c, component, f, method, hp, hm, hc, hf, of_decide_eq_true htest⟩

end LayoutScript

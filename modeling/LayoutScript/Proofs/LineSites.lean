import LayoutScript.Proofs.BlockScoping

/-! Statements line by line. A tree of statements is laid out as the list of its lines in the order
of the text, each with the block that it stands in. Lowering a tree lowers its lines one by one:
each in a scope with the variables that the lines before it declare in the blocks around it. -/
namespace LayoutScript

open LayoutScript.Script (Scope Statement Method)

/-! ### Lines and their blocks -/

/-- How to get from a block into one inside it, through the statement at a position. -/
inductive Step where
  | arm (position index : Nat)
  | otherwise (position : Nat)
  | function (position : Nat)
  deriving DecidableEq, Repr

namespace Step

def position : Step → Nat
  | .arm position _ | .otherwise position | .function position => position

def isFunction : Step → Bool
  | .function _ => true
  | .arm .. | .otherwise _ => false

end Step

/-- A block, by the steps that lead to it from the outermost one. The last step comes first, so a
block is inside those whose addresses are suffixes of its own. -/
abbrev Address := List Step

/-- Something on a line, and the block that it belongs to. -/
structure Site (κ : Type) where
  block : Address
  piece : κ

/-- What stands on a line of a source. The parameters of a function belong to its body. -/
inductive Piece where
  | header (name : String)
  | params (names : List String)
  | classLine (name : String)
  | condition (e : Expr)
  | line (s : Stmt)

inductive Script.Piece where
  | header (name : String)
  | params (names : List String)
  | classLine (name : String)
  | condition (text : String)
  | line (t : Statement)

def Script.Piece.declares : Piece → List String
  | .params names => names
  | .line t => t.lets
  | .header _ | .classLine _ | .condition _ => []

namespace Stmt

def isLine : Stmt → Bool
  | .function _ | .classDecl _ | .component _ | .branch .. => false
  | .assign .. | .assignProperty .. | .assignInstanceVar .. | .print .. | .give .. | .expr _ => true

def assigned : Stmt → List String
  | .assign name _ _ => [name]
  | _ => []

mutual

/-- The lines of the statement at position `i` of the block `b`. Classes have scopes of their own,
so what is in them is left out. -/
def sites (b : Address) (i : Nat) : Stmt → List (Site Piece)
  | .function ⟨name, params, _, body, _⟩ =>
    ⟨b, .header name⟩ :: ⟨.function i :: b, .params (Param.names params)⟩ ::
      allSites (.function i :: b) 0 body
  | .classDecl ⟨name, _, _, _⟩ => [⟨b, .classLine name⟩]
  | .branch condition body elsifs otherwise hasElse _ =>
    ⟨b, .condition condition⟩ :: allSites (.arm i 0 :: b) 0 body ++ elsifSites b i 1 elsifs ++
      (if hasElse then allSites (.otherwise i :: b) 0 otherwise else [])
  | s => [⟨b, .line s⟩]

def elsifSites (b : Address) (i k : Nat) : List (ElsifOf Stmt) → List (Site Piece)
  | [] => []
  | ⟨condition, body⟩ :: es =>
    ⟨b, .condition condition⟩ :: allSites (.arm i k :: b) 0 body ++ elsifSites b i (k + 1) es

def allSites (b : Address) (i : Nat) : List Stmt → List (Site Piece)
  | [] => []
  | s :: ss => sites b i s ++ allSites b (i + 1) ss

end

end Stmt

/-- The variables that a line of a source makes known, whether it is the first to do so or not. -/
def Piece.binds : Piece → List String
  | .params names => names
  | .line s => s.assigned
  | .header _ | .classLine _ | .condition _ => []

def FunctionOf.sites (f : FunctionDecl) : List (Site Piece) :=
  ⟨[], .params (Param.names f.params)⟩ :: Stmt.allSites [] 0 f.body

namespace Script.Statement

def isLine : Statement → Bool
  | .function _ | .classDecl .. | .branch .. => false
  | .letVar .. | .setVar .. | .setField .. | .eval _ | .give _ => true

mutual

def sites (b : Address) (i : Nat) : Statement → List (Site Script.Piece)
  | .function ⟨name, params, body⟩ =>
    ⟨b, .header name⟩ :: ⟨.function i :: b, .params params⟩ :: allSites (.function i :: b) 0 body
  | .classDecl name _ => [⟨b, .classLine name⟩]
  | .branch ⟨condition, body⟩ others otherwise =>
    ⟨b, .condition condition⟩ :: allSites (.arm i 0 :: b) 0 body ++ branchSites b i 1 others ++
      elseSites b i otherwise
  | t => [⟨b, .line t⟩]

def branchSites (b : Address) (i k : Nat) : List (BranchOf Statement) → List (Site Script.Piece)
  | [] => []
  | ⟨condition, body⟩ :: others =>
    ⟨b, .condition condition⟩ :: allSites (.arm i k :: b) 0 body ++ branchSites b i (k + 1) others

def elseSites (b : Address) (i : Nat) : Option (List Statement) → List (Site Script.Piece)
  | none => []
  | some body => allSites (.otherwise i :: b) 0 body

def allSites (b : Address) (i : Nat) : List Statement → List (Site Script.Piece)
  | [] => []
  | t :: ts => sites b i t ++ allSites b (i + 1) ts

end

end Script.Statement

def Script.MethodOf.sites (m : Method) : List (Site Script.Piece) :=
  ⟨[], .params m.params⟩ :: Statement.allSites [] 0 m.body

/-! ### Lowering a line -/

/-- What a block sees of the lines before it. -/
def Script.Scope.seenAt (outer : Scope) (earlier : List (Site Script.Piece)) (b : Address) :
    Scope :=
  outer.declareAll
    ((earlier.filter fun e => e.block.isSuffixOf b).flatMap fun e => e.piece.declares)

def Piece.lower (scope : Scope) : Piece → Except UnknownNode Script.Piece
  | .header name => .ok (.header name)
  | .params names => .ok (.params names)
  | .classLine name => .ok (.classLine name)
  | .condition e => .ok (.condition (e.emit scope))
  | .line s => (s.lower scope).map fun lowered => .line lowered.1

inductive EmitsLines (outer : Scope) :
    List (Site Script.Piece) → List (Site Piece) → List (Site Script.Piece) → Prop
  | nil {earlier} : EmitsLines outer earlier [] []
  | cons {earlier s piece ss ts} : s.piece.lower (outer.seenAt earlier s.block) = .ok piece →
    EmitsLines outer (earlier ++ [⟨s.block, piece⟩]) ss ts →
    EmitsLines outer earlier (s :: ss) (⟨s.block, piece⟩ :: ts)

namespace Script.Scope

variable {outer : Scope} {earlier : List (Site Script.Piece)} {b : Address}

@[simp] theorem declareAll_append (scope : Scope) (names others : List String) :
    scope.declareAll (names ++ others) = (scope.declareAll names).declareAll others :=
  List.foldl_append

theorem seenAt_append_of_suffix {e : Site Script.Piece} (h : e.block <:+ b) :
    outer.seenAt (earlier ++ [e]) b = (outer.seenAt earlier b).declareAll e.piece.declares := by
  have hfilter : (earlier ++ [e]).filter (fun e => e.block.isSuffixOf b) =
      earlier.filter (fun e => e.block.isSuffixOf b) ++ [e] := by
    have hpos : e.block.isSuffixOf b = true := List.isSuffixOf_iff_suffix.2 h
    rw [List.filter_append, List.filter_cons, hpos]
    rfl
  rw [seenAt, hfilter, List.flatMap_append, List.flatMap_singleton, declareAll_append]
  rfl

/-- Lines in other blocks are not seen. -/
theorem seenAt_append_of_forall {later : List (Site Script.Piece)}
    (h : ∀ e ∈ later, ¬ e.block <:+ b) :
    outer.seenAt (earlier ++ later) b = outer.seenAt earlier b := by
  have hfilter : later.filter (fun e => e.block.isSuffixOf b) = [] := by
    rw [List.filter_eq_nil_iff]
    intro e he hsuffix
    exact h e he (List.isSuffixOf_iff_suffix.1 hsuffix)
  rw [seenAt, List.filter_append, hfilter, List.append_nil]
  rfl

theorem seenAt_append_of_declares {e : Site Script.Piece} (h : e.piece.declares = []) :
    outer.seenAt (earlier ++ [e]) b = outer.seenAt earlier b := by
  by_cases hsuffix : e.block <:+ b
  · rw [seenAt_append_of_suffix hsuffix, h]
    rfl
  · exact seenAt_append_of_forall (by simpa using hsuffix)

/-- A block in which there is nothing yet sees what the block around it sees. -/
theorem seenAt_cons {step : Step} (h : ∀ e ∈ earlier, ¬ (step :: b) <:+ e.block) :
    outer.seenAt earlier (step :: b) = outer.seenAt earlier b := by
  have hfilter : earlier.filter (fun e => e.block.isSuffixOf (step :: b)) =
      earlier.filter (fun e => e.block.isSuffixOf b) := by
    apply List.filter_congr
    intro e he
    rw [Bool.eq_iff_iff, List.isSuffixOf_iff_suffix, List.isSuffixOf_iff_suffix,
      List.suffix_cons_iff]
    apply or_iff_right
    intro heq
    exact h e he (heq ▸ List.suffix_refl e.block)
  rw [seenAt, hfilter]
  rfl

@[simp] theorem mem_seenAt {name : String} : name ∈ (outer.seenAt earlier b).declared ↔
    name ∈ outer.declared ∨ ∃ e ∈ earlier, e.block <:+ b ∧ name ∈ e.piece.declares := by
  rw [seenAt, Covered.mem_declareAll, or_comm, List.mem_flatMap]
  simp only [List.mem_filter, List.isSuffixOf_iff_suffix, and_assoc]

theorem seenAt_subset {inner : Address} (h : b <:+ inner) :
    (outer.seenAt earlier b).declared ⊆ (outer.seenAt earlier inner).declared := by
  intro name hname
  rw [mem_seenAt] at hname ⊢
  apply hname.imp_right
  rintro ⟨e, he, hsuffix, hdeclares⟩
  exact ⟨e, he, hsuffix.trans h, hdeclares⟩

end Script.Scope

/-! ### What lowering gives -/

namespace Stmt

variable {scope after : Scope} {t : Statement}

theorem lower_branch {condition : Expr} {body otherwise : List Stmt} {elsifs : List Elsif}
    {hasElse : Bool} {span : Span}
    (h : lower scope (.branch condition body elsifs otherwise hasElse span) = .ok (t, after)) :
    ∃ ts bs os, lowerAll scope body = .ok ts ∧ lowerElsifs scope elsifs = .ok bs ∧
      (if hasElse then (lowerAll scope otherwise).map some else .ok none) = .ok os ∧
      t = .branch ⟨condition.emit scope, ts⟩ bs os ∧ after = scope := by
  rw [lower] at h
  split at h
  · cases h
  · next ts hts =>
    split at h
    · cases h
    · next bs hbs =>
      split at h
      · cases h
      · next os hos =>
        cases h
        exact ⟨ts, bs, os, hts, hbs, hos, rfl, rfl⟩

theorem lowerElsifs_cons {e : Elsif} {es : List Elsif} {bs : List (Script.BranchOf Statement)}
    (h : lowerElsifs scope (e :: es) = .ok bs) : ∃ ts rest, lowerAll scope e.body = .ok ts ∧
      lowerElsifs scope es = .ok rest ∧ bs = ⟨e.condition.emit scope, ts⟩ :: rest := by
  obtain ⟨condition, body⟩ := e
  rw [lowerElsifs] at h
  split at h
  · cases h
  · next ts hts =>
    split at h
    · cases h
    · next rest hrest =>
      cases h
      exact ⟨ts, rest, hts, hrest, rfl⟩

theorem lowerElse_eq {body : List Stmt} {hasElse : Bool} {ts : Option (List Statement)}
    (h : (if hasElse then (lowerAll scope body).map some else .ok none) = .ok ts) :
    hasElse = false ∧ ts = none ∨ ∃ us, hasElse = true ∧ ts = some us ∧
      lowerAll scope body = .ok us := by
  cases hasElse with
  | false =>
    cases h
    exact .inl ⟨rfl, rfl⟩
  | true =>
    rw [if_pos rfl] at h
    cases hts : lowerAll scope body with
    | error e =>
      rw [hts] at h
      cases h
    | ok us =>
      rw [hts] at h
      cases h
      exact .inr ⟨us, rfl, rfl, rfl⟩

theorem lower_function {f : FunctionDecl} (h : lower scope (.function f) = .ok (t, after)) :
    ∃ m, lowerFunction scope f = .ok m ∧ t = .function m ∧ after = scope := by
  rw [lower] at h
  split at h
  · cases h
  · next m hm =>
    cases h
    exact ⟨m, hm, rfl, rfl⟩

theorem lowerFunction_body {f : FunctionDecl} {m : Method} (h : lowerFunction scope f = .ok m) :
    m.params = Param.names f.params ∧
      lowerAll (scope.declareAll (Param.names f.params)) f.body = .ok m.body := by
  obtain ⟨name, params, type, body, span⟩ := f
  rw [lowerFunction] at h
  split at h
  · cases h
  · next hts =>
    cases h
    exact ⟨rfl, hts⟩

theorem lower_classDecl {c : ClassDecl} (h : lower scope (.classDecl c) = .ok (t, after)) :
    ∃ members, constructorFirst (lowerMembers c.methods) = members.map .ok ∧
      t = .classDecl c.name members ∧ after = scope := by
  obtain ⟨name, properties, methods, span⟩ := c
  rw [lower] at h
  split at h
  · cases h
  · next members hmembers =>
    cases h
    exact ⟨members, eq_map_of_allOk hmembers, rfl, rfl⟩

theorem lower_isLine {s : Stmt} (hs : s.isLine = true) (h : s.lower scope = .ok (t, after)) :
    t.isLine = true ∧ after = scope.declareAll t.lets ∧
      t.lets = s.assigned.filter fun name => !scope.isDeclared name := by
  cases s with
  | assign name value span =>
    rw [lower] at h
    split at h
    · next hd =>
      cases h
      exact ⟨rfl, rfl, by simp [Statement.lets, assigned, hd]⟩
    · next hd =>
      cases h
      exact ⟨rfl, rfl, by simp [Statement.lets, assigned, hd]⟩
  | assignInstanceVar name value span =>
    rw [lower] at h
    split at h <;> cases h <;> exact ⟨rfl, rfl, rfl⟩
  | assignProperty | print | give =>
    rw [lower] at h
    cases h
    exact ⟨rfl, rfl, rfl⟩
  | expr e =>
    rw [lower] at h
    split at h
    · cases h
    · next he =>
      cases h
      cases e <;> cases he <;> exact ⟨rfl, rfl, rfl⟩
  | function | classDecl | component | branch => cases hs

theorem mem_lets {s : Stmt} {name : String} (h : s.lower scope = .ok (t, after)) :
    name ∈ t.lets ↔ name ∈ s.assigned ∧ name ∉ scope.declared := by
  have hlets : t.lets = s.assigned.filter fun name => !scope.isDeclared name := by
    cases s with
    | function f =>
      obtain ⟨m, _, rfl, _⟩ := lower_function h
      rfl
    | classDecl c =>
      obtain ⟨members, _, rfl, _⟩ := lower_classDecl h
      rfl
    | branch =>
      obtain ⟨ts, bs, os, _, _, _, rfl, _⟩ := lower_branch h
      rfl
    | component =>
      rw [lower] at h
      cases h
    | assign | assignProperty | assignInstanceVar | print | give | expr =>
      exact (lower_isLine rfl h).2.2
  simp [hlets, Scope.isDeclared]

end Stmt

theorem Piece.lower_line {s : Stmt} {scope : Scope} {piece : Script.Piece}
    (h : (Piece.line s).lower scope = .ok piece) :
    ∃ t after, s.lower scope = .ok (t, after) ∧ piece = .line t := by
  rw [Piece.lower] at h
  cases hs : s.lower scope with
  | error e =>
    rw [hs] at h
    cases h
  | ok lowered =>
    rw [hs] at h
    cases h
    exact ⟨lowered.1, lowered.2, rfl, rfl⟩

theorem Piece.mem_binds {s : Piece} {scope : Scope} {piece : Script.Piece} {name : String}
    (h : s.lower scope = .ok piece) :
    name ∈ piece.declares ∨ name ∈ scope.declared ↔ name ∈ s.binds ∨ name ∈ scope.declared := by
  cases s with
  | line s =>
    obtain ⟨t, after, ht, rfl⟩ := lower_line h
    rw [Script.Piece.declares, binds, Stmt.mem_lets ht]
    grind
  | header | params | classLine | condition =>
    cases h
    rfl

namespace EmitsLines

variable {outer : Scope} {earlier : List (Site Script.Piece)} {ss : List (Site Piece)}
  {ts : List (Site Script.Piece)}

theorem append {ss' : List (Site Piece)} {ts' : List (Site Script.Piece)}
    (h : EmitsLines outer earlier ss ts) (h' : EmitsLines outer (earlier ++ ts) ss' ts') :
    EmitsLines outer earlier (ss ++ ss') (ts ++ ts') := by
  induction h with
  | nil =>
    rw [List.append_nil] at h'
    exact h'
  | cons hs _ ih =>
    refine .cons hs (ih ?_)
    rw [List.append_assoc]
    exact h'

theorem blocks (h : EmitsLines outer earlier ss ts) : ts.map Site.block = ss.map Site.block := by
  induction h with
  | nil => rfl
  | cons _ _ ih => rw [List.map_cons, List.map_cons, ih]

theorem length_eq (h : EmitsLines outer earlier ss ts) : ts.length = ss.length := by
  have hblocks := congrArg List.length h.blocks
  rwa [List.length_map, List.length_map] at hblocks

theorem forall_block {P : Address → Prop} (h : EmitsLines outer earlier ss ts)
    (hs : ∀ s ∈ ss, P s.block) : ∀ t ∈ ts, P t.block := by
  intro t ht
  have hmem : t.block ∈ ss.map Site.block := by
    rw [← h.blocks]
    exact List.mem_map_of_mem ht
  obtain ⟨s, hs', heq⟩ := List.mem_map.1 hmem
  rw [← heq]
  exact hs s hs'

@[simp] theorem mem_seenAt (h : EmitsLines outer earlier ss ts) {b : Address} {name : String} :
    name ∈ (outer.seenAt (earlier ++ ts) b).declared ↔
      name ∈ (outer.seenAt earlier b).declared ∨
      ∃ s ∈ ss, s.block <:+ b ∧ name ∈ s.piece.binds := by
  induction h with
  | nil => simp
  | @cons earlier s piece ss ts hs _ ih =>
    have hmore : name ∈ (outer.seenAt (earlier ++ [⟨s.block, piece⟩]) b).declared ↔
        name ∈ (outer.seenAt earlier b).declared ∨ s.block <:+ b ∧ name ∈ s.piece.binds := by
      by_cases hsuffix : s.block <:+ b
      · -- What the line knew already is known in `b` too.
        have hknown : name ∈ (outer.seenAt earlier s.block).declared →
            name ∈ (outer.seenAt earlier b).declared :=
          fun hname => Script.Scope.seenAt_subset hsuffix hname
        have hbinds : name ∈ piece.declares ∨ _ ↔ _ := Piece.mem_binds hs
        rw [Script.Scope.seenAt_append_of_suffix hsuffix, Script.Scope.Covered.mem_declareAll]
        grind
      · rw [Script.Scope.seenAt_append_of_forall (by simpa using hsuffix)]
        simp [hsuffix]
    rw [List.append_cons, ih, hmore, or_assoc]
    simp

end EmitsLines

/-! ### Where the lines of a statement stand -/

namespace Stmt

/-- Lines stand in the block of their statement, or in a block that this statement opens. -/
def Within (b : Address) (i : Nat) (block : Address) : Prop :=
  block = b ∨ ∃ step : Step, step.position = i ∧ step :: b <:+ block

theorem Within.suffix {b block : Address} {i : Nat} (h : Within b i block) : b <:+ block := by
  rcases h with rfl | ⟨step, _, h⟩
  · exact List.suffix_refl block
  · exact (List.suffix_cons step b).trans h

def Placed (s : Stmt) : Prop := ∀ b i, ∀ site ∈ s.sites b i, Within b i site.block

theorem allSites_suffix {body : List Stmt} (h : ∀ s ∈ body, s.Placed) (b : Address) (i : Nat) :
    ∀ site ∈ allSites b i body, b <:+ site.block := by
  induction body generalizing i with
  | nil =>
    rw [allSites]
    simp
  | cons s body ih =>
    obtain ⟨hs, hbody⟩ := List.forall_mem_cons.1 h
    rw [allSites]
    exact List.forall_mem_append.2 ⟨fun site hsite => (hs b i site hsite).suffix, ih hbody (i + 1)⟩

theorem body_within {body : List Stmt} (h : ∀ s ∈ body, s.Placed) (step : Step) (b : Address) :
    ∀ site ∈ allSites (step :: b) 0 body, Within b step.position site.block :=
  fun site hsite => .inr ⟨step, rfl, allSites_suffix h (step :: b) 0 site hsite⟩

theorem elsifSites_within {es : List Elsif} (h : ∀ e ∈ es, ∀ s ∈ e.body, s.Placed) (b : Address)
    (i k : Nat) :
    ∀ site ∈ elsifSites b i k es, Within b i site.block := by
  induction es generalizing k with
  | nil =>
    rw [elsifSites]
    simp
  | cons e es ih =>
    obtain ⟨he, hes⟩ := List.forall_mem_cons.1 h
    rw [elsifSites]
    exact List.forall_mem_append.2
      ⟨List.forall_mem_cons.2 ⟨.inl rfl, body_within he (.arm i k) b⟩, ih hes (k + 1)⟩

theorem Code.placed {s : Stmt} (h : s.Code) : s.Placed := by
  induction h with
  | @function f _ ih =>
    intro b i
    obtain ⟨name, params, type, body, span⟩ := f
    rw [sites]
    refine List.forall_mem_cons.2
      ⟨.inl rfl, List.forall_mem_cons.2 ⟨?_, body_within ih (.function i) b⟩⟩
    exact .inr ⟨.function i, rfl, List.suffix_refl _⟩
  | @classDecl c _ _ =>
    intro b i
    obtain ⟨name, properties, methods, span⟩ := c
    simp [sites, Within]
  | @branch condition body elsifs otherwise hasElse span _ _ _ ihb ihe iho =>
    intro b i
    rw [sites]
    refine List.forall_mem_append.2
      ⟨List.forall_mem_append.2
      ⟨List.forall_mem_cons.2 ⟨.inl rfl, body_within ihb (.arm i 0) b⟩,
        elsifSites_within ihe b i 1⟩, ?_⟩
    cases hasElse with
    | true => exact body_within iho (.otherwise i) b
    | false => simp
  | _ =>
    intro b i
    simp [sites, Within]

end Stmt

/-! ### Lowering a tree lowers its lines -/

/-- The steps from `b` that lines have taken already. -/
def Taken (taken : Step → Prop) (earlier : List (Site Script.Piece)) (b : Address) : Prop :=
  ∀ e ∈ earlier, ∀ step, step :: b <:+ e.block → taken step

namespace Taken

variable {taken taken' : Step → Prop} {earlier later : List (Site Script.Piece)} {b : Address}

theorem imp (h : Taken taken earlier b) (himp : ∀ step, taken step → taken' step) :
    Taken taken' earlier b :=
  fun e he step hstep => himp step (h e he step hstep)

theorem append (h : Taken taken earlier b) (h' : Taken taken later b) :
    Taken taken (earlier ++ later) b :=
  List.forall_mem_append.2 ⟨h, h'⟩

theorem eq_of_suffix {step other : Step} {block : Address} (h : step :: b <:+ block)
    (h' : other :: b <:+ block) : step = other := by
  have hsuffix := List.suffix_of_suffix_length_le h h' (by simp)
  exact (List.cons.inj (hsuffix.eq_of_length (by simp))).1

theorem not_suffix_self (step : Step) : ¬ step :: b <:+ b := by
  intro h
  have hlength := h.length_le
  rw [List.length_cons] at hlength
  omega

theorem self (piece : Script.Piece) : Taken taken [⟨b, piece⟩] b := by
  intro e he step hstep
  rw [List.mem_singleton.1 he] at hstep
  exact absurd hstep (not_suffix_self step)

theorem fresh {step : Step} (h : Taken taken earlier b) (hstep : ¬ taken step) :
    ∀ e ∈ earlier, ¬ step :: b <:+ e.block :=
  fun e he hsuffix => hstep (h e he step hsuffix)

theorem of_fresh {step : Step} (h : ∀ e ∈ earlier, ¬ step :: b <:+ e.block) :
    Taken taken earlier (step :: b) := by
  intro e he other hother
  exact absurd ((List.suffix_cons other _).trans hother) (h e he)

theorem of_within {i : Nat} (h : ∀ e ∈ later, Stmt.Within b i e.block) :
    Taken (·.position < i + 1) later b := by
  intro e he step hstep
  rcases h e he with hblock | ⟨other, hposition, hother⟩
  · rw [hblock] at hstep
    exact absurd hstep (not_suffix_self step)
  · rw [eq_of_suffix hstep hother]
    omega

end Taken

/-- Lines after which the block `b` sees what it saw before them. -/
structure EmitsAside (outer : Scope) (b : Address) (taken : Step → Prop)
    (earlier : List (Site Script.Piece)) (ss : List (Site Piece)) (ts : List (Site Script.Piece)) :
    Prop where
  emits : EmitsLines outer earlier ss ts
  seen : outer.seenAt (earlier ++ ts) b = outer.seenAt earlier b
  taken : Taken taken (earlier ++ ts) b

namespace EmitsAside

variable {outer : Scope} {b : Address} {taken taken' : Step → Prop}
  {earlier : List (Site Script.Piece)}
  {ss ss' : List (Site Piece)} {ts ts' : List (Site Script.Piece)}

theorem nil (h : Taken taken earlier b) : EmitsAside outer b taken earlier [] [] where
  emits := .nil
  seen := by rw [List.append_nil]
  taken := by rwa [List.append_nil]

theorem imp (h : EmitsAside outer b taken earlier ss ts) (himp : ∀ step, taken step → taken' step) :
    EmitsAside outer b taken' earlier ss ts :=
  { h with taken := h.taken.imp himp }

theorem append (h : EmitsAside outer b taken earlier ss ts)
    (h' : EmitsAside outer b taken' (earlier ++ ts) ss' ts') :
    EmitsAside outer b taken' earlier (ss ++ ss') (ts ++ ts') where
  emits := h.emits.append h'.emits
  seen := by rw [← List.append_assoc, h'.seen, h.seen]
  taken := by
    rw [← List.append_assoc]
    exact h'.taken

theorem line (piece : Piece) {lowered : Script.Piece} (h : Taken taken earlier b)
    (hlower : piece.lower (outer.seenAt earlier b) = .ok lowered)
    (hdeclares : lowered.declares = []) :
    EmitsAside outer b taken earlier [⟨b, piece⟩] [⟨b, lowered⟩] where
  emits := .cons hlower .nil
  seen := Script.Scope.seenAt_append_of_declares hdeclares
  taken := h.append (.self lowered)

theorem inside {step : Step} (h : Taken taken earlier b) (hemits : EmitsLines outer earlier ss ts)
    (hblocks : ∀ s ∈ ss, step :: b <:+ s.block) :
    EmitsAside outer b (fun other => taken other ∨ other = step) earlier ss ts where
  emits := hemits
  seen := by
    apply Script.Scope.seenAt_append_of_forall
    intro e he hsuffix
    exact Taken.not_suffix_self step ((hemits.forall_block hblocks e he).trans hsuffix)
  taken := (h.imp fun _ => .inl).append fun e he other hother =>
    .inr (Taken.eq_of_suffix hother (hemits.forall_block hblocks e he))

end EmitsAside

namespace Stmt

/-- The lines of a statement are lowered one by one, and what they declare is seen after it. -/
def LowersByLine (s : Stmt) : Prop :=
  ∀ {outer earlier b i t after}, s.lower (outer.seenAt earlier b) = .ok (t, after) →
    Taken (·.position < i) earlier b →
    EmitsLines outer earlier (s.sites b i) (t.sites b i) ∧
      after = outer.seenAt (earlier ++ t.sites b i) b

variable {outer : Scope} {earlier : List (Site Script.Piece)} {b : Address}

theorem lowerAll_byLine {body : List Stmt} (hplaced : ∀ s ∈ body, s.Placed)
    (hbody : ∀ s ∈ body, s.LowersByLine) {i : Nat} {ts : List Statement}
    (h : lowerAll (outer.seenAt earlier b) body = .ok ts)
    (htaken : Taken (·.position < i) earlier b) :
    EmitsLines outer earlier (allSites b i body) (Statement.allSites b i ts) := by
  induction body generalizing earlier i ts with
  | nil =>
    rw [lowerAll] at h
    cases h
    exact .nil
  | cons s body ih =>
    obtain ⟨t, after, rest, ht, hrest, rfl⟩ := lowerAll_cons h
    obtain ⟨hs, hrestPlaced⟩ := List.forall_mem_cons.1 hplaced
    obtain ⟨hlines, rfl⟩ := hbody s List.mem_cons_self ht htaken
    rw [allSites, Statement.allSites]
    refine hlines.append (ih hrestPlaced (fun s hs => hbody s (List.mem_cons_of_mem _ hs)) hrest ?_)
    exact (htaken.imp fun step hstep => Nat.lt_succ_of_lt hstep).append
      (Taken.of_within (hlines.forall_block (hs b i)))

theorem body_byLine {body : List Stmt} (hplaced : ∀ s ∈ body, s.Placed)
    (hbody : ∀ s ∈ body, s.LowersByLine) {ts : List Statement}
    (h : lowerAll (outer.seenAt earlier b) body = .ok ts) {taken : Step → Prop}
    (htaken : Taken taken earlier b) (step : Step) (hstep : ¬ taken step) :
    EmitsAside outer b (fun other => taken other ∨ other = step) earlier
      (allSites (step :: b) 0 body) (Statement.allSites (step :: b) 0 ts) := by
  have hfresh := htaken.fresh hstep
  rw [← Script.Scope.seenAt_cons hfresh] at h
  exact .inside htaken (lowerAll_byLine hplaced hbody h (.of_fresh hfresh))
    (allSites_suffix hplaced (step :: b) 0)

theorem elsifs_byLine {es : List Elsif} (hplaced : ∀ e ∈ es, ∀ s ∈ e.body, s.Placed)
    (hes : ∀ e ∈ es, ∀ s ∈ e.body, s.LowersByLine) {i k : Nat}
    {bs : List (Script.BranchOf Statement)} (h : lowerElsifs (outer.seenAt earlier b) es = .ok bs)
    (htaken : Taken (fun step => step.position < i ∨ ∃ j < k, step = .arm i j) earlier b) :
    EmitsAside outer b (fun step => step.position < i ∨ ∃ j, step = .arm i j) earlier
      (elsifSites b i k es) (Statement.branchSites b i k bs) := by
  induction es generalizing earlier k bs with
  | nil =>
    rw [lowerElsifs] at h
    cases h
    exact .nil (htaken.imp fun step hstep => hstep.imp_right fun hstep =>
      hstep.imp fun _ hj => hj.2)
  | cons e es ih =>
    obtain ⟨hbodyPlaced, hesPlaced⟩ := List.forall_mem_cons.1 hplaced
    obtain ⟨hbody, hes⟩ := List.forall_mem_cons.1 hes
    obtain ⟨ts, rest, hts, hrest, rfl⟩ := lowerElsifs_cons h
    have hcondition : EmitsAside outer b _ earlier [⟨b, .condition e.condition⟩] _ :=
      .line (.condition e.condition) htaken rfl rfl
    rw [← hcondition.seen] at hts hrest
    have hblock :=
      body_byLine hbodyPlaced hbody hts hcondition.taken (.arm i k) (by simp [Step.position])
    rw [← hblock.seen] at hrest
    have hnext := ih hesPlaced hes hrest (hblock.taken.imp fun step hstep => by
      rcases hstep with (hposition | ⟨j, hj, hstep⟩) | hstep
      · exact .inl hposition
      · exact .inr ⟨j, Nat.lt_succ_of_lt hj, hstep⟩
      · exact .inr ⟨k, Nat.lt_succ_self k, hstep⟩)
    obtain ⟨condition, body⟩ := e
    rw [elsifSites, Statement.branchSites]
    exact hcondition.append (hblock.append hnext)

theorem otherwise_byLine {body : List Stmt} (hplaced : ∀ s ∈ body, s.Placed)
    (hbody : ∀ s ∈ body, s.LowersByLine) {hasElse : Bool} {i : Nat} {ts : Option (List Statement)}
    (h : (if hasElse then (lowerAll (outer.seenAt earlier b) body).map some else .ok none) = .ok ts)
    (htaken : Taken (fun step => step.position < i ∨ ∃ j, step = .arm i j) earlier b) :
    EmitsAside outer b (·.position < i + 1) earlier
      (if hasElse then allSites (.otherwise i :: b) 0 body else [])
        (Statement.elseSites b i ts) := by
  have hposition : ∀ step : Step, (step.position < i ∨ ∃ j, step = .arm i j) ∨ step = .otherwise i →
      step.position < i + 1 := by
    rintro step ((hstep | ⟨j, rfl⟩) | rfl)
    · exact Nat.lt_succ_of_lt hstep
    · exact Nat.lt_succ_self i
    · exact Nat.lt_succ_self i
  cases lowerElse_eq h with
  | inl hnone =>
    obtain ⟨rfl, rfl⟩ := hnone
    exact .nil (htaken.imp fun step hstep => hposition step (.inl hstep))
  | inr hsome =>
    obtain ⟨ts, rfl, rfl, hts⟩ := hsome
    exact (body_byLine hplaced hbody hts htaken (.otherwise i) (by simp [Step.position])).imp
      hposition

theorem sites_of_isLine {s : Stmt} (h : s.isLine = true) (b : Address) (i : Nat) :
    s.sites b i = [⟨b, .line s⟩] := by
  cases s <;> cases h <;> simp [sites]

theorem statementSites_of_isLine {t : Statement} (h : t.isLine = true) (b : Address) (i : Nat) :
    t.sites b i = [⟨b, .line t⟩] := by
  cases t <;> cases h <;> simp [Statement.sites]

theorem line_byLine {s : Stmt} (hs : s.isLine = true) : s.LowersByLine := by
  intro outer earlier b i t after h _
  obtain ⟨ht, hafter, _⟩ := lower_isLine hs h
  have hpiece : (Piece.line s).lower (outer.seenAt earlier b) = .ok (.line t) := by
    rw [Piece.lower, h]
    rfl
  rw [sites_of_isLine hs, statementSites_of_isLine ht,
    Script.Scope.seenAt_append_of_suffix (List.suffix_refl b)]
  exact ⟨.cons hpiece .nil, hafter⟩

theorem branch_byLine {condition : Expr} {body otherwise : List Stmt} {elsifs : List Elsif}
    {hasElse : Bool} {span : Span} (hplaced : ∀ s ∈ body, s.Placed)
    (helsifsPlaced : ∀ e ∈ elsifs, ∀ s ∈ e.body, s.Placed)
    (hotherwisePlaced : ∀ s ∈ otherwise, s.Placed) (hbody : ∀ s ∈ body, s.LowersByLine)
    (helsifs : ∀ e ∈ elsifs, ∀ s ∈ e.body, s.LowersByLine)
    (hotherwise : ∀ s ∈ otherwise, s.LowersByLine) :
    LowersByLine (.branch condition body elsifs otherwise hasElse span) := by
  intro outer earlier b i t after h htaken
  obtain ⟨ts, bs, os, hts, hbs, hos, rfl, rfl⟩ := lower_branch h
  have hcondition : EmitsAside outer b _ earlier [⟨b, .condition condition⟩] _ :=
    .line (.condition condition) htaken rfl rfl
  rw [← hcondition.seen] at hts hbs hos
  have hblock := body_byLine hplaced hbody hts hcondition.taken (.arm i 0) (by simp [Step.position])
  rw [← hblock.seen] at hbs hos
  have harms := elsifs_byLine helsifsPlaced helsifs hbs (hblock.taken.imp fun step hstep =>
    hstep.imp_right fun hstep => ⟨0, Nat.zero_lt_one, hstep⟩)
  rw [← harms.seen] at hos
  have hlast := otherwise_byLine hotherwisePlaced hotherwise hos harms.taken
  have hlines := hcondition.append (hblock.append (harms.append hlast))
  rw [sites, Statement.sites, List.append_assoc, List.append_assoc, List.cons_append]
  exact ⟨hlines.emits, hlines.seen.symm⟩

theorem function_byLine {f : FunctionDecl} (hplaced : ∀ s ∈ f.body, s.Placed)
    (hbody : ∀ s ∈ f.body, s.LowersByLine) : LowersByLine (.function f) := by
  intro outer earlier b i t after h htaken
  obtain ⟨m, hm, rfl, rfl⟩ := lower_function h
  obtain ⟨name, params, type, body, span⟩ := f
  rw [lowerFunction] at hm
  split at hm
  · cases hm
  · next ts hts =>
    cases hm
    have hheader : EmitsAside outer b _ earlier [⟨b, .header name⟩] _ :=
      .line (.header name) htaken rfl rfl
    have hfresh : ∀ e ∈ earlier ++ [⟨b, .header name⟩], ¬ Step.function i :: b <:+ e.block :=
      hheader.taken.fresh (by simp [Step.position])
    have hparams : outer.seenAt (earlier ++ [⟨b, .header name⟩] ++
        [⟨.function i :: b, .params (Param.names params)⟩]) (.function i :: b) =
        (outer.seenAt earlier b).declareAll (Param.names params) := by
      rw [Script.Scope.seenAt_append_of_suffix (List.suffix_refl _),
        Script.Scope.seenAt_cons hfresh, hheader.seen]
      rfl
    rw [← hparams] at hts
    have hlines :=
      lowerAll_byLine (i := 0) hplaced hbody hts ((Taken.of_fresh hfresh).append (.self _))
    have hblock : EmitsLines outer (earlier ++ [⟨b, .header name⟩])
        (⟨.function i :: b, .params (Param.names params)⟩ :: allSites (.function i :: b) 0 body)
          _ :=
      .cons rfl hlines
    have hinside := EmitsAside.inside hheader.taken hblock
      (List.forall_mem_cons.2 ⟨List.suffix_refl _, allSites_suffix hplaced _ 0⟩)
    have hall := hheader.append hinside
    rw [sites, Statement.sites]
    exact ⟨hall.emits, hall.seen.symm⟩

theorem Code.lowersByLine {s : Stmt} (h : s.Code) : s.LowersByLine := by
  induction h with
  | function hf ih => exact function_byLine (fun s hs => (hf s hs).placed) ih
  | @classDecl c _ _ =>
    intro outer earlier b i t after h htaken
    obtain ⟨members, _, rfl, rfl⟩ := lower_classDecl h
    obtain ⟨name, properties, methods, span⟩ := c
    have hline : EmitsAside outer b _ earlier [⟨b, .classLine name⟩] _ :=
      .line (.classLine name) htaken rfl rfl
    rw [sites, Statement.sites]
    exact ⟨hline.emits, hline.seen.symm⟩
  | branch hb he ho ihb ihe iho =>
    exact branch_byLine (fun s hs => (hb s hs).placed) (fun e hmem s hs => (he e hmem s hs).placed)
      (fun s hs => (ho s hs).placed) ihb ihe iho
  | assign | assignProperty | assignInstanceVar | print | give | expr => exact line_byLine rfl

theorem lowerAll_sites {f : FunctionDecl} (hf : ∀ s ∈ f.body, s.Code) {m : Method}
    (h : lowerAll (outer.declareAll (Param.names f.params)) f.body = .ok m.body)
    (hparams : m.params = Param.names f.params) : EmitsLines outer [] f.sites m.sites := by
  have hseen : outer.seenAt ([] ++ [⟨[], .params (Param.names f.params)⟩]) [] =
      outer.declareAll (Param.names f.params) := by
    rw [Script.Scope.seenAt_append_of_suffix (List.suffix_refl _)]
    rfl
  rw [← hseen] at h
  rw [FunctionOf.sites, Script.MethodOf.sites, hparams]
  exact .cons rfl
    (lowerAll_byLine (fun s hs => (hf s hs).placed) (fun s hs => (hf s hs).lowersByLine) h
    (.self _))

end Stmt

end LayoutScript

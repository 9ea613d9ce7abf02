import LayoutScript.Proofs.InlineContent
import LayoutScript.Proofs.LineHeads
import LayoutScript.Syntax.Outline

/-! Which tokens make up a node of the tree. The span of a node runs from the first to the last of
its tokens, and the tokens of its children are some of its own, those of one child after those of
another. Only an element inside an element stands apart: its tokens come after those of the element
around it, whose span ends with the line of its tag. And only the members of a component may be
listed in another order than they stand in: their kinds come first. -/
namespace LayoutScript

@[simp] theorem Span.join_self (a : Span) : a.join a = a := rfl

/-- The span runs from the first to the last of the tokens, both of which are solid. -/
def Spanned (ts : List Token) (s : Span) : Prop :=
  ∃ first last, ts.head? = some first ∧ ts.getLast? = some last ∧ first.lexeme.isSolid = true ∧
    last.lexeme.isSolid = true ∧ s = first.span.join last.span

namespace Spanned

variable {t : Token} {pre ts us vs : List Token} {s s' : Span}

theorem single (h : t.lexeme.isSolid = true) : Spanned [t] t.span := ⟨t, t, rfl, rfl, h, h, rfl⟩

theorem append (h : Spanned us s) (h' : Spanned vs s') (mid : List Token) :
    Spanned (us ++ mid ++ vs) (s.join s') := by
  obtain ⟨first, _, hfirst, _, hsolid, _, rfl⟩ := h
  obtain ⟨_, last, _, hlast, _, hsolid', rfl⟩ := h'
  refine ⟨first, last, ?_, ?_, hsolid, hsolid', rfl⟩
  · simp [hfirst]
  · simp [hlast]

theorem of_solid (h : Solid (t :: ts)) : Spanned (t :: ts) (t.span.join (ts.getLastD t).span) := by
  have hlast : (t :: ts).getLast? = some (ts.getLastD t) := by
    rw [List.getLast?_cons, List.getLastD_eq_getLast?]
  exact ⟨t, _, rfl, hlast, h t List.mem_cons_self, h _ (List.mem_of_getLast? hlast), rfl⟩

theorem reach (hhead : (pre ++ us).head? = some t) (ht : t.lexeme.isSolid = true)
    (h : Spanned us s) :
    Spanned (pre ++ us) (t.span.join s) := by
  obtain ⟨_, last, _, hlast, _, hsolid, rfl⟩ := h
  exact ⟨t, last, hhead, by simp [hlast], ht, hsolid, rfl⟩

end Spanned

/-- The kinds whose nodes have their tokens to themselves, and their children in the order of
these. -/
def NodeKind.isPlain : NodeKind → Bool
  | .componentDeclaration | .jsxElement => false
  | _ => true

namespace Outline

mutual

/-- The tokens `ts` make up a node, and some of them what is inside. An element inside an element
stands somewhere else among all `tokens`. -/
def MadeOf (tokens ts : List Token) : Outline → Prop
  | .node kind span children => Spanned ts span ∧ AllMadeOf tokens ts kind children

def AllMadeOf (tokens ts : List Token) (kind : NodeKind) : List Outline → Prop
  | [] => True
  | c :: cs =>
    (∃ us, MadeOf tokens us c ∧
      us <:+: if kind = .jsxElement ∧ c.kind = .jsxElement then tokens else ts) ∧
      AllMadeOf tokens ts kind cs

end

/-- A node is made of tokens that stand together somewhere in `ts`. -/
def StandsIn (tokens ts : List Token) (o : Outline) : Prop :=
  ∃ us, MadeOf tokens us o ∧ us <:+: ts

def memberKinds : List NodeKind :=
  [.propDeclaration, .stateDeclaration, .functionDeclaration, .renderBlock, .styleBlock]

def ofKind (k : NodeKind) (members : List Outline) : List Outline :=
  members.filter fun o => o.kind == k

def byKind (members : List Outline) : List Outline := memberKinds.flatMap fun k => ofKind k members

mutual

/-- The tokens `ts` are those of a node and of everything below it. -/
inductive Occupies : List Token → Outline → Prop
  | node {ts kind span children} : kind.isPlain = true → Spanned ts span → InTurn ts children →
    Occupies ts (.node kind span children)
  | component {ts span members} : Spanned ts span → InTurn ts members →
    (∀ o ∈ members, o.kind ∈ memberKinds) →
    Occupies ts (.node .componentDeclaration span (byKind members))
  | element {line below span content elements} : Spanned line span → InTurn line content →
    InTurn below elements → (∀ e ∈ elements, e.kind = .jsxElement) →
    Occupies (line ++ below) (.node .jsxElement span (content ++ elements))

/-- Nodes occupy parts of the tokens, one after another. -/
inductive InTurn : List Token → List Outline → Prop
  | nil {ts} : InTurn ts []
  | cons {pre us ts o os} : Occupies us o → InTurn ts os → InTurn (pre ++ us ++ ts) (o :: os)

end

section InTurn

variable {pre ts us vs : List Token} {t : Token} {kind : NodeKind} {span : Span} {o : Outline}
  {os os' front children : List Outline}

theorem Occupies.spanned (h : Occupies ts o) (hkind : o.kind ≠ .jsxElement) :
    Spanned ts o.span := by
  cases h with
  | node _ hspan _ => exact hspan
  | component hspan _ _ => exact hspan
  | element _ _ _ _ => exact absurd rfl hkind

theorem InTurn.after (h : InTurn ts os) (pre : List Token) : InTurn (pre ++ ts) os := by
  cases h with
  | nil => exact .nil
  | cons ho hos =>
    rw [← List.append_assoc, ← List.append_assoc]
    exact .cons ho hos

theorem InTurn.append : ∀ {us os}, InTurn us os → InTurn vs os' → InTurn (us ++ vs) (os ++ os')
  | _, _, .nil, h' => h'.after _
  | _, _, .cons ho hos, h' => by
    rw [List.append_assoc]
    exact .cons ho (hos.append h')

theorem InTurn.mono (h : InTurn us os) (hpart : us <:+: ts) : InTurn ts os := by
  obtain ⟨before, rest, rfl⟩ := hpart
  have hrest : InTurn rest [] := .nil
  simpa using (h.after before).append hrest

theorem Occupies.inTurn (h : Occupies ts o) : InTurn ts [o] := by
  have hall : InTurn ([] ++ ts ++ []) [o] := .cons h .nil
  simpa using hall

theorem Occupies.leaf (hkind : kind.isPlain = true) (h : Spanned ts span) :
    Occupies ts (.node kind span []) := .node hkind h .nil

theorem InTurn.exists_spanned (h : InTurn ts (o :: os))
    (hkinds : ∀ c ∈ o :: os, c.kind ≠ .jsxElement) :
    ∃ ws, ws <:+: ts ∧ InTurn ws (o :: os) ∧ Spanned ws (o.span.join (os.getLastD o).span) := by
  induction os generalizing ts o with
  | nil =>
    cases h with
    | @cons pre us ts _ _ ho _ =>
      exact ⟨us, ⟨pre, ts, rfl⟩, ho.inTurn, ho.spanned (hkinds o List.mem_cons_self)⟩
  | cons o' os ih =>
    obtain ⟨hkind, hkinds⟩ := List.forall_mem_cons.1 hkinds
    cases h with
    | @cons pre us ts _ _ ho hos =>
      obtain ⟨ws, ⟨before, rest, rfl⟩, hws, hspan⟩ := ih hos hkinds
      refine ⟨us ++ before ++ ws, ⟨pre, rest, by simp⟩, ?_, ?_⟩
      · rw [List.append_assoc]
        exact ho.inTurn.append (hws.after before)
      · rw [List.getLastD_cons]
        exact (ho.spanned hkind).append hspan before

theorem InTurn.around (h : InTurn ts (o :: os)) (hkind : kind.isPlain = true)
    (hkinds : ∀ c ∈ o :: os, c.kind ≠ .jsxElement) :
    InTurn ts [.node kind (o.span.join (os.getLastD o).span) (o :: os)] := by
  obtain ⟨ws, hpart, hws, hspan⟩ := h.exists_spanned hkinds
  exact (Occupies.node hkind hspan hws).inTurn.mono hpart

theorem InTurn.reach (hfront : InTurn pre front) (hlast : InTurn ts [o])
    (hkind : kind.isPlain = true) (ho : o.kind ≠ .jsxElement) (hhead : (pre ++ ts).head? = some t)
    (ht : t.lexeme.isSolid = true) :
    InTurn (pre ++ ts) [.node kind (t.span.join o.span) (front ++ [o])] := by
  obtain ⟨ws, ⟨before, rest, rfl⟩, hws, hspan⟩ :=
    hlast.exists_spanned (List.forall_mem_singleton.2 ho)
  have hne : ws ≠ [] := by
    obtain ⟨first, _, hfirst, _⟩ := hspan
    rintro rfl
    cases hfirst
  have hhead' : (pre ++ before ++ ws).head? = some t := by
    obtain ⟨w, ws, rfl⟩ := List.exists_cons_of_ne_nil hne
    rw [← hhead]
    simp
  have hchildren : InTurn (pre ++ before ++ ws) (front ++ [o]) := by
    rw [List.append_assoc]
    exact hfront.append (hws.after before)
  exact (Occupies.node hkind (hspan.reach hhead' ht) hchildren).inTurn.mono ⟨[], rest, by simp⟩

end InTurn

section StandsIn

variable {tokens ts us : List Token} {kind : NodeKind} {span : Span} {children : List Outline}
  {o : Outline}

theorem StandsIn.mono (h : o.StandsIn tokens us) (hpart : us <:+: ts) : o.StandsIn tokens ts := by
  obtain ⟨vs, hvs, hus⟩ := h
  exact ⟨vs, hvs, hus.trans hpart⟩

theorem allMadeOf_iff : AllMadeOf tokens ts kind children ↔ ∀ c ∈ children,
    c.StandsIn tokens (if kind = .jsxElement ∧ c.kind = .jsxElement then tokens else ts) := by
  induction children with
  | nil => simp [AllMadeOf]
  | cons c cs ih => rw [AllMadeOf, ih, List.forall_mem_cons, StandsIn]

theorem madeOf_node_iff : MadeOf tokens ts (.node kind span children) ↔ Spanned ts span ∧
    ∀ c ∈ children,
      c.StandsIn tokens (if kind = .jsxElement ∧ c.kind = .jsxElement then tokens else ts) := by
  rw [MadeOf, allMadeOf_iff]

theorem MadeOf.spanned (h : MadeOf tokens ts o) : Spanned ts o.span := by
  obtain ⟨kind, span, children⟩ := o
  exact (madeOf_node_iff.1 h).1

theorem MadeOf.node (hkind : kind ≠ .jsxElement) (hspan : Spanned ts span)
    (h : ∀ c ∈ children, c.StandsIn tokens ts) : MadeOf tokens ts (.node kind span children) := by
  refine madeOf_node_iff.2 ⟨hspan, fun c hc => ?_⟩
  rw [if_neg fun hboth => hkind hboth.1]
  exact h c hc

theorem MadeOf.element (hspan : Spanned ts span) (hts : ts <:+: tokens)
    (h : ∀ c ∈ children, c.StandsIn tokens ts ∨ c.kind = .jsxElement ∧ c.StandsIn tokens tokens) :
    MadeOf tokens ts (.node .jsxElement span children) := by
  refine madeOf_node_iff.2 ⟨hspan, fun c hc => ?_⟩
  split
  · exact (h c hc).elim (fun hin => hin.mono hts) And.right
  · next hkind =>
    exact (h c hc).resolve_right fun hnested => hkind ⟨rfl, hnested.1⟩

mutual

theorem Occupies.standsIn : ∀ {ts o}, Occupies ts o → ts <:+: tokens → o.StandsIn tokens ts
  | ts, _, .node hkind hspan hchildren, hts =>
    ⟨ts, .node (by rintro rfl; cases hkind) hspan (hchildren.standsIn hts), List.infix_rfl⟩
  | ts, _, .component hspan hmembers _, hts => by
    refine ⟨ts, .node (by simp) hspan fun c hc => ?_, List.infix_rfl⟩
    obtain ⟨k, -, hck⟩ := List.mem_flatMap.1 hc
    exact hmembers.standsIn hts c (List.mem_filter.1 hck).1
  | _, _, @Occupies.element line below _ content elements hspan hcontent helements hkinds, hts => by
    have hline : line <:+: tokens := .trans ⟨[], below, rfl⟩ hts
    have hbelow : below <:+: tokens := .trans ⟨line, [], by simp⟩ hts
    refine ⟨line, .element hspan hline (List.forall_mem_append.2 ⟨?_, ?_⟩), ⟨[], below, rfl⟩⟩
    · exact fun c hc => .inl (hcontent.standsIn hline c hc)
    · exact fun c hc => .inr ⟨hkinds c hc, (helements.standsIn hbelow c hc).mono hbelow⟩

theorem InTurn.standsIn : ∀ {ts os}, InTurn ts os → ts <:+: tokens → ∀ o ∈ os, o.StandsIn tokens ts
  | _, _, .nil, _ => fun _ ho => absurd ho List.not_mem_nil
  | _, _, @InTurn.cons pre us ts _ _ ho hos, hts => by
    have hfirst : us <:+: pre ++ us ++ ts := ⟨pre, ts, rfl⟩
    have hrest : ts <:+: pre ++ us ++ ts := ⟨pre ++ us, [], by simp⟩
    refine List.forall_mem_cons.2 ⟨(ho.standsIn (hfirst.trans hts)).mono hfirst, fun c hc => ?_⟩
    exact (hos.standsIn (hrest.trans hts) c hc).mono hrest

end

end StandsIn

end Outline

open LayoutScript.Outline (InTurn Occupies memberKinds ofKind byKind)

/-! ### Lists and blocks -/

section Blocks

variable {ts : List Token} {next : Token}

theorem Separated.inTurn {item : Rule α} {listed : α → Outline} {as : List α}
    (h : Separated item ts next as) (hitem : ∀ {us next a}, item us next a → InTurn us [listed a]) :
    InTurn ts (as.map listed) := by
  induction h with
  | none => exact .nil
  | last ha => exact hitem ha
  | cons ha _ _ ih => exact (hitem ha).append (ih.after [_])

theorem Entries.inTurn {entry : σ → Rule σ} {R : σ → List Outline → σ → Prop} {s s' : σ}
    (hnil : ∀ s, R s [] s)
    (happend : ∀ {s os s₁ os' s'}, R s os s₁ → R s₁ os' s' → R s (os ++ os') s')
    (hstep : ∀ {s s' us next}, us <:+: ts → entry s us next s' → ∃ os, R s os s' ∧ InTurn us os)
    (h : Entries entry s ts next s') : ∃ os, R s os s' ∧ InTurn ts os := by
  induction h with
  | close _ _ => exact ⟨[], hnil _, .nil⟩
  | @entry _ _ _ ns t ts us _ _ _ he _ ih =>
    obtain ⟨os, hr, hos⟩ := hstep ⟨ns, us, rfl⟩ he
    obtain ⟨os', hr', hos'⟩ := ih fun hpart => hstep (hpart.trans ⟨ns ++ t :: ts, [], by simp⟩)
    exact ⟨os ++ os', happend hr hr', (hos.after ns).append hos'⟩

theorem Block.inTurn {entry : σ → Rule σ} {R : σ → List Outline → σ → Prop} {s s' : σ}
    (hnil : ∀ s, R s [] s)
    (happend : ∀ {s os s₁ os' s'}, R s os s₁ → R s₁ os' s' → R s (os ++ os') s')
    (hstep : ∀ {s s' us next}, us <:+: ts → entry s us next s' → ∃ os, R s os s' ∧ InTurn us os)
    (h : Block entry s ts next s') : ∃ os, R s os s' ∧ InTurn ts os := by
  cases h with
  | empty _ _ _ _ => exact ⟨[], hnil _, .nil⟩
  | @indented _ le ns i us _ _ _ _ he =>
    have hpart : us <:+: le ++ ns ++ i :: us := ⟨le ++ ns ++ [i], [], by simp⟩
    obtain ⟨os, hr, hos⟩ := he.inTurn hnil happend fun hin => hstep (hin.trans hpart)
    exact ⟨os, hr, hos.mono hpart⟩

theorem Block.inTurn_flatMap {rule : Rule α} {listed : α → List Outline} {as : List α}
    (hrule : ∀ {us next a}, us <:+: ts → rule us next a → InTurn us (listed a))
    (h : Block (Appends rule) [] ts next as) : InTurn ts (as.flatMap listed) := by
  obtain ⟨os, hos, hin⟩ := h.inTurn
    (R := fun as os as' => as'.flatMap listed = as.flatMap listed ++ os)
    (fun as => (List.append_nil _).symm)
    (fun h h' => by rw [h', h, List.append_assoc])
    (fun hpart hentry => by
      cases hentry with
      | mk ha => exact ⟨_, by rw [List.flatMap_append, List.flatMap_singleton], hrule hpart ha⟩)
  rw [List.flatMap_nil, List.nil_append] at hos
  rwa [hos]

theorem Block.inTurn_map {rule : Rule α} {listed : α → Outline} {as : List α}
    (hrule : ∀ {us next a}, us <:+: ts → rule us next a → InTurn us [listed a])
    (h : Block (Appends rule) [] ts next as) : InTurn ts (as.map listed) := by
  rw [List.map_eq_flatMap]
  exact h.inTurn_flatMap hrule

end Blocks

/-! ### Expressions -/

namespace Expr

variable {E : Rule Expr} {ts us : List Token} {next : Token} {e base : Expr} {start last : Span}
  {properties : List String} {args : List Expr}

@[simp] theorem outlines_eq_map (es : List Expr) : outlines es = es.map outline := by
  induction es with
  | nil => rfl
  | cons e es ih => rw [outlines, ih, List.map_cons]

theorem outline_grouped (e : Expr) : e.grouped.outline = e.outline := by
  cases e <;> simp [grouped, outline]

theorem outline_ne_element (e : Expr) : e.outline.kind ≠ .jsxElement := by
  cases e <;> simp [outline, Outline.kind]

def Stands (E : Rule Expr) : Prop := ∀ {ts next e}, E ts next e → InTurn ts [e.outline]

theorem Arguments.inTurn (hE : Stands E) {close : Span} (h : Arguments E ts next (args, close)) :
    InTurn ts (outlines args) := by
  cases h with
  | @mk o us close _ _ _ hs _ =>
    rw [outlines_eq_map]
    exact (hs.inTurn hE).mono ⟨[o], [close], rfl⟩

theorem Arguments.spanned {s close : Span} (h : Arguments E ts next (args, close))
    (hspan : Spanned us s) (mid : List Token) : Spanned (us ++ mid ++ ts) (s.join close) := by
  cases h with
  | @mk o vs close _ _ _ _ hc =>
    have hclose : Spanned [close] close.span := .single (isSolid_of_punct hc)
    simpa using hspan.append hclose (mid ++ o :: vs)

theorem Head.occupies (hE : Stands E) (h : Head E ts next e) : Occupies ts e.outline := by
  cases h with
  | identifier ht _ | instanceVar ht _ => exact .leaf rfl (.single (isSolid_of_eq ht rfl))
  | @call t _ us _ _ close ht ha | @instanceCall t _ us _ _ close ht ha =>
    have hspan : Spanned (t :: us) (t.span.join close) :=
      ha.spanned (.single (isSolid_of_eq ht rfl)) []
    exact .node rfl hspan ((ha.inTurn hE).after [t])

theorem accessed_occupies (hbase : Occupies us base.outline) (hpart : us <:+: ts)
    (hnil : properties = [] → us = ts) (hspan : Spanned ts (start.join last)) :
    Occupies ts (base.accessed start last properties).outline := by
  cases properties with
  | nil =>
    rw [← hnil rfl]
    cases base <;> exact hbase
  | cons name properties =>
    have hchild : InTurn ts [base.outline] := hbase.inTurn.mono hpart
    cases base with
    | instanceVar name s => exact .leaf rfl hspan
    | _ => exact .node rfl hspan hchild

/-- The tokens `hs` have been passed, of which `us` make up the base and the rest its properties. -/
theorem Chain.occupies (hE : Stands E) (h : Chain E start last base properties ts next e)
    {hs : List Token} (hbase : Occupies us base.outline) (hpart : us <:+: hs)
    (hnil : properties = [] → us = hs) (hspan : Spanned hs (start.join last)) :
    Occupies (hs ++ ts) e.outline := by
  induction h generalizing us hs with
  | stop _ =>
    rw [List.append_nil]
    exact accessed_occupies hbase hpart hnil hspan
  | @property last base properties dot word name vs next e hd hw _ _ ih =>
    have hgrown : Spanned (hs ++ [dot] ++ [word]) (start.join word.span) :=
      hspan.append (.single (isSolid_of_name? hw)) [dot]
    rw [List.append_assoc] at hgrown
    have hstill : us <:+: hs ++ [dot, word] := hpart.trans ⟨[], [dot, word], rfl⟩
    have hrest := @ih us (hs ++ [dot, word]) hbase hstill (by simp) hgrown
    rwa [List.append_assoc] at hrest
  | @call last base properties dot word name vs ws next args close e hd hw ha _ ih =>
    have hgrown : Spanned (hs ++ [dot] ++ [word]) (start.join word.span) :=
      hspan.append (.single (isSolid_of_name? hw)) [dot]
    have hcall : Spanned (hs ++ [dot, word] ++ vs) (start.join close) :=
      ha.spanned hspan [dot, word]
    -- An object that is a property runs on to the name of the method, and any other one is the
    -- base.
    have hobject : InTurn (hs ++ [dot, word])
        [(base.accessed start word.span properties).outline] := by
      rw [List.append_cons hs]
      cases properties with
      | nil => exact hbase.inTurn.mono (hpart.trans ⟨[], [dot, word], by simp⟩)
      | cons name properties =>
        exact (accessed_occupies hbase (hpart.trans ⟨[], [dot, word], by simp⟩) (by simp)
          hgrown).inTurn
    have hmethod : Occupies (hs ++ [dot, word] ++ vs)
        (methodCall (base.accessed start word.span properties) name args
          (start.join close)).outline :=
      .node rfl hcall (hobject.append (ha.inTurn hE))
    have hrest := ih hmethod List.infix_rfl (fun _ => rfl) hcall
    simpa using hrest

theorem Operand.occupies_or_grouped (hE : Stands E) (h : Operand E ts next e) :
    Occupies ts e.outline ∨
      ((ts.headD next).lexeme = .punct .openParen ∧ InTurn ts [e.outline]) := by
  cases h with
  | @atom t make _ ht =>
    have hspan : Spanned [t] t.span :=
      .single (Lexeme.isSolid_of_startsOperand (startsOperand_of_atom? ht))
    unfold atom? at ht
    split at ht <;> cases ht <;> exact .inl (.leaf rfl hspan)
  | chain hh hc =>
    have hhead := hh.occupies hE
    refine .inl (hc.occupies hE hhead List.infix_rfl (fun _ => rfl) ?_)
    rw [Span.join_self, ← span_outline]
    exact hhead.spanned (outline_ne_element _)
  | @new t word _ _ ht hw _ =>
    have hspan : Spanned [t, word] (t.span.join word.span) :=
      (Spanned.single (isSolid_of_eq ht rfl)).append (.single (isSolid_of_eq hw rfl)) []
    exact .inl (.leaf rfl hspan)
  | @newWith t word _ us _ args close ht hw ha =>
    have hspan : Spanned (t :: word :: us) (t.span.join close) :=
      ha.spanned (.single (isSolid_of_eq ht rfl)) [word]
    exact .inl (.node rfl hspan ((ha.inTurn hE).after [t, word]))
  | @group o us close _ _ ho he _ =>
    rw [outline_grouped]
    exact .inr ⟨ho, (hE he).mono ⟨[o], [close], rfl⟩⟩
  | @negative minus t _ _ hm ht _ =>
    have hspan : Spanned [minus, t] (minus.span.join t.span) :=
      (Spanned.single (isSolid_of_punct hm)).append (.single (isSolid_of_eq ht rfl)) []
    exact .inl (.leaf rfl hspan)

theorem Operand.inTurn (hE : Stands E) (h : Operand E ts next e) : InTurn ts [e.outline] :=
  (h.occupies_or_grouped hE).elim Occupies.inTurn And.right

theorem Operand.occupies (hE : Stands E) (h : Operand E ts next e)
    (hopen : (ts.headD next).lexeme ≠ .punct .openParen) : Occupies ts e.outline :=
  (h.occupies_or_grouped hE).resolve_right fun hgroup => hopen hgroup.1

theorem binary_inTurn {left right : Expr} {operator : String} {vs : List Token}
    (hleft : InTurn us [left.outline]) (hright : InTurn vs [right.outline]) :
    InTurn (us ++ vs) [(binary left operator right false (left.span.join right.span)).outline] := by
  rw [← span_outline left, ← span_outline right]
  refine (hleft.append hright).around rfl (List.forall_mem_cons.2 ⟨outline_ne_element _, ?_⟩)
  exact List.forall_mem_singleton.2 (outline_ne_element _)

theorem Expression.inTurn (h : Expression ts next e) : InTurn ts [e.outline] := by
  induction h with
  | of _ h ih =>
    cases h with
    | operand ho _ => exact ho.inTurn ih
    | @binary us op _ vs _ _ _ ho _ _ he => exact binary_inTurn (ho.inTurn ih) ((ih he).after [op])

end Expr

theorem Tidy.part {tokens ts : List Token} (h : Tidy tokens) (hpart : ts <:+: tokens) :
    Tidy ts := by
  obtain ⟨before, after, rfl⟩ := hpart
  exact h.left.right

/-! ### Markup -/

section Markup

variable {tokens ts us : List Token} {t next prev : Token} {kind : NodeKind} {start span : Span}
  {children : List Outline}

@[simp] theorem Markup.outlines_eq_map (ms : List Markup) : outlines ms = ms.map outline := by
  induction ms with
  | nil => rfl
  | cons m ms ih => rw [outlines, ih, List.map_cons]

@[simp] theorem ElementOf.kind_outline (e : Element) : e.outline.kind = .jsxElement := by
  cases e
  rfl

theorem Markup.Makes.occupies {m : Markup} (h : Makes ts m) (hs : Solid ts) :
    Occupies ts m.outline := by
  cases h with
  | interpolation _ => exact .leaf rfl (.single (hs _ List.mem_cons_self))
  | text _ => exact .leaf rfl (.of_solid hs)

theorem Markup.ofTokens_inTurn (hs : Solid ts) : InTurn ts ((ofTokens ts).map outline) := by
  obtain ⟨runs, hflatten, hmakes, -⟩ := ofTokens_divided ts
  generalize ofTokens ts = content at hmakes
  subst hflatten
  induction hmakes with
  | nil => exact .nil
  | cons hm _ ih =>
    obtain ⟨hrun, hs⟩ := List.forall_mem_append.1 hs
    exact (hm.occupies hrun).inTurn.append (ih hs)

theorem AttributeItems.inTurn {as : List Attribute} (h : AttributeItems ts next as) :
    InTurn ts (as.map Attribute.outline) := by
  induction h with
  | nil => exact .nil
  | @cons us _ _ a _ ha _ ih =>
    have hfirst : InTurn us [a.outline] := by
      cases ha with
      | @mk ws equal vs comma _ _ _ _ _ hv _ => exact hv.inTurn.mono ⟨ws ++ [equal], comma, by simp⟩
    exact hfirst.append ih

theorem AttributeList.inTurn {as : List Attribute} (h : AttributeList prev ts next as) :
    InTurn ts (as.map Attribute.outline) := by
  cases h with
  | none _ => exact .nil
  | @some o us close _ _ _ hs _ => exact hs.inTurn.mono ⟨[o], [close], rfl⟩

theorem ElementRule.inTurn {e : Element} (htidy : Tidy tokens) (h : ElementRule ts next e)
    (hts : ts <:+: tokens) : InTurn ts [e.outline] := by
  induction h with
  | of _ h ih =>
    cases h with
    | @mk t tag us vs ws xs _ _ attributes elements ht hc ha hr hb =>
      have hhead : Solid (t :: us ++ vs) :=
        .append (.cons (isSolid_of_eq ht rfl) hc.solid) ha.solid
      -- The line has begun, so layout tokens come after its newline only.
      have hrest : Solid ws := (htidy.part hts).left.solid_of_solid hhead (by simp) hr
      have hline : Solid (t :: (us ++ vs ++ ws)) := hhead.append hrest
      have hblock : xs <:+: tokens := .trans ⟨t :: us ++ vs ++ ws, [], by simp⟩ hts
      have helements : InTurn xs (elements.map ElementOf.outline) :=
        hb.inTurn_map fun hpart he => ih he (hpart.trans hblock)
      have hcontent : InTurn (t :: (us ++ vs ++ ws))
          (attributes.map Attribute.outline ++ (Markup.ofTokens ws).map Markup.outline) := by
        rw [List.append_assoc]
        exact (ha.inTurn.append (Markup.ofTokens_inTurn hrest)).after (t :: us)
      have hchildren : attributes.map Attribute.outline ++
          Markup.outlines (Markup.ofTokens ws ++ elements.map .element) =
          attributes.map Attribute.outline ++ (Markup.ofTokens ws).map Markup.outline ++
            elements.map ElementOf.outline := by
        rw [Markup.outlines_eq_map, List.map_append, List.map_map, List.append_assoc]
        rfl
      have helement := Occupies.element (.of_solid hline) hcontent helements
        (List.forall_mem_map.2 fun e _ => e.kind_outline)
      rw [← hchildren] at helement
      exact helement.inTurn

theorem Closing.spanned (h : Closing t.span ts next span) (ht : t.lexeme.isSolid = true)
    (us : List Token) : ∃ ws le, ts = ws ++ le ∧ Spanned (t :: us ++ ws) span := by
  cases h with
  | @mk ns e le _ _ he _ =>
    have hend : Spanned [e] e.span := .single (isSolid_of_eq he rfl)
    exact ⟨ns ++ [e], le, by simp, by simpa using (Spanned.single ht).append hend (us ++ ns)⟩

theorem Closing.inTurn (hkind : kind.isPlain = true) (h : Closing t.span ts next span)
    (ht : t.lexeme.isSolid = true) (hchildren : InTurn us children) :
    InTurn (t :: us ++ ts) [.node kind span children] := by
  obtain ⟨ws, le, rfl, hspan⟩ := h.spanned ht us
  have hall : InTurn (t :: us ++ ws) children := hchildren.mono ⟨[t], ws, rfl⟩
  exact (Occupies.node hkind hspan hall).inTurn.mono ⟨[], le, by simp⟩

theorem RenderRule.inTurn {r : RenderBlock} (htidy : Tidy tokens) (h : RenderRule ts next r)
    (hts : ts <:+: tokens) : InTurn ts [r.outline] := by
  cases h with
  | @mk t us vs _ _ _ ht hb hc =>
    have hblock : us <:+: tokens := .trans ⟨[t], vs, by simp⟩ hts
    refine hc.inTurn rfl (isSolid_of_eq ht rfl) (hb.inTurn_map fun hpart he => ?_)
    exact he.inTurn htidy (hpart.trans hblock)

theorem StyleBlockRule.inTurn {b : StyleBlock} (h : StyleBlockRule ts next b) :
    InTurn ts [b.outline] := by
  have hdeclaration {ts : List Token} {next : Token} {d : StyleDeclaration}
      (h : StyleDeclarationRule ts next d) : InTurn ts [d.value.outline] := by
    cases h with
    | @mk us colon vs le _ _ _ _ _ hv _ => exact hv.inTurn.mono ⟨us ++ [colon], le, by simp⟩
  have hrule {ts : List Token} {next : Token} {r : StyleRule} (h : StyleRuleRule ts next r) :
      InTurn ts (r.declarations.map fun d => d.value.outline) := by
    cases h with
    | @mk dot us vs _ _ _ _ _ hb =>
      exact (hb.inTurn_map fun _ hd => hdeclaration hd).after (dot ++ us)
  cases h with
  | mk ht hb hc =>
    exact hc.inTurn rfl (isSolid_of_eq ht rfl) (hb.inTurn_flatMap fun _ hr => hrule hr)

theorem EntryRule.inTurn {e : Entry} (hkind : kind.isPlain = true) (h : EntryRule ts next e) :
    InTurn ts [e.outline kind] := by
  cases h with
  | @mk t colon u vs le _ _ _ value ht hc hu hv _ =>
    have hline : Solid (t :: colon :: u :: vs) :=
      .cons (isSolid_of_eq ht rfl)
        (.cons (isSolid_of_punct hc) (.cons (isSolid_of_eq hu rfl) hv.solid))
    have hspan : Spanned (t :: colon :: u :: vs) (t.span.join (vs.getLastD u).span) := by
      have hall := Spanned.of_solid hline
      rwa [List.getLastD_cons, List.getLastD_cons] at hall
    have hvalue : InTurn vs (value.map Expr.outline).toList := by
      cases hv with
      | none _ => exact .nil
      | some _ he => exact he.inTurn.after [_]
    exact (Occupies.node hkind hspan (hvalue.after [t, colon, u])).inTurn.mono ⟨[], le, rfl⟩

theorem EntryBlock.inTurn {k : Keyword} {entries : List Entry} (hkind : kind.isPlain = true)
    (h : EntryBlock k ts next entries) : InTurn ts (entries.map (Entry.outline kind)) := by
  cases h with
  | @mk t us vs _ _ _ _ hb _ =>
    exact (hb.inTurn_map fun _ he => he.inTurn hkind).mono ⟨[t], vs, rfl⟩

end Markup

/-! ### Statements -/

namespace Stmt

@[simp] theorem outlines_eq_map (ss : List Stmt) : outlines ss = ss.map outline := by
  induction ss with
  | nil => rfl
  | cons s ss ih => rw [outlines, ih, List.map_cons]

@[simp] theorem functionOutlines_eq_map (fs : List FunctionDecl) :
    functionOutlines fs = fs.map functionOutline := by
  induction fs with
  | nil => rfl
  | cons f fs ih => rw [functionOutlines, ih, List.map_cons]

@[simp] theorem span_outline (s : Stmt) : s.outline.span = s.span := by
  cases s with
  | function f | classDecl f | component f =>
    cases f
    rfl
  | expr e => exact e.span_outline
  | _ => rfl

theorem outline_ne_element (s : Stmt) : s.outline.kind ≠ .jsxElement := by
  cases s with
  | function f | classDecl f | component f =>
    cases f
    simp [outline, functionOutline, Outline.kind]
  | expr e => exact e.outline_ne_element
  | _ => simp [outline, Outline.kind]

end Stmt

section Statements

variable {S : Place → Rule Stmt} {R : Rule Stmt} {place : Place} {tokens ts us pre : List Token}
  {t next : Token} {s : Stmt} {e : Expr} {kind : NodeKind}

def Stmt.Stands (tokens : List Token) (R : Rule Stmt) : Prop :=
  ∀ {ts next s}, R ts next s → ts <:+: tokens → InTurn ts [s.outline]

theorem Stmt.give_inTurn (h : InTurn ts [e.outline]) :
    InTurn ts [(Stmt.give (some e) e.span).outline] := by
  rw [← Expr.span_outline]
  exact h.around rfl (List.forall_mem_singleton.2 e.outline_ne_element)

theorem FunctionOf.giveCall_inTurn {body : List Stmt} (h : InTurn ts (Stmt.outlines body)) :
    InTurn ts (Stmt.outlines (giveCall body)) := by
  unfold giveCall
  split
  · exact Stmt.give_inTurn h
  · exact h

theorem Block.inTurn_outlines {body : List Stmt} (hR : Stmt.Stands tokens R)
    (hts : ts <:+: tokens) (h : Block (Appends R) [] ts next body) :
    InTurn ts (Stmt.outlines body) := by
  rw [Stmt.outlines_eq_map]
  exact h.inTurn_map fun hpart hs => hR hs (hpart.trans hts)

theorem FunctionLevel.inTurn {f : FunctionDecl} (hS : ∀ place, Stmt.Stands tokens (S place))
    (hts : ts <:+: tokens) (h : FunctionLevel S ts next f) :
    InTurn ts [Stmt.functionOutline f] := by
  cases h with
  | @mk d t us vs ws xs _ _ _ _ body _ hd _ _ _ hb hc =>
    have hblock : ws <:+: tokens := .trans ⟨d :: t :: us ++ vs, xs, by simp⟩ hts
    have hbody := FunctionOf.giveCall_inTurn (hb.inTurn_outlines (hS _) hblock)
    exact hc.inTurn rfl (isSolid_of_eq hd rfl) (hbody.after (t :: us ++ vs))

theorem ClassLevel.inTurn {c : ClassDecl} (hS : ∀ place, Stmt.Stands tokens (S place))
    (hts : ts <:+: tokens) (h : ClassLevel S ts next c) :
    InTurn ts [(Stmt.classDecl c).outline] := by
  cases h with
  | @mk k t us vs _ _ members _ hk _ hb hc =>
    have hblock : us <:+: tokens := .trans ⟨[k, t], vs, by simp⟩ hts
    obtain ⟨os, hos, hmethods⟩ := hb.inTurn
      (R := fun members os members' =>
        Stmt.functionOutlines members'.2 = Stmt.functionOutlines members.2 ++ os)
      (fun _ => (List.append_nil _).symm)
      (fun h h' => by rw [h', h, List.append_assoc])
      (fun hpart hm => by
        cases hm with
        | property _ _ _ _ => exact ⟨[], (List.append_nil _).symm, .nil⟩
        | method hf =>
          refine ⟨_, ?_, hf.inTurn hS (hpart.trans hblock)⟩
          simp only [Stmt.functionOutlines_eq_map, List.map_append, List.map_singleton])
    rw [Stmt.functionOutlines, List.nil_append] at hos
    rw [← hos] at hmethods
    exact hc.inTurn rfl (isSolid_of_eq hk rfl) (hmethods.after [t])

theorem Elsifs.inTurn {elsifs : List Elsif} (hR : Stmt.Stands tokens R)
    (hts : ts <:+: tokens) (h : Elsifs R ts next elsifs) :
    InTurn ts (Stmt.elsifOutlines elsifs) := by
  induction h with
  | nil _ _ _ => exact .nil
  | @cons ns t us vs ws _ _ _ _ _ _ he hb _ ih =>
    have hblock : vs <:+: tokens := .trans ⟨ns ++ t :: us, ws, by simp⟩ hts
    have hrest : ws <:+: tokens := .trans ⟨ns ++ t :: us ++ vs, [], by simp⟩ hts
    have hcondition := (he.inTurn.after [t]).after ns
    exact (hcondition.append (hb.inTurn_outlines hR hblock)).append (ih hrest)

theorem Otherwise.inTurn {r : Bool × List Stmt} (hR : Stmt.Stands tokens R)
    (hts : ts <:+: tokens) (h : Otherwise R ts next r) : InTurn ts (Stmt.outlines r.2) := by
  cases h with
  | none _ => exact .nil
  | @some t us _ _ _ hb => exact (hb.inTurn_outlines hR (.trans ⟨[t], [], by simp⟩ hts)).after [t]

theorem BranchLevel.inTurn (hR : Stmt.Stands tokens R) (hts : ts <:+: tokens)
    (h : BranchLevel R ts next s) : InTurn ts [s.outline] := by
  cases h with
  | @mk t us vs ws xs ys _ _ _ _ _ _ _ ht he hb hs ho hc =>
    have hbody : vs <:+: tokens := .trans ⟨t :: us, ws ++ xs ++ ys, by simp⟩ hts
    have helsifs : ws <:+: tokens := .trans ⟨t :: us ++ vs, xs ++ ys, by simp⟩ hts
    have hotherwise : xs <:+: tokens := .trans ⟨t :: us ++ vs ++ ws, ys, by simp⟩ hts
    have hfirst := he.inTurn.append (hb.inTurn_outlines hR hbody)
    have hchildren := (hfirst.append (hs.inTurn hR helsifs)).append (ho.inTurn hR hotherwise)
    exact hc.inTurn rfl (isSolid_of_eq ht rfl) hchildren

theorem Valued.inTurn {make : Expr → Span → Stmt} (pre : List Token) (kind : NodeKind)
    (front : List Outline) (hkind : kind.isPlain = true)
    (hmake : ∀ e span, (make e span).outline = .node kind span (front ++ [e.outline]))
    (hhead : (pre ++ ts).head? = some t) (ht : t.lexeme.isSolid = true)
    (hfront : InTurn pre front) (h : Valued t.span make ts next s) : InTurn (pre ++ ts)
    [s.outline] := by
  cases h with
  | @mk _ _ e he =>
    rw [hmake, ← Expr.span_outline]
    exact hfront.reach he.inTurn hkind e.outline_ne_element hhead ht

theorem Valued.assignProperty_inTurn {object : Expr} {properties : List String} {target : Span}
    {equal : Token} (hhead : pre.head? = some t) (ht : t.lexeme.isSolid = true)
    (haccess : InTurn pre [.node .propertyAccess target [object.outline]])
    (h : Valued t.span (.assignProperty object properties target) ts next s) :
    InTurn (pre ++ equal :: ts) [s.outline] := by
  rw [List.append_cons]
  exact h.inTurn _ .propertyAssignment [_] rfl (fun _ _ => rfl) (by simp [hhead]) ht
    (haccess.append .nil)

theorem Access.inTurn (ht : t.lexeme.isSolid = true) (hhead : ts.head? = some t)
    (h : Access place t.span ts next s) : InTurn ts [s.outline] := by
  cases h with
  | @mk us vs _ target _ ho htail =>
    have htarget := ho.inTurn Expr.Expression.inTurn
    cases htail with
    | expr =>
      rw [List.append_nil]
      exact htarget
    | assign _ hv =>
      obtain ⟨u, us, rfl⟩ := List.exists_cons_of_ne_nil ho.starts.ne_nil
      exact hv.assignProperty_inTurn hhead ht htarget
    | give _ _ _ he => exact Stmt.give_inTurn (Expr.binary_inTurn htarget (he.inTurn.after [_]))

theorem Sentence.inTurn (h : Sentence place ts next s) : InTurn ts [s.outline] := by
  have htext {l : Lexeme} (h : l.isText = true) : l.isSolid = true := by
    cases l <;> first | rfl | cases h
  have hvalue {t : Token} {pre ts : List Token} {make : Expr → Span → Stmt} {kind : NodeKind}
      (ht : t.lexeme.isSolid = true) (hhead : (pre ++ ts).head? = some t)
        (hkind : kind.isPlain = true)
      (hmake : ∀ e span, (make e span).outline = .node kind span [e.outline])
      (h : Valued t.span make ts next s) : InTurn (pre ++ ts) [s.outline] :=
    h.inTurn pre kind [] hkind hmake hhead ht .nil
  cases h with
  | @print t _ _ _ ht hv | @give t _ _ _ ht hv =>
    exact @hvalue t [t] _ _ _ (isSolid_of_eq ht rfl) rfl rfl (fun _ _ => rfl) hv
  | giveNothing ht
  | bareCall _ ht => exact (Occupies.leaf rfl (.single (isSolid_of_eq ht rfl))).inTurn
  | @text t _ _ _ ht hv => exact @hvalue t [] _ _ _ (htext ht) rfl rfl (fun _ _ => rfl) hv
  | @assign t equal _ _ _ _ ht _ hv | @assignInstanceVar t equal _ _ _ _ ht _ hv =>
    exact @hvalue t [t, equal] _ _ _ (isSolid_of_eq ht rfl) rfl rfl (fun _ _ => rfl) hv
  | access ht _ ha => exact ha.inTurn (isSolid_of_eq ht rfl) rfl
  | implicitGive _ _ _ _ he => exact Stmt.give_inTurn he.inTurn
  | instanceCall _ _ ho _ => exact ho.inTurn Expr.Expression.inTurn
  | @instanceProperty t us _ _ _ _ _ _ target _ ht _ ho _ hv =>
    have hsolid := isSolid_of_eq ht rfl
    -- The access is a node of its own here, around the variable that the operand starts with.
    have haccess : Occupies (t :: us) (.node .instanceVarAccess target []) :=
      ho.occupies Expr.Expression.inTurn (by simp [ht])
    have hvar : Occupies [t] (.node .instanceVar t.span []) := .leaf rfl (.single hsolid)
    exact hv.assignProperty_inTurn rfl hsolid
      (Occupies.node rfl (haccess.spanned (by simp [Outline.kind]))
        (hvar.inTurn.mono ⟨[], us, rfl⟩)).inTurn

end Statements

/-! ### Components -/

namespace Outline

variable {k k' : NodeKind} {os os' : List Outline}

@[simp] theorem ofKind_append : ofKind k (os ++ os') = ofKind k os ++ ofKind k os' :=
  List.filter_append ..

theorem ofKind_eq_self (h : ∀ o ∈ os, o.kind = k) : ofKind k os = os :=
  List.filter_eq_self.2 fun o ho => beq_iff_eq.2 (h o ho)

theorem ofKind_eq_nil (h : ∀ o ∈ os, o.kind = k') (hne : k ≠ k') : ofKind k os = [] :=
  List.filter_eq_nil_iff.2 fun o ho heq => hne ((beq_iff_eq.1 heq).symm.trans (h o ho))

end Outline

namespace Stmt

def componentPart (c : ComponentDecl) : NodeKind → List Outline
  | .propDeclaration => c.props.map (Entry.outline .propDeclaration)
  | .stateDeclaration => c.state.map (Entry.outline .stateDeclaration)
  | .functionDeclaration => functionOutlines c.methods
  | .renderBlock => (c.render.map RenderBlock.outline).toList
  | .styleBlock => (c.style.map StyleBlock.outline).toList
  | _ => []

theorem outline_component (c : ComponentDecl) :
    (Stmt.component c).outline =
      .node .componentDeclaration c.span (memberKinds.flatMap (componentPart c)) := by
  cases c
  simp [outline, memberKinds, componentPart]

@[simp] theorem kind_functionOutline (f : FunctionDecl) :
    (functionOutline f).kind = .functionDeclaration := by
  cases f
  rfl

/-- A component gains nodes: those of each kind come after the ones that it had of that kind. -/
structure Gains (c : ComponentDecl) (os : List Outline) (c' : ComponentDecl) : Prop where
  kinds : ∀ o ∈ os, o.kind ∈ memberKinds
  parts : ∀ k, componentPart c' k = componentPart c k ++ ofKind k os

namespace Gains

variable {c c₁ c' : ComponentDecl} {os os' : List Outline}

theorem none (c : ComponentDecl) : Gains c [] c :=
  ⟨fun _ ho => absurd ho List.not_mem_nil, fun _ => (List.append_nil _).symm⟩

theorem append (h : Gains c os c₁) (h' : Gains c₁ os' c') : Gains c (os ++ os') c' where
  kinds := List.forall_mem_append.2 ⟨h.kinds, h'.kinds⟩
  parts k := by rw [h'.parts, h.parts, Outline.ofKind_append, List.append_assoc]

theorem one (kind : NodeKind) (hmem : kind ∈ memberKinds) (hos : ∀ o ∈ os, o.kind = kind)
    (hpart : componentPart c' kind = componentPart c kind ++ os)
    (hother : ∀ k, k ≠ kind → componentPart c' k = componentPart c k) : Gains c os c' where
  kinds o ho := by rwa [hos o ho]
  parts k := by
    by_cases hk : k = kind
    · rw [hk, hpart, Outline.ofKind_eq_self hos]
    · rw [hother k hk, Outline.ofKind_eq_nil hos hk, List.append_nil]

end Gains

end Stmt

section Components

variable {S : Place → Rule Stmt} {place : Place} {tokens ts : List Token} {next : Token} {s : Stmt}

theorem ComponentMember.inTurn {c c' : ComponentDecl} (htidy : Tidy tokens)
    (hS : ∀ place, Stmt.Stands tokens (S place)) (hts : ts <:+: tokens)
    (h : ComponentMember S c ts next c') : ∃ os, Stmt.Gains c os c' ∧ InTurn ts os := by
  have hentries {kind : NodeKind} {entries : List Entry} :
      ∀ o ∈ entries.map (Entry.outline kind), o.kind = kind :=
    List.forall_mem_map.2 fun _ _ => rfl
  cases h with
  | props he =>
    refine ⟨_, .one .propDeclaration (by decide) hentries List.map_append ?_, he.inTurn rfl⟩
    intro k hk
    cases k <;> first | rfl | exact absurd rfl hk
  | state he =>
    refine ⟨_, .one .stateDeclaration (by decide) hentries List.map_append ?_, he.inTurn rfl⟩
    intro k hk
    cases k <;> first | rfl | exact absurd rfl hk
  | method hf =>
    refine ⟨_, .one .functionDeclaration (by decide) ?_ ?_ ?_, hf.inTurn hS hts⟩
    · exact List.forall_mem_singleton.2 (Stmt.kind_functionOutline _)
    · simp [Stmt.componentPart, Stmt.functionOutlines_eq_map]
    · intro k hk
      cases k <;> first | rfl | exact absurd rfl hk
  | render hnone hr =>
    refine ⟨_, .one .renderBlock (by decide) ?_ ?_ ?_, hr.inTurn htidy hts⟩
    · exact List.forall_mem_singleton.2 rfl
    · simp [Stmt.componentPart, hnone]
    · intro k hk
      cases k <;> first | rfl | exact absurd rfl hk
  | style hnone hs =>
    refine ⟨_, .one .styleBlock (by decide) ?_ ?_ ?_, hs.inTurn⟩
    · exact List.forall_mem_singleton.2 rfl
    · simp [Stmt.componentPart, hnone]
    · intro k hk
      cases k <;> first | rfl | exact absurd rfl hk

theorem ComponentLevel.inTurn {c : ComponentDecl} (htidy : Tidy tokens)
    (hS : ∀ place, Stmt.Stands tokens (S place)) (hts : ts <:+: tokens)
    (h : ComponentLevel S ts next c) : InTurn ts [(Stmt.component c).outline] := by
  cases h with
  | @mk k t us vs _ name c span hk _ hb hc =>
    have hblock : us <:+: tokens := .trans ⟨[k, t], vs, by simp⟩ hts
    obtain ⟨members, hgains, hmembers⟩ := hb.inTurn Stmt.Gains.none Stmt.Gains.append
      fun hpart hm => hm.inTurn htidy hS (hpart.trans hblock)
    have hparts : Stmt.componentPart { c with span := span } = fun k => ofKind k members := by
      funext k
      refine .trans ?_ ((hgains.parts k).trans ?_) <;> cases k <;> rfl
    rw [Stmt.outline_component, hparts]
    obtain ⟨ws, le, rfl, hspan⟩ := hc.spanned (isSolid_of_eq hk rfl) (t :: us)
    have hall : InTurn (k :: (t :: us) ++ ws) members := hmembers.mono ⟨[k, t], ws, rfl⟩
    exact (Occupies.component hspan hall hgains.kinds).inTurn.mono ⟨[], le, by simp⟩

theorem StatementRule.inTurn (htidy : Tidy tokens) (h : StatementRule place ts next s)
    (hts : ts <:+: tokens) : InTurn ts [s.outline] := by
  induction h with
  | of _ h ih =>
    have hS := fun place => @ih place
    cases h with
    | function hf => exact hf.inTurn hS hts
    | classDecl hc => exact hc.inTurn hS hts
    | component _ hc => exact hc.inTurn htidy hS hts
    | branch hb => exact hb.inTurn (hS _) hts
    | sentence hl => cases hl with | mk hs _ => exact hs.inTurn.append .nil

end Components

/-! ### Programs -/

theorem Statements.inTurn {tokens ts : List Token} {next : Token} {body : List Stmt}
    (htidy : Tidy tokens) (h : Statements ts next body) (hts : ts <:+: tokens) :
    InTurn ts (Stmt.outlines body) := by
  induction h with
  | nil _ => exact .nil
  | @cons us ns vs _ s body hs _ _ ih =>
    have hfirst := hs.inTurn htidy (.trans ⟨[], ns ++ vs, by simp⟩ hts)
    have hspaced : InTurn (us ++ ns) [s.outline] := hfirst.append .nil
    exact hspaced.append (ih (.trans ⟨us ++ ns, [], by simp⟩ hts))

@[simp] theorem Program.span_cons (s : Stmt) (body : List Stmt) :
    (Program.mk (s :: body)).span = s.span.join (body.getLastD s).span := by
  simp [Program.span, List.getLast?_cons]

theorem Statements.program_inTurn {tokens ts : List Token} {next : Token} {body : List Stmt}
    (htidy : Tidy tokens) (h : Statements ts next body) (hts : ts <:+: tokens) (hne : body ≠ []) :
    InTurn ts [(Program.mk body).outline] := by
  obtain ⟨s, body, rfl⟩ := List.exists_cons_of_ne_nil hne
  have hspan : (Program.mk (s :: body)).span =
      s.outline.span.join ((Stmt.outlines body).getLastD s.outline).span := by
    rw [Program.span_cons, Stmt.outlines_eq_map, List.getLastD_map, Stmt.span_outline,
      Stmt.span_outline]
  have hkinds : ∀ c ∈ Stmt.outlines (s :: body), c.kind ≠ .jsxElement := by
    rw [Stmt.outlines_eq_map]
    exact List.forall_mem_map.2 fun s _ => s.outline_ne_element
  rw [Program.outline, hspan]
  exact (h.inTurn htidy hts).around rfl hkinds

theorem Statements.stands {tokens ts : List Token} {next : Token} {body : List Stmt}
    (htidy : Tidy tokens) (h : Statements ts next body) (hts : ts <:+: tokens) (hne : body ≠ []) :
    (Program.mk body).outline.StandsIn tokens ts :=
  (h.program_inTurn htidy hts hne).standsIn hts _ List.mem_cons_self

end LayoutScript

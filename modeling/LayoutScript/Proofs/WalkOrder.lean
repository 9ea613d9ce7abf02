import LayoutScript.Proofs.SpanNesting

/-! In what order a walk visits the nodes of a tree. It follows the text but for the members of a
component, which are listed kind by kind. They are in order exactly if the text has them in the
order of the kinds, and the walk is exactly if those of every component are. -/
namespace LayoutScript

namespace Outline

/-- Nodes that start one after another, or at the same place. -/
def InOrder (os : List Outline) : Prop := os.Pairwise fun a b => a.span.start ≤ b.span.start

def StrictlyInOrder (os : List Outline) : Prop := os.Pairwise fun a b => a.span.start < b.span.start

instance (os : List Outline) : Decidable (InOrder os) := inferInstanceAs (Decidable (os.Pairwise _))

def memberRank (o : Outline) : Nat := memberKinds.idxOf o.kind

def RankOrdered (os : List Outline) : Prop := os.Pairwise fun a b => memberRank a ≤ memberRank b

/-! ### Members kind by kind -/

section ByKind

variable {kinds : List NodeKind} {os members children : List Outline}

theorem flatMap_ofKind_perm (hkinds : kinds.Nodup) (h : ∀ o ∈ os, o.kind ∈ kinds) :
    (kinds.flatMap fun k => ofKind k os).Perm os := by
  induction kinds generalizing os with
  | nil =>
    obtain rfl := List.eq_nil_iff_forall_not_mem.2 fun o ho => List.not_mem_nil (h o ho)
    exact .nil
  | cons k kinds ih =>
    obtain ⟨hk, hkinds⟩ := List.nodup_cons.1 hkinds
    let others := os.filter fun o => !(o.kind == k)
    have hothers : ∀ o ∈ others, o.kind ∈ kinds := fun o ho => by
      obtain ⟨hmem, hne⟩ := List.mem_filter.1 ho
      exact (List.mem_cons.1 (h o hmem)).resolve_left (by simpa using hne)
    have hsame : ∀ k' ∈ kinds, ofKind k' os = ofKind k' others := fun k' hk' => by
      have hne : k' ≠ k := fun heq => hk (heq ▸ hk')
      rw [ofKind, ofKind, List.filter_filter]
      refine List.filter_congr fun o _ => ?_
      by_cases ho : o.kind = k' <;> simp [ho, hne]
    rw [List.flatMap_cons, List.flatMap_def, List.map_congr_left hsame, ← List.flatMap_def]
    exact ((ih hkinds hothers).append_left _).trans (List.filter_append_perm _ os)

theorem byKind_perm (h : ∀ o ∈ members, o.kind ∈ memberKinds) : (byKind members).Perm members :=
  flatMap_ofKind_perm (by decide) h

theorem byKind_pairwise (h : StrictlyInOrder members) :
    (byKind members).Pairwise fun a b =>
      memberRank a < memberRank b ∨ memberRank a = memberRank b ∧ a.span.start < b.span.start := by
  have hkind {k : NodeKind} {o : Outline} (ho : o ∈ ofKind k members) : o.kind = k :=
    beq_iff_eq.1 (List.mem_filter.1 ho).2
  refine List.pairwise_flatMap.2 ⟨fun k _ => ?_, ?_⟩
  · refine (h.sublist List.filter_sublist).imp_of_mem fun ha hb hlt => .inr ⟨?_, hlt⟩
    rw [memberRank, memberRank, hkind ha, hkind hb]
  · have hranks : memberKinds.Pairwise fun k k' =>
        memberKinds.idxOf k < memberKinds.idxOf k' := by decide
    refine hranks.imp fun hlt a ha b hb => .inl ?_
    rwa [memberRank, memberRank, hkind ha, hkind hb]

theorem byKind_rankOrdered (h : StrictlyInOrder members) : RankOrdered (byKind members) :=
  (byKind_pairwise h).imp fun hab => hab.elim Nat.le_of_lt fun heq => heq.1.le

theorem InOrder.eq_of_perm (h : InOrder children) (hperm : children.Perm members)
    (hmembers : StrictlyInOrder members) : children = members := by
  have hapart : children.Pairwise fun a b => a.span.start ≠ b.span.start :=
    (hperm.pairwise_iff Ne.symm).2 (hmembers.imp ne_of_lt)
  have hstrict : StrictlyInOrder children := h.imp₂ (fun _ _ => lt_of_le_of_ne) hapart
  exact hperm.eq_of_pairwise (fun _ _ _ _ hab hba => absurd hab hba.asymm) hstrict hmembers

theorem byKind_eq_self_iff (h : StrictlyInOrder members)
    (hkinds : ∀ o ∈ members, o.kind ∈ memberKinds) :
    byKind members = members ↔ RankOrdered members := by
  constructor
  · intro heq
    have hranks := byKind_rankOrdered h
    rwa [heq] at hranks
  · intro hranks
    refine (byKind_perm hkinds).eq_of_pairwise ?_ (byKind_pairwise h) (h.imp₂ ?_ hranks)
    · rintro a b - - (hab | ⟨hab, hlt⟩) (hba | ⟨hba, hgt⟩)
      · exact absurd hab hba.asymm
      · exact absurd hba hab.ne'
      · exact absurd hab hba.ne'
      · exact absurd hlt hgt.asymm
    · exact fun a b hlt hle => hle.lt_or_eq.imp_right fun heq => ⟨heq, hlt⟩

theorem byKind_inOrder_iff (h : StrictlyInOrder members)
    (hkinds : ∀ o ∈ members, o.kind ∈ memberKinds) :
    InOrder (byKind members) ↔ RankOrdered members := by
  rw [← byKind_eq_self_iff h hkinds]
  constructor
  · exact fun hin => hin.eq_of_perm (byKind_perm hkinds) h
  · intro heq
    rw [heq]
    exact h.imp le_of_lt

end ByKind

/-! ### What the tokens say -/

section Tokens

variable {ts us : List Token} {skip : NodeKind → Bool} {o : Outline} {os : List Outline}

def Precedes (skip : NodeKind → Bool) (a b : Outline) : Prop :=
  ∀ m ∈ a.walk skip, ∀ n ∈ b.walk skip, m.span.start < n.span.start

theorem self_mem_walk (skip : NodeKind → Bool) (o : Outline) : o ∈ o.walk skip := by
  cases o
  exact List.mem_cons_self

theorem walk_of_visited (h : skip o.kind = false) :
    o.walk skip = o :: o.children.flatMap (walk skip) := by
  obtain ⟨kind, span, children⟩ := o
  have hvisited : ¬skip kind = true := Bool.eq_false_iff.1 h
  rw [walk, if_neg hvisited, walkAll_eq_flatMap, Outline.children]

theorem InTurn.occupies_of_mem :
    ∀ {ts : List Token} {os : List Outline}, InTurn ts os →
      ∀ o ∈ os, ∃ us, us <:+: ts ∧ Occupies us o
  | _, _, .nil => fun _ ho => absurd ho List.not_mem_nil
  | _, _, @InTurn.cons pre us ts _ _ hfirst hrest => by
    refine List.forall_mem_cons.2 ⟨⟨us, ⟨pre, ts, rfl⟩, hfirst⟩, fun o ho => ?_⟩
    obtain ⟨vs, hpart, hvs⟩ := hrest.occupies_of_mem o ho
    exact ⟨vs, hpart.trans ⟨pre ++ us, [], by simp⟩, hvs⟩

theorem Occupies.opensAt (h : Occupies ts o) :
    ∃ t, ts.head? = some t ∧ t.lexeme.isSolid = true ∧ o.span.start = t.span.start := by
  have hfirst {ts : List Token} {span : Span} (hspan : Spanned ts span) :
      ∃ t, ts.head? = some t ∧ t.lexeme.isSolid = true ∧ span.start = t.span.start := by
    obtain ⟨first, last, hfirst, -, hsolid, -, rfl⟩ := hspan
    exact ⟨first, hfirst, hsolid, rfl⟩
  cases h with
  | node _ hspan _ | component hspan _ _ => exact hfirst hspan
  | element hspan _ _ _ =>
    obtain ⟨t, ht, hstart⟩ := hfirst hspan
    exact ⟨t, by rw [List.head?_append, ht]; rfl, hstart⟩

theorem Occupies.exists_members (h : Occupies ts o) :
    ∃ members, InTurn ts members ∧ o.children.Perm members ∧
      (o.kind ≠ .componentDeclaration → o.children = members) ∧
      (o.kind = .componentDeclaration →
        o.children = byKind members ∧ ∀ m ∈ members, m.kind ∈ memberKinds) := by
  cases h with
  | node hkind _ hchildren =>
    refine ⟨_, hchildren, .refl _, fun _ => rfl, ?_⟩
    rintro rfl
    cases hkind
  | component _ hmembers hkinds =>
    exact ⟨_, hmembers, byKind_perm hkinds, fun hne => absurd rfl hne, fun _ => ⟨rfl, hkinds⟩⟩
  | element _ hcontent helements _ =>
    exact ⟨_, hcontent.append helements, .refl _, fun _ => rfl, fun hkind => by cases hkind⟩

theorem Occupies.child (h : Occupies ts o) :
    ∀ c ∈ o.children, ∃ us, us <:+: ts ∧ Occupies us c := by
  obtain ⟨members, hmembers, hperm, -⟩ := h.exists_members
  exact fun c hc => hmembers.occupies_of_mem c (hperm.mem_iff.1 hc)

theorem Occupies.walk (skip : NodeKind → Bool) (h : Occupies ts o) :
    ∀ n ∈ o.walk skip, ∃ us, us <:+: ts ∧ Occupies us n := by
  refine forall_walk skip (fun n _ hn c hc => ?_) o ⟨ts, List.infix_rfl, h⟩
  obtain ⟨us, hpart, hus⟩ := hn
  obtain ⟨vs, hpart', hvs⟩ := hus.child c hc
  exact ⟨vs, hpart'.trans hpart, hvs⟩

theorem Occupies.exists_start (h : Occupies ts o) :
    ∀ n ∈ o.walk skip, ∃ t ∈ solids ts, n.span.start = t.span.start := by
  intro n hn
  obtain ⟨us, hpart, hus⟩ := h.walk skip n hn
  obtain ⟨t, ht, hsolid, hstart⟩ := hus.opensAt
  exact ⟨t, mem_solids.2 ⟨hpart.subset (List.mem_of_head? ht), hsolid⟩, hstart⟩

theorem InTurn.exists_start (h : InTurn ts os) (ho : o ∈ os) :
    ∀ n ∈ o.walk skip, ∃ t ∈ solids ts, n.span.start = t.span.start := by
  intro n hn
  obtain ⟨us, hpart, hus⟩ := h.occupies_of_mem o ho
  obtain ⟨t, ht, hstart⟩ := hus.exists_start n hn
  obtain ⟨hmem, hsolid⟩ := mem_solids.1 ht
  exact ⟨t, mem_solids.2 ⟨hpart.subset hmem, hsolid⟩, hstart⟩

theorem InTurn.precedes (skip : NodeKind → Bool) :
    ∀ {ts : List Token} {os : List Outline}, InTurn ts os → Ascending ts →
      os.Pairwise (Precedes skip)
  | _, _, .nil, _ => .nil
  | _, _, @InTurn.cons pre us ts _ _ hfirst hrest, ha => by
    have hafter : Ascending ts := ha.part ⟨pre ++ us, [], by simp⟩
    refine List.pairwise_cons.2 ⟨fun o ho m hm n hn => ?_, hrest.precedes skip hafter⟩
    obtain ⟨t, ht, hstart⟩ := hfirst.exists_start m hm
    obtain ⟨u, hu, hstart'⟩ := hrest.exists_start ho n hn
    have hpair : Ascending (us ++ ts) := ha.part ⟨pre, [], by simp⟩
    have hordered := hpair.ordered t (by rw [solids_append]; exact List.mem_append_left _ ht)
    have hapart := hpair.apart
    rw [solids_append, List.pairwise_append] at hapart
    rw [hstart, hstart']
    exact lt_of_le_of_lt hordered (hapart.2.2 t ht u hu)

theorem strictlyInOrder_of_precedes (h : os.Pairwise (Precedes skip)) : StrictlyInOrder os :=
  h.imp fun hab => hab _ (self_mem_walk _ _) _ (self_mem_walk _ _)

/-- What the children of a node are, compared with how they stand in the text. -/
def ListsMembers (n : Outline) : Prop :=
  (n.kind ≠ .componentDeclaration → InOrder n.children) ∧
    (n.kind = .componentDeclaration → ∃ members, StrictlyInOrder members ∧ n.children.Perm members ∧
      n.children = byKind members ∧ (InOrder n.children ↔ RankOrdered members))

theorem Occupies.listsMembers (ha : Ascending ts) (h : Occupies ts o) : o.ListsMembers := by
  obtain ⟨members, hmembers, hperm, hnode, hcomponent⟩ := h.exists_members
  have hstrict : StrictlyInOrder members :=
    strictlyInOrder_of_precedes (hmembers.precedes (fun _ => false) ha)
  constructor
  · intro hkind
    rw [hnode hkind]
    exact hstrict.imp le_of_lt
  · intro hkind
    obtain ⟨hchildren, hkinds⟩ := hcomponent hkind
    refine ⟨members, hstrict, hperm, hchildren, ?_⟩
    rw [hchildren]
    exact byKind_inOrder_iff hstrict hkinds

/-! ### The walk -/

theorem InOrder.children (h : InOrder (o.walk skip)) (hvisited : skip o.kind = false) :
    InOrder o.children ∧ ∀ c ∈ o.children, InOrder (c.walk skip) := by
  rw [walk_of_visited hvisited] at h
  obtain ⟨hall, happart⟩ := List.pairwise_flatMap.1 (List.pairwise_cons.1 h).2
  exact ⟨happart.imp fun hab => hab _ (self_mem_walk _ _) _ (self_mem_walk _ _), hall⟩

/-- The walk is in order as far as the children of every node are. -/
theorem Occupies.walk_inOrder (ha : Ascending ts) (h : Occupies ts o)
    (hall : ∀ n ∈ o.walk skip, skip n.kind = false → InOrder n.children) :
    InOrder (o.walk skip) := by
  induction o using induct generalizing ts with
  | h kind span children ih =>
    by_cases hskip : skip kind
    · rw [Outline.walk, if_pos hskip]
      exact List.pairwise_singleton ..
    · have hvisited : skip kind = false := Bool.eq_false_iff.2 hskip
      obtain ⟨t, ht, hsolid, hstart⟩ := h.opensAt
      have hwalk := walk_of_visited (o := .node kind span children) hvisited
      have hfirst : ∀ n ∈ Outline.walk skip (.node kind span children),
          t.span.start ≤ n.span.start := by
        intro n hn
        obtain ⟨u, hu, hstart'⟩ := h.exists_start n hn
        obtain ⟨hmem, husolid⟩ := mem_solids.1 hu
        rw [hstart']
        exact ha.start_le ht hsolid hmem husolid
      have hprecedes : children.Pairwise (Precedes skip) := by
        obtain ⟨members, hmembers, hperm, -⟩ := h.exists_members
        have happart := hmembers.precedes skip ha
        have hchildren : InOrder children := hall _ (self_mem_walk _ _) hvisited
        have heq : children = members :=
          hchildren.eq_of_perm hperm (strictlyInOrder_of_precedes happart)
        rwa [heq]
      rw [hwalk] at hall hfirst ⊢
      refine List.pairwise_cons.2 ⟨fun n hn => ?_, List.pairwise_flatMap.2 ⟨fun c hc => ?_, ?_⟩⟩
      · exact hstart.trans_le (hfirst n (List.mem_cons_of_mem _ hn))
      · obtain ⟨us, hpart, hus⟩ := h.child c hc
        refine ih c hc (ha.part hpart) hus fun n hn => hall n (List.mem_cons_of_mem _ ?_)
        exact List.mem_flatMap.2 ⟨c, hc, hn⟩
      · exact hprecedes.imp fun hab m hm n hn => (hab m hm n hn).le

theorem Occupies.walk_inOrder_iff (ha : Ascending ts) (h : Occupies ts o) :
    InOrder (o.walk skip) ↔ ∀ n ∈ o.walk skip, n.kind = .componentDeclaration →
      skip n.kind = false → InOrder n.children := by
  constructor
  · intro hwalk
    have hall := forall_walk skip (P := fun n => InOrder (n.walk skip))
      (fun n hvisited hn => (hn.children hvisited).2) o hwalk
    exact fun n hn _ hvisited => ((hall n hn).children hvisited).1
  · refine fun hall => h.walk_inOrder ha fun n hn hvisited => ?_
    by_cases hkind : n.kind = .componentDeclaration
    · exact hall n hn hkind hvisited
    · obtain ⟨us, hpart, hus⟩ := h.walk skip n hn
      exact (hus.listsMembers (ha.part hpart)).1 hkind

end Tokens

end Outline

open LayoutScript.Outline (InTurn InOrder StrictlyInOrder RankOrdered byKind)

/-- The tree of an accepted text. Each node has a part of the tokens, and those of its children
follow one another; only a component lists its members by kind. So as long as lines and columns do
not wrap, the children of every other node are in order, those of a component exactly if the text
has its members in the order of their kinds, and a walk visits nodes in order exactly if the members
of every component that it looks into are. -/
theorem walk_follows_text_iff {source : String} {code : List Char} {p : Program}
    (h : check source code = .ok p) :
    (∃ tokens last, Token.ofText source code = .ok (tokens ++ [last]) ∧
      (p.body ≠ [] → InTurn tokens [p.outline])) ∧
    ((Text.lines code).length < UInt32.size →
      (∀ line ∈ Text.lines code, line.length < UInt32.size - 1) →
      (∀ n ∈ p.outline.walk fun _ => false, n.ListsMembers) ∧
      ∀ skip, InOrder (p.outline.walk skip) ↔
        ∀ n ∈ p.outline.walk skip, n.kind = .componentDeclaration → skip n.kind = false →
          InOrder n.children) := by
  obtain ⟨tokens, next, hscan, -, -, hrule⟩ := check_scans h
  obtain ⟨last, htokens⟩ := hscan.gives.ofText
  have hturn : p.body ≠ [] → InTurn tokens [p.outline] := by
    cases hrule with
    | @mk ns us _ body _ hss =>
      exact fun hne => (hss.program_inTurn hscan.tidy ⟨ns, [], by simp⟩ hne).after ns
  refine ⟨⟨tokens, _, htokens, hturn⟩, fun hlines hw => ?_⟩
  obtain ⟨body⟩ := p
  by_cases hbody : body = []
  · subst hbody
    have hwalk (skip : NodeKind → Bool) : (Program.mk []).outline.walk skip =
        [(Program.mk []).outline] := by
      rw [Program.outline, Outline.walk]
      split <;> rfl
    refine ⟨fun n hn => ?_, fun skip => ?_⟩
    · rw [hwalk] at hn
      obtain rfl := List.mem_singleton.1 hn
      exact ⟨fun _ => .nil, fun hkind => by cases hkind⟩
    · rw [hwalk]
      exact ⟨fun _ => List.forall_mem_singleton.2 fun _ _ => .nil,
        fun _ => List.pairwise_singleton ..⟩
  · obtain ⟨us, hpart, hus⟩ := (hturn hbody).occupies_of_mem _ List.mem_cons_self
    obtain ⟨hascending, -⟩ := hscan.ascending (fun _ => Text.not_mem_of_mem_lines) (by omega)
      fun line hline => Nat.lt_of_lt_of_le (hw line hline) (Nat.sub_le ..)
    have hpartial := hascending.part hpart
    refine ⟨fun n hn => ?_, fun skip => hus.walk_inOrder_iff hpartial⟩
    obtain ⟨vs, hpart', hvs⟩ := hus.walk _ n hn
    exact hvs.listsMembers (hpartial.part hpart')

/-- A component whose members stand in the order of their kinds, and one that has a method before
its state. -/
def cardAndTally : List Char :=
  ("component Card\n  props\n    title : string\n  end\n" ++
    "  render\n    div\n      p(id = 1) hi\n  end\nend\n" ++
    "component Tally\n  def go\n    if a\n      print f(2).g + 1\n    end\n  end\n  state\n" ++
    "    n : number = 0\n  end\nend").toList

/-- The walk is out of order for the second component alone, and in order if it looks into
neither. -/
theorem walk_follows_text_cardAndTally : ∃ p, check "m" cardAndTally = .ok p ∧
    (∃ tokens last, Token.ofText "m" cardAndTally = .ok (tokens ++ [last]) ∧
      InTurn tokens [p.outline]) ∧
    (∀ n ∈ p.outline.walk fun _ => false, n.ListsMembers) ∧
    (∃ n ∈ p.outline.walk fun _ => false, n.kind = .componentDeclaration ∧ InOrder n.children) ∧
    (∃ members, StrictlyInOrder members ∧ ¬RankOrdered members ∧
      ∃ n ∈ p.outline.walk fun _ => false, n.children = byKind members) ∧
    ¬InOrder (p.outline.walk fun _ => false) ∧
    InOrder (p.outline.walk (· == .componentDeclaration)) := by
  obtain ⟨p, hp, htest⟩ : ∃ p, check "m" cardAndTally = .ok p ∧
      (!p.body.isEmpty &&
        ((p.outline.walk fun _ => false).any fun n =>
          n.kind == .componentDeclaration && decide (InOrder n.children)) &&
        (p.outline.walk fun _ => false).any fun n =>
          n.kind == .componentDeclaration && !decide (InOrder n.children)) = true :=
    exists_check_ok (by decide +kernel)
  simp only [Bool.and_eq_true, Bool.not_eq_true', List.isEmpty_eq_false_iff, List.any_eq_true,
    decide_eq_true_eq, decide_eq_false_iff_not, beq_iff_eq] at htest
  obtain ⟨⟨hbody, hcard⟩, n, hn, hkind, hout⟩ := htest
  have hfits : ∀ line ∈ Text.lines cardAndTally, line.length < UInt32.size - 1 :=
    Text.forall_lines_toList (by decide +kernel)
  obtain ⟨⟨tokens, last, htokens, hturn⟩, hrest⟩ := walk_follows_text_iff hp
  obtain ⟨hlists, hwalk⟩ := hrest (length_lines_of_check hp) hfits
  obtain ⟨members, hstrict, -, hchildren, hiff⟩ := (hlists n hn).2 hkind
  refine ⟨p, hp, ⟨tokens, last, htokens, hturn hbody⟩, hlists, hcard, ?_, ?_, ?_⟩
  · exact ⟨members, hstrict, fun hranks => hout (hiff.2 hranks), n, hn, hchildren⟩
  · exact fun hin => hout ((hwalk _).1 hin n hn hkind rfl)
  · refine (hwalk _).2 fun n _ hkind hvisited => ?_
    rw [hkind] at hvisited
    cases hvisited

def renderFirst : List Char :=
  "component Box\n  render\n    p hi\n  end\n  state\n    n : number = 0\n  end\nend\n".toList

/-- The state is visited first. -/
theorem walk_state_before_render : ∃ p, check "m" renderFirst = .ok p ∧
    (∃ n ∈ p.outline.walk fun _ => false, ¬InOrder n.children) ∧
    ¬InOrder (p.outline.walk fun _ => false) := by
  obtain ⟨p, hp, htest⟩ : ∃ p, check "m" renderFirst = .ok p ∧
      (((p.outline.walk fun _ => false).any fun n => !decide (InOrder n.children)) &&
        !decide (InOrder (p.outline.walk fun _ => false))) = true :=
    exists_check_ok (by decide +kernel)
  simp only [Bool.and_eq_true, Bool.not_eq_true', List.any_eq_true, decide_eq_false_iff_not]
    at htest
  exact ⟨p, hp, htest.1, htest.2⟩

end LayoutScript

import LayoutScript.Proofs.Concatenation
import LayoutScript.Proofs.ParserGist

/-! The members of a component, one by one. A component keeps each kind of members apart, so members
of different kinds may change places; and a member is read wherever its lines stand. -/
namespace LayoutScript

inductive Member where
  | props (entries : List Entry)
  | state (entries : List Entry)
  | method (f : FunctionDecl)
  | render (block : RenderBlock)
  | style (block : StyleBlock)

namespace Member

def keyword : Member → Keyword
  | .props _ => .props
  | .state _ => .state
  | .method _ => .defWord
  | .render _ => .render
  | .style _ => .style

/-- The component with one more member. It may have one block of each of the last two kinds. -/
def addTo? (m : Member) (c : ComponentDecl) : Option ComponentDecl :=
  match m with
  | .props entries => some { c with props := c.props ++ entries }
  | .state entries => some { c with state := c.state ++ entries }
  | .method f => some { c with methods := c.methods ++ [f] }
  | .render block => if c.render.isNone then some { c with render := some block } else none
  | .style block => if c.style.isNone then some { c with style := some block } else none

variable {m m' : Member} {c c' d : ComponentDecl}

/-- Members of different kinds go to different parts of the component. -/
theorem addTo?_comm (h : m.keyword ≠ m'.keyword) (c : ComponentDecl) :
    (m.addTo? c).bind m'.addTo? = (m'.addTo? c).bind m.addTo? := by
  obtain ⟨name, props, state, methods, render, style, span⟩ := c
  cases m <;> cases m' <;> first | exact absurd rfl h | cases render <;> cases style <;> rfl

theorem addTo?_bare (hc : c.bare = d.bare) (h : m.addTo? c = some c') :
    ∃ d', m.addTo? d = some d' ∧ c'.bare = d'.bare := by
  obtain ⟨name, props, state, methods, render, style, span⟩ := c
  obtain ⟨name', props', state', methods', render', style', span'⟩ := d
  obtain ⟨rfl, hprops, hstate, hmethods, hrender, hstyle, -⟩ := ComponentOf.mk.inj hc
  cases m with
  | props entries =>
    cases h
    refine ⟨_, rfl, ComponentOf.mapSpan_of_parts ?_ hstate hmethods hrender hstyle rfl⟩
    simp only [List.map_append, hprops]
  | state entries =>
    cases h
    refine ⟨_, rfl, ComponentOf.mapSpan_of_parts hprops ?_ hmethods hrender hstyle rfl⟩
    simp only [List.map_append, hstate]
  | method f =>
    cases h
    refine ⟨_, rfl, ComponentOf.mapSpan_of_parts hprops hstate ?_ hrender hstyle rfl⟩
    simp only [List.map_append, hmethods]
  | render block =>
    cases render with
    | some r => cases h
    | none =>
      cases render' with
      | some r => cases hrender
      | none =>
        cases h
        exact ⟨_, rfl, ComponentOf.mapSpan_of_parts hprops hstate hmethods rfl hstyle rfl⟩
  | style block =>
    cases style with
    | some s => cases h
    | none =>
      cases style' with
      | some s => cases hstyle
      | none =>
        cases h
        exact ⟨_, rfl, ComponentOf.mapSpan_of_parts hprops hstate hmethods hrender rfl rfl⟩

end Member

/-! ### Rules -/

inductive MemberRule (statement : Place → Rule Stmt) : Rule Member
  | props {ts next entries} : EntryBlock .props ts next entries →
    MemberRule statement ts next (.props entries)
  | state {ts next entries} : EntryBlock .state ts next entries →
    MemberRule statement ts next (.state entries)
  | method {ts next f} : FunctionLevel statement ts next f →
  MemberRule statement ts next (.method f)
  | render {ts next block} : RenderRule ts next block → MemberRule statement ts next (.render block)
  | style {ts next block} : StyleBlockRule ts next block →
  MemberRule statement ts next (.style block)

section Rules

variable {S : Place → Rule Stmt} {ts us : List Token} {next : Token} {m : Member}
  {c c' d e : ComponentDecl}

theorem componentMember_iff :
    ComponentMember S c ts next c' ↔ ∃ m, MemberRule S ts next m ∧ m.addTo? c = some c' := by
  constructor
  · intro h
    cases h with
    | props he => exact ⟨_, .props he, rfl⟩
    | state he => exact ⟨_, .state he, rfl⟩
    | method hf => exact ⟨_, .method hf, rfl⟩
    | render hn hr => exact ⟨_, .render hr, by rw [Member.addTo?, hn]; rfl⟩
    | style hn hs => exact ⟨_, .style hs, by rw [Member.addTo?, hn]; rfl⟩
  · rintro ⟨m, hm, h⟩
    cases hm with
    | props he => cases h; exact .props he
    | state he => cases h; exact .state he
    | method hf => cases h; exact .method hf
    | render hr =>
      rw [Member.addTo?] at h
      split at h <;> cases h
      next hn => exact .render (Option.isNone_iff_eq_none.1 hn) hr
    | style hs =>
      rw [Member.addTo?] at h
      split at h <;> cases h
      next hn => exact .style (Option.isNone_iff_eq_none.1 hn) hs

theorem MemberRule.opens (h : MemberRule S ts next m) :
    ∃ t us, ts = t :: us ∧ t.lexeme = .keyword m.keyword := by
  cases h with
  | props he | state he => cases he with | mk ht _ _ => exact ⟨_, _, rfl, ht⟩
  | method hf => cases hf with | mk hd _ _ _ _ _ => exact ⟨_, _, rfl, hd⟩
  | render hr => cases hr with | mk ht _ _ => exact ⟨_, _, rfl, ht⟩
  | style hs => cases hs with | mk ht _ _ => exact ⟨_, _, rfl, ht⟩

theorem EntryBlock.endsLine {k : Keyword} {entries : List Entry}
    (h : EntryBlock k ts next entries) :
    EndsLine (EntryBlock k) ts next entries := by
  cases h with
  | mk ht hb hc =>
    refine hc.endsLine_append fun next' hc' => .mk ht ?_ hc'
    rwa [headD_of_ne_nil hc.ne_nil next' next]

theorem RenderRule.endsLine {block : RenderBlock} (h : RenderRule ts next block) :
    EndsLine RenderRule ts next block := by
  cases h with
  | mk ht hb hc =>
    refine hc.endsLine_append fun next' hc' => .mk ht ?_ hc'
    rwa [headD_of_ne_nil hc.ne_nil next' next]

theorem StyleBlockRule.endsLine {block : StyleBlock} (h : StyleBlockRule ts next block) :
    EndsLine StyleBlockRule ts next block := by
  cases h with
  | mk ht hb hc =>
    refine hc.endsLine_append fun next' hc' => .mk ht ?_ hc'
    rwa [headD_of_ne_nil hc.ne_nil next' next]

theorem MemberRule.endsLine (h : MemberRule S ts next m) : EndsLine (MemberRule S) ts next m := by
  cases h with
  | props he => exact he.endsLine.imp fun _ => .props
  | state he => exact he.endsLine.imp fun _ => .state
  | method hf => exact hf.endsLine.imp fun _ => .method
  | render hr => exact hr.endsLine.imp fun _ => .render
  | style hs => exact hs.endsLine.imp fun _ => .style

namespace ComponentMember

theorem endsLine (h : ComponentMember S c ts next c') :
    EndsLine (ComponentMember S c) ts next c' := by
  obtain ⟨m, hm, hadd⟩ := componentMember_iff.1 h
  exact hm.endsLine.imp fun _ hm => componentMember_iff.2 ⟨m, hm, hadd⟩

theorem anywhere (h : ComponentMember S c ts next c') (hlines : WholeLines ts) (next' : Token) :
    ComponentMember S c ts next' c' := by
  rcases h.endsLine with ⟨_, _, _, _, hall⟩ | ⟨_, hsolid⟩
  · exact hall next'
  · exact absurd hsolid hlines.not_endsSolid

/-- The same tokens add the same to components that differ in their spans only. -/
theorem replay (h : ComponentMember S c ts next c') (hc : c.bare = d.bare) :
    ∃ d', ComponentMember S d ts next d' ∧ c'.bare = d'.bare := by
  obtain ⟨m, hm, hadd⟩ := componentMember_iff.1 h
  obtain ⟨d', hadd', hbare⟩ := Member.addTo?_bare hc hadd
  exact ⟨d', componentMember_iff.2 ⟨m, hm, hadd'⟩, hbare⟩

theorem comm {t u : Token} {next' : Token} (h : ComponentMember S c (t :: ts) next d)
    (h' : ComponentMember S d (u :: us) next' e) (hne : t.lexeme ≠ u.lexeme) :
    ∃ d', ComponentMember S c (u :: us) next' d' ∧ ComponentMember S d' (t :: ts) next e := by
  obtain ⟨m, hm, hadd⟩ := componentMember_iff.1 h
  obtain ⟨m', hm', hadd'⟩ := componentMember_iff.1 h'
  have hkeyword : m.keyword ≠ m'.keyword := by
    obtain ⟨_, _, htoken, ht⟩ := hm.opens
    obtain ⟨_, _, htoken', hu⟩ := hm'.opens
    obtain ⟨rfl, _⟩ := List.cons.inj htoken
    obtain ⟨rfl, _⟩ := List.cons.inj htoken'
    intro heq
    rw [ht, hu, heq] at hne
    exact hne rfl
  have hboth : (m.addTo? c).bind m'.addTo? = some e := by rw [hadd, Option.bind_some, hadd']
  rw [Member.addTo?_comm hkeyword] at hboth
  obtain ⟨d', hfirst, hsecond⟩ := Option.bind_eq_some_iff.1 hboth
  exact ⟨d', componentMember_iff.2 ⟨m', hm', hfirst⟩, componentMember_iff.2 ⟨m, hm, hsecond⟩⟩

end ComponentMember

theorem Entries.replay (h : Entries (ComponentMember S) c ts next c') (hc : c.bare = d.bare) :
    ∃ d', Entries (ComponentMember S) d ts next d' ∧ c'.bare = d'.bare := by
  induction h generalizing d with
  | close hns hd => exact ⟨d, .close hns hd, hc⟩
  | entry hns ho hm _ ih =>
    obtain ⟨d₁, hm', hbare⟩ := hm.replay hc
    obtain ⟨d', hrest, hbare'⟩ := ih hbare
    exact ⟨d', .entry hns ho hm' hrest, hbare'⟩

end Rules

/-! ### Members further down -/

section Moved

variable {f : Span → Span} {prev last next : Token} {ts : List Token} {c c' d : ComponentDecl}

theorem gist_mapSpan (hf : Relocation f) (prev : Token) (ts : List Token) :
    gist (prev.mapSpan f) (ts.map (Token.mapSpan f)) = gist prev ts := by
  induction ts generalizing prev with
  | nil => rfl
  | cons t ts ih =>
    rw [List.map_cons, gist, gist, ih, hf.follows, Token.lexeme_mapSpan, Token.lexeme_mapSpan]

theorem Cursor.Closed.aligned_mapSpan {c : Cursor} (hf : Relocation f) (hc : c.Closed) :
    Cursor.Aligned Cursor.Alike c.gist.length c (c.mapSpan f) where
  alike := {
    closed := hc
    closed' := hc.mapSpan f
    line := Iff.rfl
    gist := (gist_mapSpan hf c.prev c.tokens).symm
    length := Nat.le_refl _ }
  lexeme := rfl

theorem newlines_of_gist (hprev : prev.lexeme = .newline) (hlast : last.lexeme = .eof)
    (h : (gist prev (ts ++ [last])).length = 1) : Newlines ts := by
  induction ts generalizing prev with
  | nil => exact .nil
  | cons t ts ih =>
    by_cases ht : t.lexeme = .newline
    · rw [List.cons_append, gist_of_newlines hprev ht] at h
      exact List.forall_mem_cons.2 ⟨ht, ih ht h⟩
    · rw [List.cons_append, gist_of_not_newlines (.inr ht), List.length_cons] at h
      have := List.length_pos_iff.2 (gist_ne_nil hlast t ts)
      omega

/-- A member of whole lines is read at another place as well. Newlines after it may be left. -/
theorem ComponentMember.moved (hf : Relocation f) (h : ComponentMember StatementRule c ts next c')
    (hlines : WholeLines ts) (hc : c.bare = d.bare) :
    ∃ us ns d', ts.map (Token.mapSpan f) = us ++ ns ∧ Newlines ns ∧
      (∀ next', ComponentMember StatementRule d us next' d') ∧ c'.bare = d'.bare := by
  obtain ⟨us, t, hts, ht⟩ := hlines.resolve_left h.ne_nil
  obtain ⟨u, vs, hu⟩ := List.exists_cons_of_ne_nil h.ne_nil
  -- The member by itself, between a newline token and the end of a text.
  let before : Token := ⟨.newline, .origin⟩
  let last : Token := ⟨.eof, .origin⟩
  let x : Cursor := ⟨before, u, vs ++ [last]⟩
  let y : Cursor := ⟨t, last, []⟩
  have htokens : x.tokens = ts ++ [last] := by rw [hu]; rfl
  have hx : x.Closed := ⟨ts, last, htokens, rfl⟩
  have hxy : x.Passes ts y := ⟨htokens, by rw [hts, getLastD_append]; rfl⟩
  have hreads (n : Nat) (d : ComponentDecl) :
      (ComponentOf.parseMember Stmt.parse d).ReadsWithin (n + 1) fun _ =>
        ComponentMember StatementRule d :=
    ComponentOf.parseMember_reads Stmt.parse_reads (fun h => h.starts.ne_nil) d
  have hrun := (hreads _ c hx (Nat.lt_succ_self _)).2 ⟨ts, hxy, h.anywhere hlines _⟩
  have haligned := hx.aligned_mapSpan hf
  have hends := (ComponentOf.parseMember_pairs (P := gistPairing) Stmt.parse_pairs c d hc).le
    (Nat.le_succ _) (Nat.le_refl _) haligned
  rw [Pairing.At, hrun] at hends
  obtain ⟨d', y', hrun', hbare, halike⟩ := hends.exists_ok
  obtain ⟨vs', hvs, hm⟩ := (hreads _ d haligned.alike.closed' (Nat.lt_succ_self _)).1 hrun'
  -- Both stand at the end of the text, after a newline token.
  have hprev : y'.prev.lexeme = .newline := halike.line.1 ht
  obtain ⟨ns, last', hns, hlast'⟩ := halike.closed'
  have hgist : (gist y'.prev (ns ++ [last'])).length = 1 := by
    have hlength : y'.gist.length = 1 := by
      rw [← halike.gist, Cursor.gist_of_not_newlines (.inr (by simp [y, last]))]
      rfl
    rwa [Cursor.gist, hns] at hlength
  have hall : ts.map (Token.mapSpan f) ++ [last.mapSpan f] = vs' ++ ns ++ [last'] := by
    have hsplit := hvs.tokens
    rw [hns] at hsplit
    rw [List.append_assoc, ← hsplit]
    show _ = x.tokens.map (Token.mapSpan f)
    rw [htokens, List.map_append, List.map_singleton]
  refine ⟨vs', ns, d', (List.append_inj' hall rfl).1, newlines_of_gist hprev hlast' hgist,
    ?_, hbare⟩
  rcases hm.endsLine with ⟨_, _, _, _, hm⟩ | ⟨_, ws, w, rfl, hw⟩
  · exact hm
  · have hlast : y'.prev = w := by rw [hvs.prev, getLastD_append]; rfl
    rw [← hlast, hprev] at hw
    cases hw

end Moved

end LayoutScript

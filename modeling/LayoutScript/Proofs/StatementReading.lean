import LayoutScript.Proofs.StatementGrammar

/-! The parsers for statements, declarations and programs read exactly their grammar. -/
namespace LayoutScript

open LayoutScript.Expr (Expression Operand)
open LayoutScript.Parser

variable {n : Nat} {statement : Place → Parser Stmt} {S : Place → Rule Stmt}

theorem body_reads (hS : ∀ place, (statement place).ReadsWithin n fun _ => S place)
    (hne : ∀ {place ts next s}, S place ts next s → ts ≠ []) (place : Place) :
    (indented (statement place)).ReadsWithin n fun _ => Block (Appends (S place)) [] :=
  indented_reads (fun h => hne h) (hS place)

namespace FunctionOf

theorem parseName_reads :
    parseName.ReadsWithin n fun _ ts _ name =>
      ∃ t, ts = [t] ∧ t.lexeme.functionName? = some name := by
  refine token_reads Lexeme.functionName? rfl ?_ ?_
  · intro c name ha hv
    rw [parseName, run_bind_ok (run_current c)]
    unfold Lexeme.functionName? at hv
    split at hv <;> cases hv
    · next h =>
      simp only [h]
      rw [expectIdentifier, run_bind_ok (run_current c), h]
      exact run_bind_ok (run_advance ha)
    · next h => rw [h]; exact run_bind_ok (run_advance ha)
    · next h => rw [h]; exact run_bind_ok (run_advance ha)
  · intro c hv
    rw [parseName, run_bind_ok (run_current c)]
    unfold Lexeme.functionName? at hv
    split at hv <;> cases hv
    next hi hcon hpr =>
    split
    · next h => exact absurd h hcon
    · next h => exact absurd h hpr
    · rw [expectIdentifier, run_bind_ok (run_current c)]
      split
      · next name h => exact absurd h (hi name)
      · exact ⟨_, rfl⟩

theorem parseType?_reads : parseType?.ReadsWithin n fun _ => OptionalType := by
  refine (accept_bind (by simp) fun b => .ite (fun _ => expectIdentifier_reads.bind fun type =>
    pure_reads (some type)) fun _ => pure_reads none).congr fun prev ts next type => ?_
  constructor
  · rintro (⟨colon, _, rfl, hc, _, _, name, rfl, ⟨t, rfl, ht⟩, rfl, rfl⟩ | ⟨hn, rfl, rfl⟩)
    · exact .some hc ht
    · exact .none hn
  · intro h
    cases h with
    | none hn => exact .inr ⟨hn, rfl, rfl⟩
    | some hc ht => exact .inl ⟨_, _, rfl, hc, [_], [], _, rfl, ⟨_, rfl, ht⟩, rfl, rfl⟩

theorem parseParam_reads : parseParam.ReadsWithin n fun _ => ParamRule := by
  refine (expectIdentifier_reads.token_bind (fun name => parseType?_reads.bind fun type =>
    pure_reads (Param.mk name type)) (Nat.le_succ n)).congr fun prev ts next p => ?_
  constructor
  · rintro ⟨t, _, name, rfl, ht, us, _, type, rfl, hu, rfl, rfl⟩
    rw [List.append_nil]
    exact .mk ht hu
  · intro h
    cases h with
    | mk ht hu => exact ⟨_, _, _, rfl, ht, _, [], _, (List.append_nil _).symm, hu, rfl, rfl⟩

theorem parseParams_reads : parseParams.ReadsWithin n fun _ => ParamList := by
  have hfirst {ts next a} (h : ParamRule ts next a) :
      (ts.headD next).lexeme ≠ .punct .closeParen := by
    cases h with
    | mk ht _ => simp [ht]
  refine (accept_bind (by simp) fun b => .ite
    (fun _ => commaSeparated_reads (by simp) hfirst parseParam_reads)
    fun _ => pure_reads []).congr fun prev ts next params => ?_
  constructor
  · rintro (⟨o, _, rfl, ho, us, close, rfl, hc, hs⟩ | ⟨hn, rfl, rfl⟩)
    · exact .some ho hs hc
    · exact .none hn
  · intro h
    cases h with
    | none hn => exact .inr ⟨hn, rfl, rfl⟩
    | some ho hs hc => exact .inl ⟨_, _, rfl, ho, _, _, rfl, hc, hs⟩

theorem parseWith_reads (hS : ∀ place, (statement place).ReadsWithin n fun _ => S place)
    (hne : ∀ {place ts next s}, S place ts next s → ts ≠ []) :
    (parseWith statement).ReadsWithin (n + 1) fun _ => FunctionLevel S := by
  refine (here_bind fun start => (expectKeyword_reads .defWord).token_bind (fun _ =>
    parseName_reads.token_bind (fun name => parseParams_reads.bind fun params =>
      parseType?_reads.bind fun type => (body_reads hS hne .functionBody).bind fun body =>
        (closeBlock_reads start).bind fun span =>
          pure_reads (FunctionOf.mk name params type (giveCall body) span))
      (Nat.le_succ n)) (Nat.le_refl _)).congr fun prev ts next f => ?_
  constructor
  · rintro ⟨d, _, _, rfl, hd, t, _, name, rfl, ht, us, _, params, rfl, hp, vs, _, type, rfl, hr,
      ws, _, body, rfl, hb, xs, _, span, rfl, hc, rfl, rfl⟩
    rw [List.append_nil] at *
    rw [← List.append_assoc] at hp
    have h := FunctionLevel.mk hd ht hp hr hb hc
    simpa only [List.cons_append, List.append_assoc] using h
  · intro h
    cases h with
    | @mk d t us vs ws xs _ name params type body span hd ht hp hr hb hc =>
      rw [List.append_assoc] at hp
      exact ⟨d, t :: (us ++ (vs ++ (ws ++ xs))), (),
        by simp only [List.cons_append, List.append_assoc], hd, t, _, name, rfl, ht, us, _, params,
        rfl, hp, vs, _, type, rfl, hr, ws, _, body, rfl, hb, xs, [], span, (List.append_nil _).symm,
        hc, rfl, rfl⟩

end FunctionOf

theorem ClassMember.opens {members members' : List Property × List FunctionDecl}
    {ts : List Token} {next : Token} (h : ClassMember S members ts next members') :
    ∃ t us, ts = t :: us ∧ Opens t := by
  cases h with
  | property ht _ _ _ => exact ⟨_, _, rfl, by simp [ht], by simp [ht], by simp [ht]⟩
  | method hf =>
    cases hf with
    | mk hd _ _ _ _ _ => exact ⟨_, _, rfl, by simp [hd], by simp [hd], by simp [hd]⟩

namespace ClassOf

variable {members members' : List Property × List FunctionDecl} {c c' : Cursor}

theorem property_reads (members : List Property × List FunctionDecl) :
    (do
      let name ← expectIdentifier
      expectPunct .colon
      let type ← expectIdentifier
      expectNewline
      return ((members.1 ++ [⟨name, type⟩], members.2), true) :
        Parser ((List Property × List FunctionDecl) × Bool)).ReadsWithin n fun _ ts next r =>
      ∃ t colon u le name type, ts = t :: colon :: u :: le ∧ t.lexeme = .identifier name ∧
        colon.lexeme = .punct .colon ∧ u.lexeme = .identifier type ∧ LineEnd le next ∧
        r = ((members.1 ++ [⟨name, type⟩], members.2), true) := by
  refine (expectIdentifier_reads.token_bind (fun name => (expectPunct_reads .colon).token_bind
    (fun _ => expectIdentifier_reads.token_bind (fun type => expectNewline_reads.result fun _ =>
      ((members.1 ++ [Property.mk name type], members.2), true)) (Nat.le_succ n)) (Nat.le_succ n))
    (Nat.le_succ n)).congr fun prev ts next r => ?_
  constructor
  · rintro ⟨t, _, name, rfl, ht, colon, _, _, rfl, hc, u, le, type, rfl, hu, _, hle, rfl⟩
    exact ⟨t, colon, u, le, name, type, rfl, ht, hc, hu, hle, rfl⟩
  · rintro ⟨t, colon, u, le, name, type, rfl, ht, hc, hu, hle, rfl⟩
    exact ⟨t, _, name, rfl, ht, colon, _, (), rfl, hc, u, le, type, rfl, hu, (), hle, rfl⟩

theorem parseMember_sound (hS : ∀ place, (statement place).ReadsWithin n fun _ => S place)
    (hne : ∀ {place ts next s}, S place ts next s → ts ≠ []) (hc : c.Closed)
    (hl : c.ahead.length < n + 1) {more : Bool}
    (h : (parseMember statement members).run c = .ok ((members', more), c')) :
    ∃ ns ts, c.Passes (ns ++ ts) c' ∧ Newlines ns ∧
      if more then ClassMember S members ts c'.cur members' else ts = [] ∧ members' = members := by
  rw [parseMember, bind_eq_ok] at h
  obtain ⟨_, d, hs, h⟩ := h
  obtain ⟨ns, hn, hns, -⟩ := (skipNewlines_reads hc hl).1 hs
  have hd := hn.closed hc
  have hld : d.ahead.length < n + 1 := by
    have := hn.length
    omega
  rw [run_bind_ok (run_current d), run_bind_ok (run_peek d)] at h
  split at h
  · obtain ⟨_, hp, t, colon, u, le, name, type, rfl, ht, hcolon, hu, hle, hr⟩ :=
      (property_reads members hd hld).1 h
    cases hr
    exact ⟨ns, _, hn.trans hp, hns, .property ht hcolon hu hle⟩
  · obtain ⟨ts, hp, f, hf, hr⟩ := ((FunctionOf.parseWith_reads hS hne).result _ hd hld).1 h
    cases hr
    exact ⟨ns, ts, hn.trans hp, hns, .method hf⟩
  · cases h
    exact ⟨ns, [], hn.trans (.refl _), hns, rfl, rfl⟩

theorem parseMember_complete (hS : ∀ place, (statement place).ReadsWithin n fun _ => S place)
    (hne : ∀ {place ts next s}, S place ts next s → ts ≠ []) (hc : c.Closed)
    (hl : c.ahead.length < n + 1) {ns ts : List Token} (hns : Newlines ns)
    (hp : c.Passes (ns ++ ts) c') (h : ClassMember S members ts c'.cur members') :
    (parseMember statement members).run c = .ok ((members', true), c') := by
  obtain ⟨d, hn, hd'⟩ := hp.split
  have hd := hn.closed hc
  have hld : d.ahead.length < n + 1 := by
    have := hn.length
    omega
  obtain ⟨t, us, rfl, ho⟩ := h.opens
  have hnl : d.cur.lexeme ≠ .newline := by
    rw [hd'.cur_cons]
    exact ho.ne_newline
  rw [parseMember, run_bind_ok (run_skipNewlines hc hn hns hnl), run_bind_ok (run_current d),
    run_bind_ok (run_peek d)]
  cases h with
  | property ht hcolon hu hle =>
    simp only [hd'.cur_cons, ht, hd'.peek, List.headD_cons, hcolon]
    exact (property_reads members hd hld).2
      ⟨_, hd', _, _, _, _, _, _, rfl, ht, hcolon, hu, hle, rfl⟩
  | method hf =>
    have ht : d.cur.lexeme = .keyword .defWord := by
      cases hf with | mk ht _ _ _ _ _ => rwa [hd'.cur_cons]
    simp only [ht]
    exact ((FunctionOf.parseWith_reads hS hne).result _ hd hld).2 ⟨_, hd', _, hf, rfl⟩

theorem parseMember_dedent (hc : c.Closed) {ns : List Token} (hns : Newlines ns)
    (hp : c.Passes ns c') (hd : c'.cur.lexeme = .dedent) :
    (parseMember statement members).run c = .ok ((members, false), c') := by
  have hnl : c'.cur.lexeme ≠ .newline := by simp [hd]
  rw [parseMember, run_bind_ok (run_skipNewlines hc hp hns hnl), run_bind_ok (run_current c'),
    run_bind_ok (run_peek c')]
  simp only [hd]
  rfl

/-- The members that the loop collects in front of a dedent are the entries of a block. The loop
stops at other tokens too, so this is about the loop and the dedent together. -/
theorem loopWithin_members_iff (hS : ∀ place, (statement place).ReadsWithin n fun _ => S place)
    (hne : ∀ {place ts next s}, S place ts next s → ts ≠ []) (k : Nat)
    (members : List Property × List FunctionDecl) (hc : c.Closed) (hl : c.ahead.length < n + 1)
    (hk : c.ahead.length < k) :
    (∃ d, (loopWithin (parseMember statement) k members).run c = .ok (members', d) ∧
        d.cur.lexeme = .dedent ∧ d.Passes [d.cur] c') ↔
      ∃ ts, c.Passes ts c' ∧ Entries (ClassMember S) members ts c'.cur members' := by
  induction k generalizing members c with
  | zero => omega
  | succ k ih =>
    rw [loopWithin]
    constructor
    · rintro ⟨d, h, hd, hlast⟩
      obtain ⟨⟨members₁, more⟩, e, hs, he⟩ := bind_eq_ok.1 h
      obtain ⟨ns, ts, hp, hns, hm⟩ := parseMember_sound hS hne hc hl hs
      have hlen := hp.length
      cases more with
      | false =>
        obtain ⟨rfl, rfl⟩ := hm
        cases he
        rw [List.append_nil] at hp
        exact ⟨_, hp.trans hlast, .close hns hd⟩
      | true =>
        obtain ⟨u, us, rfl, ho⟩ := ClassMember.opens hm
        rw [List.length_append, List.length_cons] at hlen
        obtain ⟨vs, hv, hrest⟩ :=
          (ih members₁ (hp.closed hc) (by omega) (by omega)).1 ⟨d, he, hd, hlast⟩
        rw [hv.cur] at hm
        exact ⟨_, hp.trans hv, .entry hns ho hm hrest⟩
    · rintro ⟨ts, hp, h⟩
      cases h with
      | close hns hd =>
        obtain ⟨d, hn, ht⟩ := hp.split
        obtain rfl := ht.cur_cons
        exact ⟨d, bind_eq_ok.2 ⟨(_, false), d, parseMember_dedent hc hns hn hd, rfl⟩, hd, ht⟩
      | entry hns ho hm hrest =>
        obtain ⟨e, he, he'⟩ := hp.split
        have hlen := he.length
        rw [List.length_append, List.length_cons] at hlen
        rw [← he'.cur] at hm
        obtain ⟨d, h, hd⟩ := (ih _ (he.closed hc) (by omega) (by omega)).2 ⟨_, he', hrest⟩
        exact ⟨d, bind_eq_ok.2 ⟨(_, true), e, parseMember_complete hS hne hc hl hns he hm, h⟩, hd⟩

theorem members_reads (hS : ∀ place, (statement place).ReadsWithin n fun _ => S place)
    (hne : ∀ {place ts next s}, S place ts next s → ts ≠ [])
    (members : List Property × List FunctionDecl) :
    (do
      let members ← loop (parseMember statement) members
      expectDedent
      return members).ReadsWithin (n + 1) fun _ => Entries (ClassMember S) members := by
  intro c c' members' hc hl
  rw [← loopWithin_members_iff hS hne _ members hc hl (Nat.lt_succ_self _), bind_eq_ok]
  constructor
  · rintro ⟨r, d, hloop, h⟩
    obtain ⟨_, e, he, h⟩ := bind_eq_ok.1 h
    cases h
    exact ⟨d, hloop, expect_eq_ok.1 he⟩
  · rintro ⟨d, hloop, hd⟩
    exact ⟨members', d, hloop, bind_eq_ok.2 ⟨(), c', expect_eq_ok.2 hd, rfl⟩⟩

theorem parseWith_reads (hS : ∀ place, (statement place).ReadsWithin n fun _ => S place)
    (hne : ∀ {place ts next s}, S place ts next s → ts ≠ []) :
    (parseWith statement).ReadsWithin (n + 1) fun _ => ClassLevel S := by
  have hblock : (do expectNewline; skipNewlines; parseMembers statement).ReadsWithin n fun _ =>
      Block (ClassMember S) ([], []) :=
    block_reads ((members_reads hS hne ([], [])).mono (Nat.le_succ n))
  have hbody (start : Span) (name : String) := (hblock.bind fun members =>
    (closeBlock_reads start).result fun span =>
      (⟨name, members.1, members.2, span⟩ : ClassDecl)).of_run_eq fun c =>
    ((run_bind_assoc ..).trans (run_bind_congr fun _ => run_bind_assoc _ _ _)).symm
  refine (here_bind fun start => (expectKeyword_reads .classWord).token_bind (fun _ =>
    expectIdentifier_reads.token_bind (fun name => hbody start name)
      (Nat.le_succ n)) (Nat.le_refl _)).congr fun prev ts next d => ?_
  constructor
  · rintro ⟨k, _, _, rfl, hk, t, _, name, rfl, ht, us, vs, members, rfl, hb, span, hc, rfl⟩
    exact .mk hk ht hb hc
  · intro h
    cases h with
    | mk hk ht hb hc => exact ⟨_, _, (), rfl, hk, _, _, _, rfl, ht, _, _, _, rfl, hb, _, hc, rfl⟩

end ClassOf

theorem Entry.parse_reads : Entry.parse.ReadsWithin n fun _ => EntryRule := by
  have hend (start : Span) (name type : String) (value : Option Expr) :
      (do
        let last ← prevSpan
        expectNewline
        pure ⟨name, type, value, start.join last⟩ : Parser Entry).ReadsWithin n
        fun prev ts next e =>
          LineEnd ts next ∧ e = ⟨name, type, value, start.join prev.span⟩ := by
    refine (prevSpan_bind fun last => expectNewline_reads.result fun _ =>
      (⟨name, type, value, start.join last⟩ : Entry)).congr fun prev ts next e => ?_
    exact ⟨fun ⟨_, h⟩ => h, fun h => ⟨(), h⟩⟩
  have hsome : (some <$> Expr.parse).ReadsWithin n fun _ ts next value =>
      ∃ e, Expression ts next e ∧ value = some e := Expr.parse_reads.result some
  refine (here_bind fun start => expectIdentifier_reads.token_bind (fun name =>
    (expectPunct_reads .colon).token_bind (fun _ => expectIdentifier_reads.token_bind (fun type =>
      accept_bind (by simp) fun b =>
        .ite (fun _ => hsome.bind fun value => hend start name type value)
        fun _ => (pure_reads none).bind fun value => hend start name type value)
      (Nat.le_succ n)) (Nat.le_succ n)) (Nat.le_succ n)).congr fun prev ts next e => ?_
  constructor
  · rintro ⟨t, _, name, rfl, ht, colon, _, _, rfl, hc, u, _, type, rfl, hu,
      ⟨equal, _, rfl, he, us, le, _, rfl, ⟨value, hv, rfl⟩, hle, rfl⟩ |
      ⟨hn, _, le, _, rfl, ⟨rfl, rfl⟩, hle, rfl⟩⟩
    · have h := EntryRule.mk ht hc hu (.some he hv) hle
      simp only [List.getLastD_cons] at h
      exact h
    · exact .mk ht hc hu (.none hn) hle
  · intro h
    cases h with
    | mk ht hc hu hv hle =>
      refine ⟨_, _, _, rfl, ht, _, _, (), rfl, hc, _, _, _, rfl, hu, ?_⟩
      cases hv with
      | none hn => exact .inr ⟨hn, [], _, _, rfl, ⟨rfl, rfl⟩, hle, rfl⟩
      | some he hv =>
        refine .inl ⟨_, _, rfl, he, _, _, _, rfl, ⟨_, hv, rfl⟩, hle, ?_⟩
        rw [List.getLastD_cons]
        rfl

theorem Entry.parseBlock_reads (k : Keyword) :
    (Entry.parseBlock k).ReadsWithin n fun _ => EntryBlock k := by
  have hne {ts : List Token} {next : Token} {e : Entry} (h : EntryRule ts next e) : ts ≠ [] := by
    cases h
    exact List.cons_ne_nil _ _
  refine (keywordBlock_reads k hne Entry.parse_reads fun entries _ => entries).congr
    fun prev ts next r => ⟨?_, fun h => ?_⟩
  · rintro ⟨t, us, vs, items, span, rfl, ht, hb, hc, rfl⟩
    exact .mk ht hb hc
  · cases h with
    | mk ht hb hc => exact ⟨_, _, _, _, _, rfl, ht, hb, hc, rfl⟩

theorem ComponentMember.ne_nil {d d' : ComponentDecl} {ts : List Token} {next : Token}
    (h : ComponentMember S d ts next d') : ts ≠ [] := by
  cases h with
  | props h | state h | render _ h | style _ h => cases h; exact List.cons_ne_nil _ _
  | method hf => exact hf.starts.ne_nil

namespace ComponentOf

theorem parseMember_reads (hS : ∀ place, (statement place).ReadsWithin n fun _ => S place)
    (hne : ∀ {place ts next s}, S place ts next s → ts ≠ []) (d : ComponentDecl) :
    (parseMember statement d).ReadsWithin (n + 1) fun _ => ComponentMember S d := by
  have hprops := (Entry.parseBlock_reads (n := n + 1) .props).result fun es =>
    { d with props := d.props ++ es }
  have hstate := (Entry.parseBlock_reads (n := n + 1) .state).result fun es =>
    { d with state := d.state ++ es }
  have hmethod := (FunctionOf.parseWith_reads hS hne).result fun f =>
    { d with methods := d.methods ++ [f] }
  have hrender := (RenderBlock.parse_reads (n := n + 1)).result fun r => { d with render := some r }
  have hstyle := (StyleBlock.parse_reads (n := n + 1)).result fun s => { d with style := some s }
  intro c c' d' hc hl
  rw [parseMember, run_bind_ok (run_current c)]
  constructor
  · intro h
    split at h
    · obtain ⟨ts, hp, es, hes, rfl⟩ := (hprops hc hl).1 h
      exact ⟨ts, hp, .props hes⟩
    · obtain ⟨ts, hp, es, hes, rfl⟩ := (hstate hc hl).1 h
      exact ⟨ts, hp, .state hes⟩
    · obtain ⟨ts, hp, f, hf, rfl⟩ := (hmethod hc hl).1 h
      exact ⟨ts, hp, .method hf⟩
    · cases hr : d.render with
      | some r => rw [hr] at h; cases h
      | none =>
        rw [hr] at h
        obtain ⟨ts, hp, r, hr', rfl⟩ := (hrender hc hl).1 h
        exact ⟨ts, hp, .render hr hr'⟩
    · cases hs : d.style with
      | some s => rw [hs] at h; cases h
      | none =>
        rw [hs] at h
        obtain ⟨ts, hp, s, hs', rfl⟩ := (hstyle hc hl).1 h
        exact ⟨ts, hp, .style hs hs'⟩
    · cases h
  · rintro ⟨ts, hp, h⟩
    cases h with
    | props hes =>
      have ht : c.cur.lexeme = .keyword .props := by cases hes with | mk ht _ _ => rwa [hp.cur_cons]
      simp only [ht]
      exact (hprops hc hl).2 ⟨ts, hp, _, hes, rfl⟩
    | state hes =>
      have ht : c.cur.lexeme = .keyword .state := by cases hes with | mk ht _ _ => rwa [hp.cur_cons]
      simp only [ht]
      exact (hstate hc hl).2 ⟨ts, hp, _, hes, rfl⟩
    | method hf =>
      have ht : c.cur.lexeme = .keyword .defWord := by
        cases hf with | mk ht _ _ _ _ _ => rwa [hp.cur_cons]
      simp only [ht]
      exact (hmethod hc hl).2 ⟨ts, hp, _, hf, rfl⟩
    | render hn hr =>
      have ht : c.cur.lexeme = .keyword .render := by cases hr with | mk ht _ _ => rwa [hp.cur_cons]
      simp only [ht, hn]
      exact (hrender hc hl).2 ⟨ts, hp, _, hr, rfl⟩
    | style hn hs =>
      have ht : c.cur.lexeme = .keyword .style := by cases hs with | mk ht _ _ => rwa [hp.cur_cons]
      simp only [ht, hn]
      exact (hstyle hc hl).2 ⟨ts, hp, _, hs, rfl⟩

theorem parseWith_reads (hS : ∀ place, (statement place).ReadsWithin n fun _ => S place)
    (hne : ∀ {place ts next s}, S place ts next s → ts ≠ []) :
    (parseWith statement).ReadsWithin (n + 1) fun _ => ComponentLevel S := by
  have hmembers (d : ComponentDecl) :
      (indentedFold d (parseMember statement)).ReadsWithin n fun _ => Block (ComponentMember S) d :=
    indentedFold_reads (fun h => h.ne_nil)
      (fun d => (parseMember_reads hS hne d).mono (Nat.le_succ n)) d
  refine (here_bind fun start => (expectKeyword_reads .component).token_bind (fun _ =>
    expectIdentifier_reads.token_bind (fun name =>
      (hmembers ⟨name, [], [], [], none, none, start⟩).bind fun d =>
        (closeBlock_reads start).result fun span => ({ d with span := span } : ComponentDecl))
      (Nat.le_succ n)) (Nat.le_refl _)).congr fun prev ts next d => ?_
  constructor
  · rintro ⟨k, _, _, rfl, hk, t, _, name, rfl, ht, us, vs, d, rfl, hb, span, hc, rfl⟩
    exact .mk hk ht hb hc
  · intro h
    cases h with
    | mk hk ht hb hc => exact ⟨_, _, (), rfl, hk, _, _, _, rfl, ht, _, _, _, rfl, hb, _, hc, rfl⟩

end ComponentOf

theorem line_reads {p : Parser α} {rule : Rule α} (h : p.ReadsWithin n fun _ => rule) (f : α → β) :
    (do
      let a ← p
      expectNewline
      return f a : Parser β).ReadsWithin n fun _ =>
        LineOf fun ts next b => ∃ a, rule ts next a ∧ b = f a := by
  refine (h.bind fun a => expectNewline_reads.result fun _ => f a).congr fun prev ts next b => ?_
  constructor
  · rintro ⟨us, le, a, rfl, hr, _, hle, rfl⟩
    exact .mk ⟨a, hr, rfl⟩ hle
  · intro h
    cases h with
    | mk hr hle =>
      obtain ⟨a, hr, rfl⟩ := hr
      exact ⟨_, _, a, rfl, hr, (), hle, rfl⟩

namespace Stmt

variable {c c' : Cursor} {s : Stmt}

theorem parseAssigned_reads (start : Span) (make : Expr → Span → Stmt) :
    (parseAssigned start make).ReadsWithin n fun _ => LineOf (Valued start make) := by
  refine (line_reads Expr.parse_reads fun e => make e (start.join e.span)).congr
    fun prev ts next s => ⟨?_, ?_⟩
  · rintro ⟨⟨e, he, rfl⟩, hle⟩
    exact .mk (.mk he) hle
  · rintro ⟨⟨he⟩, hle⟩
    exact .mk ⟨_, he, rfl⟩ hle

theorem parseImplicitGive_reads (left : Expr) :
    (parseImplicitGive left).ReadsWithin n fun _ => LineOf fun ts next s =>
      ∃ e, Expr.Rest Expression left ts next e ∧ s = .give (some e) e.span :=
  line_reads (Expr.parseRest_reads left) fun e => Stmt.give (some e) e.span

theorem parseAccess_sound {place : Place} {start : Span} (hc : c.Closed)
    (h : (parseAccess place start).run c = .ok (s, c')) :
    ∃ ts, c.Passes ts c' ∧ LineOf (Access place start) ts c'.cur s := by
  obtain ⟨target, d, ho, h⟩ := bind_eq_ok.1 h
  obtain ⟨us, hu, ho⟩ := (Expr.parseOperand_reads hc (Nat.lt_succ_self _)).1 ho
  have hd := hu.closed hc
  have hl := Nat.lt_succ_self d.ahead.length
  -- It is enough to read the rest from `d`.
  suffices hrest : ∃ vs, d.Passes vs c' ∧ LineOf (AccessTail place start target) vs c'.cur s by
    obtain ⟨_, hv, ⟨ht, hle⟩⟩ := hrest
    rw [hv.cur, headD_append] at ho
    refine ⟨_, hu.trans hv, ?_⟩
    rw [← List.append_assoc]
    exact .mk (.mk ho ht) hle
  have hexpr (h : (do expectNewline; return Stmt.expr target).run d = .ok (s, c')) :
      ∃ vs, d.Passes vs c' ∧ LineOf (AccessTail place start target) vs c'.cur s := by
    obtain ⟨le, hp, _, hle, rfl⟩ :=
      (expectNewline_reads.result (fun _ => Stmt.expr target) hd hl).1 h
    exact ⟨le, hp, .mk AccessTail.expr hle⟩
  rw [run_bind_ok (run_seesPunct .equal d)] at h
  split at h
  · next heq =>
    have heq : d.cur.lexeme = .punct .equal := by simpa using heq
    split at h
    · obtain ⟨us, hp, hv, hle⟩ := (advance_bind_iff (parseAssigned_reads start _) hd
        (Nat.lt_succ_of_lt hl) (by simp [heq])).1 h
      exact ⟨_, hp, .mk (AccessTail.assign heq hv) hle⟩
    · cases h
  · rw [run_bind_ok (run_current d)] at h
    split at h
    · next hf ht =>
      split at h
      · next hb =>
        obtain ⟨_, hp, ⟨e, hr, rfl⟩, hle⟩ := (parseImplicitGive_reads target hd hl).1 h
        cases hr with
        | none hn =>
          rw [hp.cur, List.nil_append] at ht
          rw [ht] at hn
          exact absurd hb (by simpa [Lexeme.isBinary] using hn)
        | binary hop hb he => exact ⟨_, hp, .mk (AccessTail.give hf hop hb he) hle⟩
      · exact hexpr h
    · exact hexpr h

theorem parseAccess_complete {place : Place} {start : Span} {ts : List Token}
    (hc : c.Closed) (hp : c.Passes ts c') (h : LineOf (Access place start) ts c'.cur s) :
    (parseAccess place start).run c = .ok (s, c') := by
  obtain ⟨⟨ho, h⟩, hle⟩ := h
  rw [List.append_assoc] at hp
  obtain ⟨d, hu, hp⟩ := hp.split
  rw [← headD_append, ← hp.cur] at ho
  have hd := hu.closed hc
  have hl := Nat.lt_succ_self d.ahead.length
  rw [parseAccess, run_bind_ok ((Expr.parseOperand_reads hc (Nat.lt_succ_self _)).2 ⟨_, hu, ho⟩),
    run_bind_ok (run_seesPunct .equal d)]
  cases h with
  | expr =>
    have hcur (p : Punct) : d.cur.lexeme ≠ .punct p := by
      rw [hp.cur]
      exact hle.ne_punct p
    rw [if_neg (by rw [beq_iff_eq]; exact hcur _), run_bind_ok (run_current d)]
    split
    · next ht => exact absurd ht (hcur _)
    · exact (expectNewline_reads.result (fun _ => Stmt.expr _) hd hl).2 ⟨_, hp, (), hle, rfl⟩
  | assign he hv =>
    have hcur : d.cur.lexeme = .punct .equal := by rw [hp.cur_cons, he]
    rw [if_pos (by simp [hcur])]
    exact (advance_bind_iff (parseAssigned_reads start _) hd (Nat.lt_succ_of_lt hl)
      (by simp [hcur])).2 ⟨_, by rwa [hp.cur_cons], .mk hv hle⟩
  | @give op p _ _ _ _ hf hop hb he =>
    have hcur : d.cur.lexeme = .punct p := by rw [hp.cur_cons, hop]
    have hne : ¬(d.cur.lexeme == .punct .equal) = true := by
      rw [hcur]
      rintro h
      obtain rfl : p = .equal := by simpa using h
      cases hb
    rw [if_neg hne, run_bind_ok (run_current d)]
    simp only [hf, hcur, hb, if_true]
    exact (parseImplicitGive_reads _ hd hl).2 ⟨_, hp, .mk ⟨_, .binary hop hb he, rfl⟩ hle⟩

theorem parsePrint_reads : parsePrint.ReadsWithin n fun _ ts next s =>
    ∃ t us, ts = t :: us ∧ t.lexeme = .keyword .print ∧
      LineOf (Valued t.span .print) us next s := by
  refine (here_bind fun start =>
    (expectKeyword_reads .print).token_bind (fun _ => parseAssigned_reads start .print)
      (Nat.le_succ n)).congr fun prev ts next s => ⟨?_, ?_⟩
  · rintro ⟨t, us, _, rfl, ht, h⟩
    exact ⟨t, us, rfl, ht, h⟩
  · rintro ⟨t, us, rfl, ht, h⟩
    exact ⟨t, us, (), rfl, ht, h⟩

theorem parseGive_reads : parseGive.ReadsWithin n fun _ ts next s =>
    ∃ t us, ts = t :: us ∧ t.lexeme = .keyword .returnWord ∧
      (LineOf (Valued t.span fun e => .give (some e)) us next s ∨
        LineEnd us next ∧ s = .give none t.span) := by
  refine (here_bind fun start => (expectKeyword_reads .returnWord).token_bind (fun _ =>
    sees_bind fun b => sees_bind fun b' => .ite (b := b || b')
      (fun _ => expectNewline_reads.result fun _ => Stmt.give none start)
      fun _ => parseAssigned_reads start fun e => .give (some e))
    (Nat.le_succ n)).congr fun prev ts next s => ⟨?_, ?_⟩
  · rintro ⟨t, us, _, rfl, ht, h⟩
    refine ⟨t, us, rfl, ht, ?_⟩
    split at h
    · obtain ⟨_, hle, rfl⟩ := h
      exact .inr ⟨hle, rfl⟩
    · exact .inl h
  · rintro ⟨t, us, rfl, ht, h⟩
    refine ⟨t, us, (), rfl, ht, ?_⟩
    rcases h with ⟨⟨he⟩, hle⟩ | ⟨hle, rfl⟩
    · rename_i us le _
      have hstart := he.starts.append le
      have hnl : ((us ++ le).headD next).lexeme ≠ .newline := hstart.lexeme_ne rfl
      have heof : ((us ++ le).headD next).lexeme ≠ .eof := hstart.lexeme_ne rfl
      rw [if_neg (by rw [Bool.or_eq_true, beq_iff_eq, beq_iff_eq]; exact not_or.2 ⟨hnl, heof⟩)]
      exact .mk (.mk he) hle
    · rw [if_pos (by rw [Bool.or_eq_true, beq_iff_eq, beq_iff_eq]; exact hle.head)]
      exact ⟨(), hle, rfl⟩

theorem implicitGive_reads :
    (do parseImplicitGive (← Expr.parseOperand)).ReadsWithin n fun _ =>
      LineOf fun ts next s => ∃ e, Expression ts next e ∧ s = Stmt.give (some e) e.span := by
  refine (Expr.parseOperand_reads.bind parseImplicitGive_reads).congr fun prev ts next s => ⟨?_, ?_⟩
  · rintro ⟨us, _, left, rfl, ho, ⟨⟨e, hr, rfl⟩, hle⟩⟩
    rw [headD_append] at ho
    rw [← List.append_assoc]
    exact .mk ⟨e, Expr.expression_iff_rest.2 ⟨_, _, _, rfl, ho, hr⟩, rfl⟩ hle
  · rintro ⟨⟨e, he, rfl⟩, hle⟩
    obtain ⟨us, vs, left, rfl, ho, hr⟩ := Expr.expression_iff_rest.1 he
    rw [← headD_append] at ho
    exact ⟨_, _, _, List.append_assoc .., ho, .mk ⟨e, hr, rfl⟩ hle⟩

theorem parseIdentifier_sound {place : Place} {name : String} (hc : c.Closed)
    (ht : c.cur.lexeme = .identifier name)
    (h : (parseIdentifier place name).run c = .ok (s, c')) :
    ∃ ts, c.Passes ts c' ∧ LineOf (Sentence place) ts c'.cur s := by
  have hl := Nat.lt_succ_self c.ahead.length
  have hne : c.cur.lexeme ≠ .eof := by simp [ht]
  have hstep := hc.passes_advance hne
  have haccess (ho : c.peek.lexeme.opensAccess = true)
      (h : (parseAccess place c.cur.span).run c = .ok (s, c')) :
      ∃ ts, c.Passes ts c' ∧ LineOf (Sentence place) ts c'.cur s := by
    obtain ⟨_, hp, ha, hle⟩ := parseAccess_sound hc h
    obtain ⟨t, us, rfl⟩ := List.exists_cons_of_ne_nil ha.ne_nil
    obtain rfl := hp.cur_cons
    rw [hp.peek_append] at ho
    exact ⟨_, hp, .mk (.access ht ho ha) hle⟩
  rw [parseIdentifier, run_bind_ok (run_here c), run_bind_ok (run_peek c)] at h
  split at h
  · next hpeek =>
    rw [run_bind_ok (run_advance hstep.ahead_ne_nil)] at h
    have hcur : c.advance.cur.lexeme = .punct .equal := by rw [hc.cur_advance hne, hpeek]
    obtain ⟨_, hp, hv, hle⟩ := (advance_bind_iff (parseAssigned_reads c.cur.span (.assign name))
      (hstep.closed hc) (Nat.lt_succ_of_lt (Nat.lt_succ_self _)) (by simp [hcur])).1 h
    exact ⟨c.cur :: c.advance.cur :: _ ++ _, hstep.trans hp, .mk (.assign ht hcur hv) hle⟩
  · next hpeek => exact haccess (by rw [hpeek]; rfl) h
  · next hpeek => exact haccess (by rw [hpeek]; rfl) h
  · next hequal hdot hopen =>
    split at h
    · next hf =>
      obtain ⟨_, hp, ⟨e, he, rfl⟩, hle⟩ := (implicitGive_reads hc hl).1 h
      obtain ⟨t, us, rfl⟩ := List.exists_cons_of_ne_nil he.starts.ne_nil
      obtain rfl := hp.cur_cons
      rw [hp.peek_append] at hequal hdot hopen
      exact ⟨_, hp,
        .mk (.implicitGive hf ht hequal (Lexeme.opensAccess_eq_false hdot hopen) he) hle⟩
    · next hf =>
      obtain ⟨le, hp, _, hle, rfl⟩ := (advance_bind_iff (expectNewline_reads.result
        (fun _ => Stmt.expr (.call name [] c.cur.span))) hc (Nat.lt_succ_of_lt hl) hne).1 h
      exact ⟨[c.cur] ++ le, hp, .mk (.bareCall (Bool.eq_false_iff.2 hf) ht) hle⟩

theorem parseInstanceAccess_sound {place : Place} {name : String} (hc : c.Closed)
    (ht : c.cur.lexeme = .instanceVar name) (hopens : c.peek.lexeme.opensAccess = true)
    (h : (parseInstanceAccess c.cur.span).run c = .ok (s, c')) :
    ∃ ts, c.Passes ts c' ∧ LineOf (Sentence place) ts c'.cur s := by
  obtain ⟨target, d, ho, h⟩ := bind_eq_ok.1 h
  obtain ⟨_, hu, ho⟩ := (Expr.parseOperand_reads hc (Nat.lt_succ_self _)).1 ho
  obtain ⟨t, us, rfl⟩ := List.exists_cons_of_ne_nil ho.starts.ne_nil
  obtain rfl := hu.cur_cons
  have hl := Nat.lt_succ_self d.ahead.length
  have hcall (hk : target.kind = .instanceMethodCall ∨ target.kind = .methodCall)
      (h : (do expectNewline; return Stmt.expr target).run d = .ok (s, c')) :
      ∃ ts, c.Passes ts c' ∧ LineOf (Sentence place) ts c'.cur s := by
    obtain ⟨le, hp, _, hle, rfl⟩ :=
      (expectNewline_reads.result (fun _ => Stmt.expr target) (hu.closed hc) hl).1 h
    have hpass := hu.trans hp
    rw [hpass.peek_append] at hopens
    rw [hp.cur] at ho
    exact ⟨_, hpass, .mk (.instanceCall ht hopens ho hk) hle⟩
  split at h
  · exact hcall (.inl rfl) h
  · exact hcall (.inr rfl) h
  · obtain ⟨_, hp, equal, _, _, rfl, he, hv, hle⟩ := ((expectPunct_reads .equal).token_bind
      (fun _ => parseAssigned_reads _ _) (Nat.le_succ _) (hu.closed hc) hl).1 h
    have hpass := hu.trans hp
    rw [hu.peek, hp.cur_cons] at hopens
    rw [hp.cur_cons] at ho
    rw [← List.cons_append, ← List.append_assoc] at hpass
    exact ⟨_, hpass, .mk (.instanceProperty ht hopens ho he hv) hle⟩
  · cases h

theorem parseInstanceVar_sound {place : Place} {name : String} (hc : c.Closed)
    (ht : c.cur.lexeme = .instanceVar name)
    (h : (parseInstanceVar name).run c = .ok (s, c')) :
    ∃ ts, c.Passes ts c' ∧ LineOf (Sentence place) ts c'.cur s := by
  have hl := Nat.lt_succ_self c.ahead.length
  have hne : c.cur.lexeme ≠ .eof := by simp [ht]
  have hstep := hc.passes_advance hne
  rw [parseInstanceVar, run_bind_ok (run_here c), run_bind_ok (run_peek c)] at h
  split at h
  · next hpeek =>
    rw [run_bind_ok (run_advance hstep.ahead_ne_nil)] at h
    have hcur : c.advance.cur.lexeme = .punct .equal := by rw [hc.cur_advance hne, hpeek]
    obtain ⟨_, hp, hv, hle⟩ := (advance_bind_iff
      (parseAssigned_reads c.cur.span (.assignInstanceVar name)) (hstep.closed hc)
      (Nat.lt_succ_of_lt (Nat.lt_succ_self _)) (by simp [hcur])).1 h
    exact ⟨c.cur :: c.advance.cur :: _ ++ _, hstep.trans hp,
      .mk (.assignInstanceVar ht hcur hv) hle⟩
  · next hpeek => exact parseInstanceAccess_sound hc ht (by rw [hpeek]; rfl) h
  · next hpeek => exact parseInstanceAccess_sound hc ht (by rw [hpeek]; rfl) h
  · rw [run_bind_ok (run_advance hstep.ahead_ne_nil)] at h
    cases h

theorem run_assigned {t equal : Token} {us le : List Token} {start : Span}
    {make : Expr → Span → Stmt} (hc : c.Closed) (hp : c.Passes (t :: equal :: us ++ le) c')
    (ht : t.lexeme ≠ .eof) (he : equal.lexeme = .punct .equal)
    (hv : Valued start make us (le.headD c'.cur) s) (hle : LineEnd le c'.cur) :
    (do advance; advance; parseAssigned start make).run c = .ok (s, c') := by
  have hcur := hp.advance.cur_cons
  have hd := (hc.passes_advance (by rwa [hp.cur_cons])).closed hc
  rw [run_bind_ok (run_advance hp.ahead_ne_nil)]
  refine (advance_bind_iff (parseAssigned_reads start make) hd
    (Nat.lt_succ_of_lt (Nat.lt_succ_self _)) (by simp [hcur, he])).2 ⟨us ++ le, ?_, .mk hv hle⟩
  rw [hcur]
  exact hp.advance

theorem run_parseInstanceVar {name : String} (h : c.peek.lexeme.opensAccess = true) :
    (parseInstanceVar name).run c = (parseInstanceAccess c.cur.span).run c := by
  rw [parseInstanceVar, run_bind_ok (run_here c), run_bind_ok (run_peek c)]
  unfold Lexeme.opensAccess at h
  split at h
  · next hdot => rw [hdot]
  · next hopen => rw [hopen]
  · cases h

theorem sentence_complete {place : Place} {ts : List Token} (hc : c.Closed)
    (hp : c.Passes ts c') (h : LineOf (Sentence place) ts c'.cur s) :
    (parseWith statement place).run c = .ok (s, c') := by
  have hl := Nat.lt_succ_self c.ahead.length
  obtain ⟨h, hle⟩ := h
  rw [parseWith, run_bind_ok (run_current c)]
  cases h with
  | print ht hv =>
    simp only [hp.cur_cons, ht]
    exact (parsePrint_reads hc hl).2 ⟨_, hp, _, _, rfl, ht, .mk hv hle⟩
  | give ht hv =>
    simp only [hp.cur_cons, ht]
    exact (parseGive_reads hc hl).2 ⟨_, hp, _, _, rfl, ht, .inl (.mk hv hle)⟩
  | giveNothing ht =>
    simp only [hp.cur_cons, ht]
    exact (parseGive_reads hc hl).2 ⟨_, hp, _, _, rfl, ht, .inr ⟨hle, rfl⟩⟩
  | @text t _ _ _ ht hv =>
    have hrun := (parseAssigned_reads t.span (fun e => .give (some e)) hc hl).2 ⟨_, hp, .mk hv hle⟩
    cases hk : t.lexeme <;> simp only [hk, Lexeme.isText, Bool.false_eq_true] at ht
    · simp only [hp.cur_cons, hk]
      exact hrun
    · simp only [hp.cur_cons, hk]
      exact hrun
  | assign ht he hv =>
    simp only [hp.cur_cons, ht]
    rw [parseIdentifier, run_bind_ok (run_here c), run_bind_ok (run_peek c), hp.peek_append]
    simp only [List.headD_cons, he, hp.cur_cons]
    exact run_assigned hc hp (by simp [ht]) he hv hle
  | access ht ho ha =>
    simp only [hp.cur_cons, ht]
    rw [parseIdentifier, run_bind_ok (run_here c), run_bind_ok (run_peek c), hp.peek_append]
    rw [hp.cur_cons]
    have hrun := parseAccess_complete hc hp (.mk ha hle)
    unfold Lexeme.opensAccess at ho
    split at ho
    · next hdot => simp only [hdot]; exact hrun
    · next hopen => simp only [hopen]; exact hrun
    · cases ho
  | implicitGive hf ht hequal ho he =>
    simp only [hp.cur_cons, ht]
    rw [parseIdentifier, run_bind_ok (run_here c), run_bind_ok (run_peek c), hp.peek_append]
    have hrun := (implicitGive_reads hc hl).2 ⟨_, hp, .mk ⟨_, he, rfl⟩ hle⟩
    split
    · next hk => exact absurd hk hequal
    · next hk => rw [hk] at ho; cases ho
    · next hk => rw [hk] at ho; cases ho
    · rw [if_pos hf]
      exact hrun
  | bareCall hf ht =>
    simp only [hp.cur_cons, ht]
    rw [parseIdentifier, run_bind_ok (run_here c), run_bind_ok (run_peek c), hp.peek_append,
      hp.cur_cons]
    have hcur := hp.cur_cons
    split
    · next hk => exact absurd hk (hle.ne_punct _)
    · next hk => exact absurd hk (hle.ne_punct _)
    · next hk => exact absurd hk (hle.ne_punct _)
    · rw [if_neg (by rw [hf]; exact Bool.false_ne_true)]
      exact (advance_bind_iff (expectNewline_reads.result fun _ => Stmt.expr _) hc
        (Nat.lt_succ_of_lt hl) (by rw [hcur, ht]; simp)).2 ⟨_, by rw [hcur]; exact hp, (), hle, rfl⟩
  | assignInstanceVar ht he hv =>
    simp only [hp.cur_cons, ht]
    rw [parseInstanceVar, run_bind_ok (run_here c), run_bind_ok (run_peek c), hp.peek_append]
    simp only [List.headD_cons, he, hp.cur_cons]
    exact run_assigned hc hp (by simp [ht]) he hv hle
  | @instanceCall _ _ _ _ target ht ho hop hk =>
    simp only [hp.cur_cons, ht]
    rw [run_parseInstanceVar (by rw [hp.peek_append, ho]), parseInstanceAccess]
    obtain ⟨d, hu, hp⟩ := hp.split
    rw [← hp.cur] at hop
    have hend := (expectNewline_reads.result (fun _ => Stmt.expr target) (hu.closed hc)
      (Nat.lt_succ_self _)).2 ⟨_, hp, (), hle, rfl⟩
    rw [run_bind_ok ((Expr.parseOperand_reads hc hl).2 ⟨_, hu, hop⟩)]
    cases target <;> first | exact hend | simp [Expr.kind] at hk
  | instanceProperty ht ho hop he hv =>
    rw [List.append_assoc] at hp
    simp only [hp.cur_cons, ht]
    rw [run_parseInstanceVar (by rw [hp.peek_append]; exact ho), parseInstanceAccess, hp.cur_cons]
    obtain ⟨d, hu, hp⟩ := hp.split
    have hcur := hp.cur_cons
    rw [← hcur] at hop
    rw [run_bind_ok ((Expr.parseOperand_reads hc hl).2 ⟨_, hu, hop⟩)]
    exact ((expectPunct_reads .equal).token_bind (fun _ => parseAssigned_reads _ _) (Nat.le_succ _)
      (hu.closed hc) (Nat.lt_succ_self _)).2 ⟨_, hp, _, _, (), rfl, he, .mk hv hle⟩

section Branch

variable {body : Parser (List Stmt)} {R : Rule Stmt}

inductive ElsifTurn (R : Rule Stmt) (elsifs : List Elsif) : Token → Rule (List Elsif × Bool)
  | stop {prev ns next} : Newlines ns → next.lexeme ≠ .newline → next.lexeme ≠ .keyword .elsif →
    ElsifTurn R elsifs prev ns next (elsifs, false)
  | more {prev ns t us vs next condition body} : Newlines ns → t.lexeme = .keyword .elsif →
    Expression us (vs.headD next) condition → Block (Appends R) [] vs next body →
    ElsifTurn R elsifs prev (ns ++ t :: us ++ vs) next (elsifs ++ [⟨condition, body⟩], true)

theorem elsifTurn_reads (hbody : body.ReadsWithin n fun _ => Block (Appends R) [])
    (elsifs : List Elsif) :
    (nextElsif body elsifs).ReadsWithin n (ElsifTurn R elsifs) := by
  refine (skipNewlines_reads.bind fun _ => accept_bind (by simp) fun b => .ite (b := !b)
    (fun _ => pure_reads (elsifs, false)) fun _ => Expr.parse_reads.bind fun condition =>
      hbody.result fun body => (elsifs ++ [ElsifOf.mk condition body], true)).congr
    fun prev ts next r => ?_
  constructor
  · rintro ⟨ns, _, _, rfl, ⟨hns, hnl⟩,
      ⟨t, _, rfl, ht, us, vs, condition, rfl, he, body, hb, rfl⟩ | ⟨hn, rfl, rfl⟩⟩
    · have h : ElsifTurn R elsifs prev _ _ _ := .more hns ht he hb
      simpa only [List.append_assoc, List.cons_append] using h
    · rw [List.append_nil]
      exact .stop hns hnl hn
  · intro h
    cases h with
    | stop hns hnl hn =>
      exact ⟨ts, [], (), (List.append_nil _).symm, ⟨hns, hnl⟩, .inr ⟨hn, rfl, rfl⟩⟩
    | more hns ht he hb =>
      exact ⟨_, _ :: (_ ++ _), (), by simp only [List.append_assoc, List.cons_append],
        ⟨hns, by simp [ht]⟩, .inl ⟨_, _, rfl, ht, _, _, _, rfl, he, _, hb, rfl⟩⟩

theorem loop_elsifTurn_iff {elsifs elsifs' : List Elsif} {prev next : Token} {ts : List Token} :
    Loop (ElsifTurn R) elsifs prev ts next elsifs' ↔
      ∃ es, elsifs' = elsifs ++ es ∧ Elsifs R ts next es := by
  constructor
  · intro h
    induction h with
    | stop ht =>
      cases ht with
      | stop hns hnl hn => exact ⟨[], (List.append_nil _).symm, .nil hns hnl hn⟩
    | more ht _ ih =>
      cases ht with
      | more hns ht he hb =>
        obtain ⟨es, rfl, hs⟩ := ih
        rw [← headD_append] at he
        exact ⟨_ :: es, by rw [List.append_assoc]; rfl, .cons hns ht he hb hs⟩
  · rintro ⟨es, rfl, h⟩
    induction h generalizing elsifs prev with
    | nil hns hnl hn =>
      rw [List.append_nil]
      exact .stop (.stop hns hnl hn)
    | cons hns ht he hb _ ih =>
      rw [headD_append] at he
      rw [List.append_cons elsifs]
      exact .more (.more hns ht he hb) ih

theorem elsifs_reads (hbody : body.ReadsWithin n fun _ => Block (Appends R) []) :
    (loop (nextElsif body) []).ReadsWithin n fun _ => Elsifs R := by
  refine (loop_reads (elsifTurn_reads hbody) (fun h => by cases h; simp) []).congr
    fun prev ts next es => ?_
  rw [loop_elsifTurn_iff]
  simp

theorem parseBranch_reads {place : Place}
    (hbody : (indented (statement place.block)).ReadsWithin n fun _ => Block (Appends R) []) :
    (parseBranch statement place).ReadsWithin (n + 1) fun _ => BranchLevel R := by
  have hclose (start : Span) (condition : Expr) (first : List Stmt) (elsifs : List Elsif)
      (hasElse : Bool) (otherwise : List Stmt) :=
        (closeBlock_reads (n := n) start).result fun span =>
    Stmt.branch condition first elsifs otherwise hasElse span
  have helse (start : Span) (condition : Expr) (first : List Stmt) (elsifs : List Elsif) :
      (do
        let hasElse ← accept (.keyword .elseWord)
        let otherwise ← if hasElse then indented (statement place.block) else pure []
        return .branch condition first elsifs otherwise hasElse (← closeBlock start) :
          Parser Stmt).ReadsWithin n fun _ ts next s => ∃ xs ys hasElse otherwise span,
          ts = xs ++ ys ∧
            Otherwise R xs (ys.headD next) (hasElse, otherwise) ∧ Closing start ys next span ∧
            s = .branch condition first elsifs otherwise hasElse span := by
    refine (accept_bind (by simp) fun hasElse => .ite
      (fun _ => hbody.bind fun otherwise => hclose start condition first elsifs hasElse otherwise)
      fun _ => (pure_reads []).bind fun otherwise =>
        hclose start condition first elsifs hasElse otherwise).congr fun prev ts next s => ?_
    constructor
    · rintro (⟨t, _, rfl, ht, us, ys, otherwise, rfl, hb, span, hc, rfl⟩ |
        ⟨hn, _, ys, _, rfl, ⟨rfl, rfl⟩, span, hc, rfl⟩)
      · exact ⟨t :: us, ys, true, otherwise, span, rfl, .some ht hb, hc, rfl⟩
      · exact ⟨[], ys, false, [], span, rfl, .none hn, hc, rfl⟩
    · rintro ⟨xs, ys, hasElse, otherwise, span, rfl, ho, hc, rfl⟩
      cases ho with
      | none hn => exact .inr ⟨hn, [], ys, [], rfl, ⟨rfl, rfl⟩, span, hc, rfl⟩
      | some ht hb => exact .inl ⟨_, _, rfl, ht, _, ys, otherwise, rfl, hb, span, hc, rfl⟩
  refine (here_bind fun start => (expectKeyword_reads .ifWord).token_bind (fun _ =>
    Expr.parse_reads.bind fun condition => hbody.bind fun first => (elsifs_reads hbody).bind
      fun elsifs => helse start condition first elsifs) (Nat.le_refl _)).congr
      fun prev ts next s => ?_
  constructor
  · rintro ⟨t, _, _, rfl, ht, us, _, condition, rfl, he, vs, _, first, rfl, hb, ws, _, elsifs, rfl,
      hs, xs, ys, hasElse, otherwise, span, rfl, ho, hc, rfl⟩
    simp only [← List.append_assoc] at he hb
    have h := BranchLevel.mk ht he hb hs ho hc
    simpa only [List.cons_append, List.append_assoc] using h
  · intro h
    cases h with
    | @mk t us vs ws xs ys _ condition first elsifs otherwise hasElse span ht he hb hs ho hc =>
      simp only [List.append_assoc] at he hb
      exact ⟨t, us ++ (vs ++ (ws ++ (xs ++ ys))), (),
        by simp only [List.cons_append, List.append_assoc], ht, us, _, condition, rfl, he, vs, _,
        first, rfl, hb, ws, _, elsifs, rfl, hs, xs, ys, hasElse, otherwise, span, rfl, ho, hc, rfl⟩

end Branch

theorem parseWith_sound {place : Place}
    (hS : ∀ place, (statement place).ReadsWithin n fun _ => S place)
    (hne : ∀ {place ts next s}, S place ts next s → ts ≠ []) (hc : c.Closed)
    (hl : c.ahead.length < n + 1) (h : (parseWith statement place).run c = .ok (s, c')) :
    ∃ ts, c.Passes ts c' ∧ StatementLevel S place ts c'.cur s := by
  have htext (ht : c.cur.lexeme.isText = true)
      (h : (parseAssigned c.cur.span fun e => .give (some e)).run c = .ok (s, c')) :
      ∃ ts, c.Passes ts c' ∧ StatementLevel S place ts c'.cur s := by
    obtain ⟨_, hp, ⟨he⟩, hle⟩ := (parseAssigned_reads c.cur.span _ hc hl).1 h
    obtain ⟨t, us, rfl⟩ := List.exists_cons_of_ne_nil he.starts.ne_nil
    obtain rfl := hp.cur_cons
    exact ⟨_, hp, .sentence (.mk (.text ht (.mk he)) hle)⟩
  rw [parseWith, run_bind_ok (run_current c)] at h
  split at h
  · obtain ⟨ts, hp, f, hf, rfl⟩ := ((FunctionOf.parseWith_reads hS hne).result _ hc hl).1 h
    exact ⟨ts, hp, .function hf⟩
  · obtain ⟨ts, hp, d, hd, rfl⟩ := ((ClassOf.parseWith_reads hS hne).result _ hc hl).1 h
    exact ⟨ts, hp, .classDecl hd⟩
  · cases hn : place.nested with
    | true => rw [hn] at h; cases h
    | false =>
      rw [hn] at h
      obtain ⟨ts, hp, d, hd, rfl⟩ := ((ComponentOf.parseWith_reads hS hne).result _ hc hl).1 h
      exact ⟨ts, hp, .component hn hd⟩
  · obtain ⟨_, hp, t, us, rfl, ht, hv, hle⟩ := (parsePrint_reads hc hl).1 h
    exact ⟨_, hp, .sentence (.mk (Sentence.print ht hv) hle)⟩
  · obtain ⟨_, hp, t, us, rfl, ht, ⟨hv, hle⟩ | ⟨hle, rfl⟩⟩ := (parseGive_reads hc hl).1 h
    · exact ⟨_, hp, .sentence (.mk (Sentence.give ht hv) hle)⟩
    · exact ⟨[t] ++ us, hp, .sentence (.mk (.giveNothing ht) hle)⟩
  · obtain ⟨ts, hp, hb⟩ := (parseBranch_reads (body_reads hS hne place.block) hc hl).1 h
    exact ⟨ts, hp, .branch hb⟩
  · cases h
  · next ht =>
    obtain ⟨ts, hp, hs⟩ := parseIdentifier_sound hc ht h
    exact ⟨ts, hp, .sentence hs⟩
  · next ht =>
    obtain ⟨ts, hp, hs⟩ := parseInstanceVar_sound hc ht h
    exact ⟨ts, hp, .sentence hs⟩
  · next ht => exact htext (by rw [ht]; rfl) h
  · next ht => exact htext (by rw [ht]; rfl) h
  · cases h

theorem parseWith_complete {place : Place} {ts : List Token}
    (hS : ∀ place, (statement place).ReadsWithin n fun _ => S place)
    (hne : ∀ {place ts next s}, S place ts next s → ts ≠ []) (hc : c.Closed)
    (hl : c.ahead.length < n + 1) (hp : c.Passes ts c') (h : StatementLevel S place ts c'.cur s) :
    (parseWith statement place).run c = .ok (s, c') := by
  cases h with
  | function hf =>
    have ht : c.cur.lexeme = .keyword .defWord := by
      cases hf with | mk ht _ _ _ _ _ => rwa [hp.cur_cons]
    rw [parseWith, run_bind_ok (run_current c), ht]
    exact ((FunctionOf.parseWith_reads hS hne).result _ hc hl).2 ⟨ts, hp, _, hf, rfl⟩
  | classDecl hd =>
    have ht : c.cur.lexeme = .keyword .classWord := by
      cases hd with | mk ht _ _ _ => rwa [hp.cur_cons]
    rw [parseWith, run_bind_ok (run_current c), ht]
    exact ((ClassOf.parseWith_reads hS hne).result _ hc hl).2 ⟨ts, hp, _, hd, rfl⟩
  | component hn hd =>
    have ht : c.cur.lexeme = .keyword .component := by
      cases hd with | mk ht _ _ _ => rwa [hp.cur_cons]
    rw [parseWith, run_bind_ok (run_current c), ht]
    simp only [hn]
    exact ((ComponentOf.parseWith_reads hS hne).result _ hc hl).2 ⟨ts, hp, _, hd, rfl⟩
  | branch hb =>
    have ht : c.cur.lexeme = .keyword .ifWord := by
      cases hb with | mk ht _ _ _ _ _ => rwa [hp.cur_cons]
    rw [parseWith, run_bind_ok (run_current c), ht]
    exact (parseBranch_reads (body_reads hS hne place.block) hc hl).2 ⟨ts, hp, hb⟩
  | sentence hs => exact sentence_complete hc hp hs

theorem parseWithin_reads (n : Nat) (place : Place) :
    (parseWithin n place).ReadsWithin n fun _ => StatementRule place := by
  induction n generalizing place with
  | zero => exact fun _ _ _ _ hl => absurd hl (Nat.not_lt_zero _)
  | succ n ih =>
    intro c c' s hc hl
    have hne {place ts next s} (h : StatementRule place ts next s) := h.starts.ne_nil
    simp only [statementRule_iff_level]
    exact ⟨parseWith_sound ih hne hc hl, fun ⟨_, hp, h⟩ => parseWith_complete ih hne hc hl hp h⟩

theorem parse_reads (place : Place) : (parse place).ReadsWithin n fun _ => StatementRule place :=
  bounded_reads fun n => parseWithin_reads n place

end Stmt

namespace Program

inductive Turn (body : List Stmt) : Token → Rule (List Stmt × Bool)
  | stop {prev next} : next.lexeme = .eof → Turn body prev [] next (body, false)
  | more {prev us ns next s} : StatementRule .top us (ns.headD next) s → Newlines ns →
    next.lexeme ≠ .newline → Turn body prev (us ++ ns) next (body ++ [s], true)

theorem parseNext_reads (body : List Stmt) : (parseNext body).ReadsWithin n (Turn body) := by
  refine (sees_bind fun b => .ite (fun _ => pure_reads (body, false)) fun _ =>
    (Stmt.parse_reads .top).bind fun s => skipNewlines_reads.result fun _ =>
      (body ++ [s], true)).congr fun prev ts next r => ?_
  constructor
  · intro h
    split at h
    · next heof =>
      obtain ⟨rfl, rfl⟩ := h
      exact .stop (by simpa using heof)
    · obtain ⟨us, ns, s, rfl, hs, _, ⟨hns, hnl⟩, rfl⟩ := h
      exact .more hs hns hnl
  · intro h
    cases h with
    | stop heof =>
      rw [if_pos (by simpa using heof)]
      exact ⟨rfl, rfl⟩
    | @more us ns _ _ hs hns hnl =>
      have heof : ((us ++ ns).headD next).lexeme ≠ .eof := (hs.starts.append ns).lexeme_ne rfl
      rw [if_neg (by rw [beq_iff_eq]; exact heof)]
      exact ⟨_, _, _, rfl, hs, (), ⟨hns, hnl⟩, rfl⟩

theorem loop_turn_iff {body body' : List Stmt} {prev next : Token} {ts : List Token} :
    Loop Turn body prev ts next body' ↔ ∃ ss, body' = body ++ ss ∧ Statements ts next ss := by
  constructor
  · intro h
    induction h with
    | stop ht =>
      cases ht with
      | stop heof => exact ⟨[], (List.append_nil _).symm, .nil heof⟩
    | more ht _ ih =>
      cases ht with
      | more hs hns _ =>
        obtain ⟨ss, rfl, hss⟩ := ih
        rw [← headD_append] at hs
        exact ⟨_ :: ss, by rw [List.append_assoc]; rfl, .cons hs hns hss⟩
  · rintro ⟨ss, rfl, h⟩
    induction h generalizing body prev with
    | nil heof =>
      rw [List.append_nil]
      exact .stop (.stop heof)
    | cons hs hns hss ih =>
      rw [headD_append] at hs
      rw [List.append_cons body]
      exact .more (.more hs hns hss.ne_newline) ih

theorem parse_reads : parse.ReadsWithin n fun _ => ProgramRule := by
  have hloop := loop_reads (n := n) parseNext_reads
    (fun h => by cases h with | more hs _ _ => exact (hs.starts.append _).ne_nil) []
  refine (skipNewlines_reads.bind fun _ => hloop.result Program.mk).congr fun prev ts next p => ?_
  constructor
  · rintro ⟨ns, us, _, rfl, ⟨hns, -⟩, body, h, rfl⟩
    obtain ⟨ss, rfl, hss⟩ := loop_turn_iff.1 h
    exact .mk hns hss
  · intro h
    cases h with
    | mk hns hss =>
      exact ⟨_, _, (), rfl, ⟨hns, hss.ne_newline⟩, _, loop_turn_iff.2 ⟨_, rfl, hss⟩, rfl⟩

/-- A program that is read from tokens which end in eof follows the grammar up to an eof. -/
theorem read_sound {ts : List Token} {last : Token} {p : Program} (hlast : last.lexeme = .eof)
    (h : read (ts ++ [last]) = .ok p) :
    ∃ us next rest, ts ++ [last] = us ++ next :: rest ∧ ProgramRule us next p := by
  obtain ⟨t, us, hts⟩ : ∃ t us, ts ++ [last] = t :: us := List.exists_cons_of_ne_nil (by simp)
  have hc : Cursor.Closed ⟨t, t, us⟩ := ⟨ts, last, hts.symm, hlast⟩
  rw [hts, read, Cursor.ofTokens?] at h
  cases hrun : parse.run ⟨t, t, us⟩ with
  | error e => simp only [hrun, reduceCtorEq] at h
  | ok r =>
    simp only [hrun, Except.ok.injEq] at h
    obtain ⟨p, c'⟩ := r
    subst h
    obtain ⟨vs, hp, hr⟩ := (parse_reads hc (Nat.lt_succ_self _)).1 hrun
    exact ⟨vs, c'.cur, c'.ahead, hts.trans hp.tokens, hr⟩

theorem read_complete {ts : List Token} {last : Token} {p : Program}
    (hlast : last.lexeme = .eof) (h : ProgramRule ts last p) : read (ts ++ [last]) = .ok p := by
  obtain ⟨t, us, hts⟩ : ∃ t us, ts ++ [last] = t :: us := List.exists_cons_of_ne_nil (by simp)
  have hc : Cursor.Closed ⟨t, t, us⟩ := ⟨ts, last, hts.symm, hlast⟩
  have hpasses : Cursor.Passes ⟨t, t, us⟩ ts ⟨ts.getLastD t, last, []⟩ := ⟨hts.symm, rfl⟩
  have hrun := (parse_reads hc (Nat.lt_succ_self _)).2 ⟨ts, hpasses, h⟩
  rw [hts, read, Cursor.ofTokens?]
  simp only [hrun]

end Program

end LayoutScript

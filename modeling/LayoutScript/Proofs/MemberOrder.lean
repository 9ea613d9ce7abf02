import LayoutScript.Proofs.MemberBlocks
import Mathlib.Algebra.BigOperators.Group.List.Basic
import Mathlib.Tactic.Choose

/-! The members of a component in another order. Blocks of different kinds may change places: the
text is still accepted, and its program is the same but for spans. -/
namespace LayoutScript

open LayoutScript.Token (Scans)

/-! ### Where statements start -/

section Cuts

variable {ts us vs ns : List Token} {t next next' : Token} {hs : List Lexeme} {s : Stmt}
  {body : List Stmt} {p : Program}

theorem Lexeme.isSolid_of_startsStatement {l : Lexeme} (h : l.startsStatement = true) :
    l.isSolid = true := by
  cases l <;> first | rfl | cases h

theorem Newlines.split_at {xs ys : List Token} (hns : Newlines ns) (ht : t.lexeme ≠ .newline)
    (heq : xs ++ (ns ++ ys) = us ++ t :: vs) :
    (∃ zs, xs = us ++ t :: zs) ∨ ∃ zs, us = xs ++ (ns ++ zs) ∧ ys = zs ++ t :: vs := by
  have hafter {as : List Token} (h : ns ++ ys = as ++ t :: vs) :
      ∃ zs, as = ns ++ zs ∧ ys = zs ++ t :: vs := by
    rcases List.append_eq_append_iff.1 h with hzs | ⟨bs, rfl, hbs⟩
    · exact hzs
    · cases bs with
      | nil => exact ⟨[], by simp, hbs.symm⟩
      | cons b bs =>
        obtain ⟨rfl, _⟩ := List.cons.inj hbs
        exact absurd (hns t (by simp)) ht
  rcases List.append_eq_append_iff.1 heq with ⟨as, rfl, has⟩ | ⟨as, rfl, has⟩
  · obtain ⟨zs, rfl, hys⟩ := hafter has
    exact .inr ⟨zs, rfl, hys⟩
  · cases as with
    | nil =>
      obtain ⟨zs, hzs, hys⟩ := @hafter [] has.symm
      exact .inr ⟨zs, by rw [← hzs, List.append_nil, List.append_nil], hys⟩
    | cons a as =>
      obtain ⟨rfl, _⟩ := List.cons.inj has
      exact .inl ⟨as, rfl⟩

theorem Statements.cut (h : Statements ts next body) (hlines : WholeLines ts) (htidy : Tidy ts)
    (heq : ts = us ++ t :: vs) (hwalk : Walks ⟨0, true⟩ us hs ⟨0, true⟩)
    (ht : t.lexeme.isSolid = true) (hdivides : t.lexeme.divides = false) :
    ∃ earlier rest, body = earlier ++ rest ∧ Statements (t :: vs) next rest ∧
      ∀ vs' next' rest', Statements (t :: vs') next' rest' →
        Statements (us ++ t :: vs') next' (earlier ++ rest') := by
  induction h generalizing us hs with
  | nil _ => simp at heq
  | @cons xs ns ys next s body hs' hns hss ih =>
    cases us with
    | nil =>
      refine ⟨[], s :: body, rfl, ?_, fun _ _ _ h => h⟩
      rw [List.nil_append] at heq
      rw [← heq]
      exact .cons hs' hns hss
    | cons u us =>
      have hlocal := hs'.anywhere hns hss hlines
      have houtlined : Outlined xs :=
        (hlocal t).outlined htidy.left.left (Lexeme.ne_of_isSolid ht rfl)
      rw [List.append_assoc] at heq
      rcases hns.split_at (Lexeme.ne_of_isSolid ht rfl) heq with ⟨zs, rfl⟩ | ⟨zs, hus, rfl⟩
      · -- Inside the first statement, only other words stand at the margin.
        have hu : u.lexeme.isSolid = true := by
          obtain ⟨_, _, hxs, hu⟩ := hs'.starts
          obtain ⟨rfl, _⟩ := List.cons.inj hxs
          exact Lexeme.isSolid_of_startsStatement hu
        rw [houtlined.divides hu hwalk ht] at hdivides
        cases hdivides
      · obtain ⟨_, l, ls, hwalk', _⟩ := houtlined
        rw [hus, ← List.append_assoc] at hwalk
        obtain ⟨_, hrest⟩ := hwalk.rest (hwalk'.append (.newlines hns))
        obtain ⟨earlier, rest, rfl, hstart, hjoin⟩ := ih hlines.of_append htidy.right rfl hrest
        refine ⟨s :: earlier, rest, rfl, hstart, ?_⟩
        intro vs' next' rest' h'
        rw [hus, ← List.append_assoc, List.append_assoc]
        exact .cons (hlocal _) hns (hjoin vs' next' rest' h')

theorem ProgramRule.cut (h : ProgramRule ts next p) (hlines : WholeLines ts) (htidy : Tidy ts)
    (heq : ts = us ++ t :: vs) (hwalk : Walks ⟨0, true⟩ us hs ⟨0, true⟩)
    (ht : t.lexeme.isSolid = true) (hdivides : t.lexeme.divides = false) :
    ∃ earlier rest, p.body = earlier ++ rest ∧ Statements (t :: vs) next rest ∧
      ∀ vs' next' rest', Statements (t :: vs') next' rest' →
        ProgramRule (us ++ t :: vs') next' ⟨earlier ++ rest'⟩ := by
  cases h with
  | @mk ns xs _ body hns hss =>
    rcases @Newlines.split_at _ _ _ _ [] _ hns (Lexeme.ne_of_isSolid ht rfl) heq with
      ⟨zs, hzs⟩ | ⟨zs, rfl, rfl⟩
    · simp at hzs
    · rw [List.nil_append] at hwalk
      obtain ⟨_, hrest⟩ := hwalk.rest (.newlines hns)
      obtain ⟨earlier, rest, hbody, hstart, hjoin⟩ :=
        hss.cut hlines.of_append htidy.right rfl hrest ht hdivides
      refine ⟨earlier, rest, hbody, hstart, ?_⟩
      intro vs' next' rest' h'
      rw [List.nil_append, List.append_assoc]
      exact .mk hns (hjoin vs' next' rest' h')

theorem Statements.anywhere (h : Statements ts next body) (hlines : WholeLines ts)
    (hnext : next'.lexeme = .eof) : Statements ts next' body := by
  induction h with
  | nil _ => exact .nil hnext
  | cons hs hns hss ih =>
    exact .cons (hs.anywhere hns hss hlines _) hns (ih hlines.of_append)

end Cuts

theorem check_of_scans {source : String} {code : List Char} {ts : List Token} {next : Token}
    {p : Program} (hscan : Scans source 1 .initial (Text.lines code) ts .initial)
    (hsize : ts.length < UInt32.size) (h : ProgramRule ts next p) : check source code = .ok p := by
  obtain ⟨last, htokens⟩ := hscan.gives.ofText
  have hlines : WholeLines ts := hscan.gives.newline.imp And.right id
  have hrule : ProgramRule ts ⟨.eof, last⟩ p := by
    cases h with
    | mk hns hss => exact .mk hns (hss.anywhere hlines.of_append rfl)
  exact check_eq_ok_iff.2 ⟨ts, _, htokens, by rw [List.length_append]; exact hsize, hrule⟩

/-! ### The component -/

section Components

variable {S : Place → Rule Stmt} {t next : Token} {ts us vs ws : List Token} {c : ComponentDecl}
  {body : List Stmt}

theorem Sentence.ne_component {place : Place} {s : Stmt} (h : Sentence place (t :: us) next s) :
    t.lexeme ≠ .keyword .component := by
  intro ht
  cases h with
  | text htext _ =>
    rw [ht] at htext
    cases htext
  | print h _ | give h _ | giveNothing h | assign h _ _ | access h _ _ | implicitGive _ h _ _ _
  | bareCall _ h | assignInstanceVar h _ _ | instanceCall h _ _ _ | instanceProperty h _ _ _ _ =>
    rw [ht] at h
    cases h

theorem StatementRule.component {s : Stmt} (h : StatementRule .top (t :: us) next s)
    (ht : t.lexeme = .keyword .component) :
    ∃ c, s = .component c ∧ ComponentLevel StatementRule (t :: us) next c := by
  have hother {k : Keyword} {u : Token} {vs : List Token} (heq : t :: us = u :: vs)
      (hu : u.lexeme = .keyword k) : k = .component := by
    obtain ⟨rfl, _⟩ := List.cons.inj heq
    rw [ht] at hu
    cases hu
    rfl
  generalize heq : t :: us = ts at h hother ⊢
  cases statementRule_iff_level.1 h with
  | function hf => cases hf with | mk hk _ _ _ _ _ => cases hother rfl hk
  | classDecl hc => cases hc with | mk hk _ _ _ => cases hother rfl hk
  | component _ hc => exact ⟨_, rfl, hc⟩
  | branch hb => cases hb with | mk hk _ _ _ _ _ => cases hother rfl hk
  | sentence hl =>
    cases hl with
    | mk hs _ =>
      obtain ⟨u, vs, rfl, _⟩ := hs.starts
      obtain ⟨rfl, _⟩ := List.cons.inj heq
      exact absurd ht hs.ne_component

theorem Statements.component (h : Statements (t :: vs) next body)
    (ht : t.lexeme = .keyword .component) :
    ∃ us ws c rest, vs = us ++ ws ∧ ComponentLevel StatementRule (t :: us) (ws.headD next) c ∧
      body = .component c :: rest ∧
      ∀ us' c', ComponentLevel StatementRule (t :: us') (ws.headD next) c' →
        Statements (t :: (us' ++ ws)) next (.component c' :: rest) := by
  generalize heq : t :: vs = ts at h
  cases h with
  | nil _ => cases heq
  | @cons us ns ws _ s rest hs hns hss =>
    obtain ⟨u, us, rfl, _⟩ := hs.starts
    rw [List.append_assoc] at heq
    obtain ⟨rfl, rfl⟩ := List.cons.inj heq
    obtain ⟨c, rfl, hc⟩ := hs.component ht
    refine ⟨us, ns ++ ws, c, rest, rfl, hc, rfl, ?_⟩
    intro us' c' hc'
    have hall := Statements.cons (statementRule_iff_level.2 (.component rfl hc')) hns hss
    rwa [List.append_assoc] at hall

theorem LineEnd.exists_newline {le : List Token} (h : LineEnd le next)
    (hnext : next.lexeme ≠ .eof) :
    ∃ newline, le = [newline] ∧ newline.lexeme = .newline := by
  cases h with
  | newline hn => exact ⟨_, rfl, hn⟩
  | eof heof => exact absurd heof hnext

theorem not_isSolid_of_newline (h : t.lexeme = .newline) : ¬t.lexeme.isSolid = true := by
  rw [h]
  simp [Lexeme.isSolid, Lexeme.kind, TokenKind.isLayout]

/-- A component with an indented line under its first one. The entries of its block may be
replaced. -/
theorem ComponentLevel.opened {text lead xs : List Token} {newline i : Token}
    (h : ComponentLevel S (t :: us) next c) (hsolid : Solid text) (hn : newline.lexeme = .newline)
    (hlead : Newlines lead) (hi : i.lexeme = .indent)
    (heq : us ++ ws = text ++ newline :: (lead ++ i :: xs)) :
    ∃ start es cl c₀, us = text ++ newline :: (lead ++ i :: (es ++ cl)) ∧ es ++ (cl ++ ws) = xs ∧
      Entries (ComponentMember S) start es (cl.headD next) c₀ ∧ c.bare = c₀.bare ∧
      ∀ lead' i' es' c', Newlines lead' → i'.lexeme = .indent →
        Entries (ComponentMember S) start es' (cl.headD next) c' →
        ∃ c'', ComponentLevel S (t :: (text ++ newline :: (lead' ++ i' :: (es' ++ cl)))) next c'' ∧
          c''.bare = c'.bare := by
  cases h with
  | @mk k nm bs cl _ name c₀ span hk ht hb hc =>
    have hname : Solid [nm] := .cons (isSolid_of_eq ht rfl) .nil
    have hindent : ¬i.lexeme = .newline := by simp [hi]
    cases hb with
    | @empty _ ns _ hle hns _ _ =>
      -- Then the line after the first one would close the component.
      obtain ⟨newline', rfl, hn'⟩ := hle.exists_newline (hns.headD_ne_eof (hc.head_ne_eof next))
      cases hc with
      | @mk ms e le _ hms he _ =>
        have hline : [nm] ++ newline' :: (ns ++ ms ++ e :: (le ++ ws)) =
            text ++ newline :: (lead ++ i :: xs) := by
          rw [← heq]
          simp
        obtain ⟨_, _, hblock⟩ := append_cons_inj hline hname hsolid (not_isSolid_of_newline hn')
          (not_isSolid_of_newline hn)
        have hns' : Newlines (ns ++ ms) := List.forall_mem_append.2 ⟨hns, hms⟩
        obtain ⟨_, rfl, _⟩ := append_cons_inj hblock hns' hlead (by simp [he]) hindent
        rw [he] at hi
        cases hi
    | @indented _ le ns i' es _ hle hns hi' hes =>
      obtain ⟨newline', rfl, hn'⟩ := hle.exists_newline (hns.headD_ne_eof (by simp [hi']))
      have hline : [nm] ++ newline' :: (ns ++ i' :: (es ++ (cl ++ ws))) =
          text ++ newline :: (lead ++ i :: xs) := by
        rw [← heq]
        simp
      obtain ⟨rfl, rfl, hblock⟩ := append_cons_inj hline hname hsolid (not_isSolid_of_newline hn')
          (not_isSolid_of_newline hn)
      obtain ⟨rfl, rfl, hxs⟩ := append_cons_inj hblock hns hlead (by simp [hi']) hindent
      refine ⟨_, es, cl, c₀, by simp, hxs, hes, rfl, ?_⟩
      intro lead' i' es' c' hlead' hi' hes'
      have hblock' := Block.indented (.newline hn') hlead' hi' hes'
      refine ⟨{ c' with span := span }, ?_, rfl⟩
      have hall := ComponentLevel.mk hk ht hblock' hc
      simpa only [List.append_assoc, List.cons_append, List.nil_append] using hall

end Components

/-! ### Texts -/

section Texts

variable {width : Nat} {source : String} {number : Nat} {levels : Levels}
  {code code' header : List Char} {before lines after : List (List Char)}
  {blocks blocks' : List (MemberBlock width)} {t next newline : Token}
  {ts us ws xs text : List Token} {c : ComponentDecl} {p : Program}

theorem scans_header (hmargin : Text.margin header = 0)
    (hheader : Text.keyword? header = some .component)
    (h : Scans source number .initial (before ++ header :: lines) ts levels) :
    ∃ us hs t text newline vs, ts = us ++ t :: (text ++ newline :: vs) ∧
      Walks ⟨0, true⟩ us hs ⟨0, true⟩ ∧ t.lexeme = .keyword .component ∧ Solid text ∧
      newline.lexeme = .newline ∧
      Scans source (number + before.length + 1) .initial lines vs levels ∧
      ∀ lines' vs' levels',
        Scans source (number + before.length + 1) .initial lines' vs' levels' →
        Scans source number .initial (before ++ header :: lines')
          (us ++ t :: (text ++ newline :: vs')) levels' := by
  obtain ⟨ts, _, levels₁, rfl, hbefore, hrest⟩ := h.split
  cases hrest with
  | @cons _ _ levels₂ _ _ _ _ vs hline hrest =>
  obtain ⟨layout, span, t, text, newline, rfl, hm, hsolid, hn, _, hkeyword⟩ :=
    Token.ofLine_text (Text.not_isSkipped_of_keyword? hheader) hline
  have ht := (hkeyword _).2 hheader
  rw [hmargin] at hm
  have hrising := (hbefore.rising Levels.initial_rising).move? hm
  obtain rfl := hrising.over_initial.eq_of_top Levels.initial_rising hrising (Levels.move?_top hm)
  obtain ⟨hover, hs, hwalk, _⟩ := hbefore.walks (List.suffix_refl _) fun _ _ => .inr (Nat.zero_le _)
  have hall := hwalk.append (Walks.layout span hm hover.size_le)
  rw [Nat.sub_self] at hall
  refine ⟨_, _, t, text, newline, vs, ?_, hall, ht, (List.forall_mem_cons.1 hsolid).2, hn,
    hrest, ?_⟩
  · simp
  · intro lines' vs' levels' h'
    have hscan := hbefore.append (.cons hline h')
    simpa using hscan

theorem MemberBlock.length_scans {number' : Nat} {levels' : Levels} {us : List Token}
    (hperm : blocks'.Perm blocks)
    (h : Scans source number (.inside width) (blocks.flatMap MemberBlock.lines) ts levels)
    (h' : Scans source number' (.inside width) (blocks'.flatMap MemberBlock.lines) us levels') :
    us.length = ts.length := by
  have hcount (b : MemberBlock width) : ∃ n, ∀ number vs levels,
      Scans source number (.inside width) b.lines vs levels → vs.length = n := by
    by_cases hscan : ∃ number vs levels, Scans source number (.inside width) b.lines vs levels
    · obtain ⟨number, vs, levels, hvs⟩ := hscan
      exact ⟨vs.length, fun _ _ _ h => hvs.length_eq h⟩
    · exact ⟨0, fun number vs levels h => absurd ⟨number, vs, levels, h⟩ hscan⟩
  choose count hcount using hcount
  have hsum {blocks : List (MemberBlock width)} {number : Nat} {ts : List Token} {levels : Levels}
      (h : Scans source number (.inside width) (blocks.flatMap MemberBlock.lines) ts levels) :
      ts.length = (blocks.map count).sum := by
    induction blocks generalizing number ts with
    | nil =>
      cases h
      rfl
    | cons b bs ih =>
      rw [List.flatMap_cons] at h
      obtain ⟨_, _, _, rfl, hb, hbs⟩ := h.split
      obtain ⟨rfl, -⟩ := MemberBlock.scans_gives hb
      rw [List.length_append, List.map_cons, List.sum_cons, hcount b _ _ _ hb, ih hbs]
  rw [hsum h, hsum h', (hperm.map count).sum_eq]

theorem ComponentLevel.reorder
    (h : ComponentLevel StatementRule (t :: us) next c) (htidy : Tidy us) (hsolid : Solid text)
    (hn : newline.lexeme = .newline)
    (hscan : Scans source number .initial (blocks.flatMap MemberBlock.lines) ts levels)
    (hne : blocks ≠ []) (heq : us ++ ws = text ++ newline :: (ts ++ xs))
    (horder : MemberBlock.Reordered blocks blocks') :
    levels = .inside width ∧ ∃ ts' more c', more ++ ws = xs ∧
      Scans source number .initial (blocks'.flatMap MemberBlock.lines) ts' (.inside width) ∧
      ComponentLevel StatementRule (t :: (text ++ newline :: (ts' ++ more))) next c' ∧
      c.bare = c'.bare ∧ ts'.length = ts.length := by
  have hne' : blocks' ≠ [] := fun hnil => hne (horder.perm.symm.trans (hnil ▸ .refl _)).eq_nil
  obtain ⟨lead, i, vs, rfl, hlead, hi, hinside⟩ := MemberBlock.scans_enter hne hscan
  rw [List.append_assoc, List.cons_append] at heq
  obtain ⟨start, es, cl, c₀, rfl, hxs, hes, hc₀, hreplace⟩ := h.opened hsolid hn hlead hi heq
  have htidy' : Tidy es := htidy.right.tail.right.tail.left
  have hall : lead ++ es ++ (cl ++ ws) = lead ++ vs ++ xs := by
    rw [List.append_assoc, List.append_assoc, hxs]
  obtain ⟨rfl, es', d, _, hmore, hbuilds, hrest⟩ :=
    MemberBlock.Builds.of_entries hinside (hlead.tidy_append htidy') (hes.pad hlead) hall
  -- The blocks in their new order, and then the entries after them.
  obtain ⟨_, d', hinside', hd', hentries⟩ := (hbuilds.reorder horder).entries number rfl
  obtain ⟨c₁, hrest', hc₁⟩ := hrest.replay hd'.symm
  obtain ⟨lead', i', vs', rfl, hlead', hi', hscan'⟩ := MemberBlock.scans_leave hne' hinside'
  have hes' := hentries _ _ _ hrest'
  rw [List.append_assoc] at hes'
  obtain ⟨c', hc', hbare⟩ := hreplace lead' i' _ c₁ hlead' hi' (hes'.unpad hlead')
  refine ⟨rfl, lead' ++ i' :: vs', es' ++ cl, c', ?_, hscan', ?_, ?_, ?_⟩
  · rw [List.append_assoc, hmore]
  · simpa only [List.append_assoc, List.cons_append] using hc'
  · rw [hc₀, hc₁, hbare]
  · have hlength := MemberBlock.length_scans horder.perm hinside hinside'
    simp only [List.length_append, List.length_cons] at hlength ⊢
    omega

theorem check_of_reordered (hmargin : Text.margin header = 0)
    (hheader : Text.keyword? header = some .component)
    (hcode : Text.lines code = before ++ header :: (blocks.flatMap MemberBlock.lines ++ after))
    (hcode' : Text.lines code' = before ++ header :: (blocks'.flatMap MemberBlock.lines ++ after))
    (horder : MemberBlock.Reordered blocks blocks') (h : check source code = .ok p) :
    ∃ q, check source code' = .ok q ∧ p.bare = q.bare := by
  obtain ⟨ts, next, hscan, hlines, hsize, hrule⟩ := check_scans h
  by_cases hne : blocks = []
  · subst hne
    obtain rfl := horder.perm.eq_nil
    rw [hcode, ← hcode'] at hscan
    exact ⟨p, check_of_scans hscan hsize hrule, rfl⟩
  have htidy := hscan.tidy
  rw [hcode] at hscan
  obtain ⟨us, hs, t, text, newline, _, rfl, hwalk, ht, hsolid, hn, hrest, hjoin⟩ :=
    scans_header hmargin hheader hscan
  obtain ⟨ts, xs, levels, rfl, hblocks, hafter⟩ := hrest.split
  obtain ⟨earlier, _, hbody, hstart, hprogram⟩ :=
    hrule.cut hlines htidy rfl hwalk (isSolid_of_eq ht rfl) (by rw [ht]; rfl)
  obtain ⟨vs, ws, c, others, hvs, hc, rfl, hstatements⟩ := hstart.component ht
  have htidy' : Tidy (vs ++ ws) := hvs ▸ htidy.right.tail
  obtain ⟨rfl, ts', more, c', rfl, hblocks', hc', hbare, hcount⟩ :=
    hc.reorder htidy'.left hsolid hn hblocks hne hvs.symm horder
  have hlength : (blocks.flatMap MemberBlock.lines).length =
      (blocks'.flatMap MemberBlock.lines).length :=
    (horder.perm.flatMap_right _).length_eq.symm
  rw [hlength] at hafter
  have hscan' := hjoin _ _ _ (hblocks'.append hafter)
  rw [← hcode'] at hscan'
  have hrule' := hprogram _ _ _ (hstatements _ c' hc')
  rw [List.append_assoc, List.cons_append, List.append_assoc] at hrule'
  have hsize' : (us ++ t :: (text ++ newline :: (ts' ++ (more ++ ws)))).length < UInt32.size := by
    simpa only [List.length_append, List.length_cons, hcount] using hsize
  refine ⟨_, check_of_scans hscan' hsize' hrule', ?_⟩
  obtain ⟨body⟩ := p
  obtain rfl : body = earlier ++ .component c :: others := hbody
  apply congrArg Program.mk
  rw [List.map_append, List.map_append, List.map_cons, List.map_cons, Stmt.mapSpan_component,
    Stmt.mapSpan_component]
  exact congrArg (fun c => _ ++ Stmt.component c :: _) hbare

end Texts

end LayoutScript

import LayoutScript.Proofs.MemberOrder

/-! The lines of a component. In every text that is accepted, they are its first line, one group of
lines for each of its members and its last line, so all its members may be reordered. -/
namespace LayoutScript

open LayoutScript.Token (Scans)

/-! ### Lines of tokens -/

namespace Token

variable {source : String} {number : Nat} {base levels levels' : Levels} {line : List Char}
  {lines : List (List Char)} {tokens ts us ns : List Token} {t : Token}

theorem ofLine_line (h : ofLine source number levels line = .ok (tokens, levels')) :
    ∃ ts newline, tokens = ts ++ [newline] ∧ newline.lexeme = .newline ∧
      ∀ t ∈ ts, t.lexeme ≠ .newline := by
  rcases ofLine_cases h with ⟨_, rfl, _⟩ | ⟨_, layout, chars, span, hm, hc, rfl⟩
  · exact ⟨[], _, rfl, rfl, by simp⟩
  · obtain ⟨text, newline, rfl, hn, hsolid⟩ := ofChars_tokens hc
    refine ⟨layout.map (⟨·, span⟩) ++ text, newline, by simp, hn, ?_⟩
    intro t ht
    rcases List.mem_append.1 ht with ht | ht
    · obtain ⟨l, hl, rfl⟩ := List.mem_map.1 ht
      exact (move?_solid hm l hl).2
    · exact Lexeme.ne_of_isSolid (hsolid t ht) rfl

/-- What starts with a line and goes on with others has all of its tokens, if it ends where a line
does. -/
theorem exists_line {newline n : Token} (ht : ∀ t ∈ ts, t.lexeme ≠ .newline)
    (hn : n.lexeme = .newline) (heq : ts ++ newline :: us = tokens ++ n :: ns) :
    ∃ more, tokens ++ [n] = ts ++ newline :: more := by
  rcases List.append_eq_append_iff.1 heq with ⟨as, rfl, has⟩ | ⟨as, rfl, has⟩
  · cases as with
    | nil =>
      obtain ⟨rfl, _⟩ := List.cons.inj has
      exact ⟨[], by simp⟩
    | cons a as =>
      obtain ⟨rfl, _⟩ := List.cons.inj has
      exact ⟨as ++ [n], by simp⟩
  · cases as with
    | nil =>
      obtain ⟨rfl, _⟩ := List.cons.inj has
      exact ⟨[], by simp⟩
    | cons a as =>
      obtain ⟨rfl, _⟩ := List.cons.inj has
      exact absurd hn (ht n (by simp))

namespace Scans

theorem cut (h : Scans source number levels lines tokens levels') (hts : WholeLines ts)
    (heq : tokens = ts ++ us) :
    ∃ before after levels₁, lines = before ++ after ∧ Scans source number levels before ts levels₁ ∧
      Scans source (number + before.length) levels₁ after us levels' := by
  induction h generalizing ts with
  | nil =>
    obtain ⟨rfl, rfl⟩ := List.nil_eq_append_iff.1 heq
    exact ⟨[], [], _, rfl, .nil, .nil⟩
  | @cons number levels levels₁ levels' line lines vs ws hline hrest ih =>
    rcases hts with rfl | ⟨xs, n, rfl, hn⟩
    · rw [List.nil_append] at heq
      exact ⟨[], line :: lines, _, rfl, .nil, heq ▸ .cons hline hrest⟩
    · obtain ⟨vs, newline, rfl, hnewline, hvs⟩ := ofLine_line hline
      rw [List.append_assoc, List.append_assoc] at heq
      obtain ⟨more, hmore⟩ := exists_line hvs hn heq
      have hlines : WholeLines more := by
        have hall : WholeLines (vs ++ [newline] ++ more) := by
          rw [List.append_assoc]
          exact .inr ⟨xs, n, hmore.symm, hn⟩
        exact hall.of_append
      have hws : ws = more ++ us := by
        have hall : vs ++ [newline] ++ ws = vs ++ [newline] ++ (more ++ us) := by
          calc vs ++ [newline] ++ ws = xs ++ [n] ++ us := by simpa using heq
            _ = vs ++ [newline] ++ (more ++ us) := by rw [hmore]; simp
        exact List.append_cancel_left hall
      obtain ⟨before, after, levels₂, rfl, hbefore, hafter⟩ := ih hlines hws
      refine ⟨line :: before, after, levels₂, rfl, ?_, ?_⟩
      · have hall := Scans.cons hline hbefore
        rwa [List.append_assoc, List.singleton_append, ← hmore] at hall
      · rwa [List.length_cons, Nat.add_comm before.length, ← Nat.add_assoc]

theorem remarks (h : Scans source number levels lines ns levels') (hns : Newlines ns) :
    (∀ line ∈ lines, Text.IsRemark line) ∧ levels' = levels := by
  induction h with
  | nil => exact ⟨by simp, rfl⟩
  | @cons _ levels _ _ line lines ts us hline _ ih =>
    obtain ⟨hfirst, hrest⟩ := List.forall_mem_append.1 hns
    cases hskip : isSkipped line with
    | true =>
      obtain ⟨_, rfl⟩ := ofLine_newline hskip hline
      obtain ⟨hlines, rfl⟩ := ih hrest
      exact ⟨List.forall_mem_cons.2 ⟨isSkipped_iff_isRemark.1 hskip, hlines⟩, rfl⟩
    | false =>
      obtain ⟨layout, span, t, text, newline, rfl, _, hsolid, _⟩ := ofLine_text hskip hline
      exact absurd (hfirst t (by simp)) (Lexeme.ne_of_isSolid (hsolid t List.mem_cons_self) rfl)

theorem cut_remarks (h : Scans source number levels lines (ns ++ us) levels') (hns : Newlines ns) :
    ∃ remarks rest, lines = remarks ++ rest ∧ (∀ line ∈ remarks, Text.IsRemark line) ∧
      Scans source number levels remarks ns levels ∧
      Scans source (number + remarks.length) levels rest us levels' := by
  obtain ⟨remarks, rest, levels₁, rfl, hbefore, hafter⟩ := h.cut hns.wholeLines rfl
  obtain ⟨hremarks, rfl⟩ := hbefore.remarks hns
  exact ⟨remarks, rest, rfl, hremarks, hbefore, hafter⟩

theorem first (h : Scans source number levels lines (t :: us) levels')
    (ht : t.lexeme.isSolid = true) :
    ∃ line rest text newline vs, lines = line :: rest ∧ us = text ++ newline :: vs ∧
      Text.margin line = levels.top ∧ Solid text ∧ newline.lexeme = .newline ∧
      t.span.lineStart = .ofNat number ∧
      (∀ k, t.lexeme = .keyword k → Text.keyword? line = some k) ∧
      Scans source number levels [line] (t :: text ++ [newline]) levels ∧
      Scans source (number + 1) levels rest vs levels' := by
  generalize htokens : t :: us = tokens at h
  cases h with
  | nil => cases htokens
  | @cons _ _ levels₁ _ line rest ts vs hline hrest =>
    cases hskip : isSkipped line with
    | true =>
      rcases ofLine_cases hline with ⟨_, rfl, _⟩ | ⟨hskip', _⟩
      · obtain ⟨rfl, _⟩ := List.cons.inj htokens
        cases ht
      · rw [hskip] at hskip'
        cases hskip'
    | false =>
      have hscan := Scans.cons hline (.nil)
      obtain ⟨layout, span, t', text, newline, rfl, hm, hsolid, hn, hstart, hkeyword⟩ :=
        ofLine_text hskip hline
      cases layout with
      | cons l layout =>
        obtain ⟨rfl, _⟩ := List.cons.inj htokens
        have hlayout : l.isSolid = false := (move?_solid hm l List.mem_cons_self).1
        exact absurd ht (by simp [hlayout])
      | nil =>
        obtain ⟨rfl, rfl⟩ := List.cons.inj htokens
        obtain ⟨rfl, htop⟩ := Levels.move?_nil hm
        refine ⟨line, rest, text, newline, vs, rfl, by simp, htop.symm,
          (List.forall_mem_cons.1 hsolid).2, hn, hstart, fun k => (hkeyword k).1, ?_, hrest⟩
        simpa using hscan

theorem deeper (h : Scans source number levels lines ts levels') (hover : base.Over levels)
    (hb : base.Rising) (hl : levels.Rising)
    (hheads : Standing.heads ⟨levels.size - base.size, true⟩ ts = []) :
    ∀ line ∈ lines, Text.IsRemark line ∨ base.top < Text.margin line := by
  induction h with
  | nil => simp
  | @cons number levels levels₁ levels' line lines ts us hline hrest ih =>
    rw [Standing.heads_append, List.append_eq_nil_iff] at hheads
    have hdeeper : isSkipped line = true ∨ base.top < Text.margin line := by
      cases hskip : isSkipped line with
      | true => exact .inl rfl
      | false =>
        apply Or.inr
        apply Nat.lt_of_not_le
        intro hle
        obtain ⟨layout, span, t, text, newline, rfl, hm, hsolid, _⟩ := ofLine_text hskip hline
        have hsize := hover.size_move?_le hb hl hle hm
        have hwalk := Walks.layout span hm hover.size_le
        rw [Nat.sub_eq_zero_of_le hsize] at hwalk
        have hnone := hheads.1
        rw [Standing.heads_append, hwalk.pass, List.cons_append, Standing.heads,
          hsolid t List.mem_cons_self] at hnone
        simp at hnone
    obtain ⟨hover₁, hs, hwalk, _⟩ := ofLine_walks hover (hdeeper.imp_right Nat.le_of_lt) hline
    have hl₁ : levels₁.Rising := (Scans.cons hline .nil).rising hl
    rw [hwalk.pass] at hheads
    exact List.forall_mem_cons.2 ⟨hdeeper.imp_left isSkipped_iff_isRemark.1, ih hover₁ hl₁ hheads.2⟩

end Scans

end Token

theorem Walks.not_endsSolid {m : Standing} {ts : List Token} {hs : List Lexeme} {d : Nat}
    (h : Walks m ts hs ⟨d, true⟩) : ¬EndsSolid ts := by
  rintro ⟨us, t, rfl, ht⟩
  have hpass := h.pass
  rw [Standing.pass_append] at hpass
  have hlast : ((m.pass us).pass [t]).fresh = false :=
    congrArg Standing.fresh (Standing.step_of_isSolid ht _)
  rw [hpass] at hlast
  cases hlast

/-! ### The lines of members -/

section Members

variable {width : Nat} {source : String} {number : Nat} {levels levels' : Levels}
  {lines remarks : List (List Char)} {S : Place → Rule Stmt} {t next e n newline : Token}
  {us vs xs zs text core es : List Token} {hs : List Lexeme} {k : Keyword} {c c' : ComponentDecl}

theorem Solid.endsSolid (ht : t.lexeme.isSolid = true) (h : Solid us) : EndsSolid (t :: us) := by
  rcases List.eq_nil_or_concat us with rfl | ⟨vs, u, rfl⟩
  · exact .singleton ht
  · rw [List.concat_eq_append] at h ⊢
    exact ⟨t :: vs, u, rfl, h u (by simp)⟩

theorem eq_of_last_line (hvs : ¬EndsSolid vs) (ht : t.lexeme.isSolid = true) (htext : Solid text)
    (heq : vs ++ [e, n] = xs ++ (t :: text ++ [newline])) : vs = xs ∧ e = t := by
  rcases List.eq_nil_or_concat text with rfl | ⟨more, u, rfl⟩
  · obtain ⟨rfl, hlast⟩ := List.append_inj' heq rfl
    exact ⟨rfl, (List.cons.inj hlast).1⟩
  · rw [List.concat_eq_append] at heq htext
    have hall : vs ++ [e, n] = xs ++ t :: more ++ [u, newline] := by simpa using heq
    obtain ⟨rfl, _⟩ := List.append_inj' hall rfl
    have hmore : Solid more := fun v hv => htext v (by simp [hv])
    exact absurd (hmore.endsSolid ht).append hvs

theorem close_line (hl : levels.Rising)
    (hover : (Levels.inside width).Over levels) {layout : List Lexeme} {span : Span} {m : Nat}
    (hm : levels.move? m = some (layout, levels'))
    (hwalk : Walks ⟨levels.size - 1, true⟩ (layout.map (⟨·, span⟩)) hs ⟨1, true⟩) :
    levels' = .inside width ∧ m = width := by
  have hsize : levels'.size - 1 = 1 := by
    have hlayout := Walks.layout span hm hl.size_pos
    exact congrArg Standing.depth (hlayout.pass.symm.trans hwalk.pass)
  have hsame : levels' = .inside width := by
    apply hover.eq_of_size hm
    show levels'.size = 2
    omega
  subst hsame
  exact ⟨rfl, (Levels.move?_top hm).symm⟩

theorem Enclosed.opens (h : Enclosed k (t :: us)) (ht : t.lexeme.isSolid = true) :
    t.lexeme = .keyword k := by
  obtain ⟨vs, e, n, heq, _, _, hwalk, _⟩ := h
  have hnotes := hwalk.heads
  cases vs with
  | nil => cases hnotes
  | cons v vs =>
    obtain ⟨rfl, _⟩ := List.cons.inj heq
    rw [Standing.heads, ht] at hnotes
    exact (List.cons.inj hnotes).1

theorem Enclosed.wholeLines (h : Enclosed k us) : WholeLines us := by
  obtain ⟨vs, e, n, rfl, _, hn, _⟩ := h
  exact .inr ⟨vs ++ [e], n, by simp, hn⟩

theorem Enclosed.block (hwidth : 0 < width) (h : Enclosed k (t :: us))
    (hsolid : t.lexeme.isSolid = true) (hremarks : ∀ line ∈ remarks, Text.IsRemark line)
    (hscan : Scans source number (.inside width) lines (t :: us) levels) :
    levels = .inside width ∧ ∃ b : MemberBlock width, b.lines = remarks ++ lines := by
  have hbase : (Levels.inside width).Rising := Levels.initial_rising.push hwidth
  have ht := h.opens hsolid
  obtain ⟨vs, e, n, hcore, he, _, hwalk, hdeep⟩ := h
  replace hcore := hcore.symm
  obtain ⟨head, rest, text, newline, ws, rfl, rfl, hmargin, htext, hnewline, _, hkeyword, hfirst,
    hrest⟩ := hscan.first hsolid
  have hend : Hangs [newline] := fun d b => .newline hnewline
  have hhead := hend.head hsolid htext
  rcases List.eq_nil_or_concat rest with rfl | ⟨inner, close, rfl⟩
  · -- The word that closes the member does not stand in its first line.
    cases hrest
    obtain ⟨rfl, _⟩ :=
      @eq_of_last_line t e n newline vs [] text hwalk.not_endsSolid hsolid htext hcore
    cases hwalk.heads
  · rw [List.concat_eq_append] at hrest
    obtain ⟨iu, cu, levels₁, rfl, hinner, hclose⟩ := hrest.split
    generalize hcu : cu = cu' at hclose
    cases hclose with
    | @cons _ _ _ _ _ _ ts _ hline hnil =>
    cases hnil
    rw [List.append_nil] at hcu
    subst hcu
    have hbefore : WholeLines (t :: text ++ [newline] ++ iu) :=
      (hfirst.append hinner).gives.newline.imp And.right id
    cases hskip : isSkipped close with
    | true =>
      -- Then a newline token stands before the one of that line.
      obtain ⟨n', rfl⟩ : ∃ n', cu = [n'] := by
        rw [Token.ofLine, if_pos hskip] at hline
        cases hline
        exact ⟨_, rfl⟩
      have hall : vs ++ [e] ++ [n] = t :: text ++ [newline] ++ iu ++ [n'] := by
        rw [List.append_assoc]
        simpa using hcore
      rw [← (List.append_inj' hall rfl).1] at hbefore
      exact absurd ⟨vs, e, rfl, isSolid_of_eq he rfl⟩ hbefore.not_endsSolid
    | false =>
      obtain ⟨layout, span, e', more, n', rfl, hm, hlast, _, _, hkeyword'⟩ :=
        Token.ofLine_text hskip hline
      obtain ⟨he', hmore⟩ := List.forall_mem_cons.1 hlast
      have hall : vs ++ [e, n] =
          t :: text ++ [newline] ++ iu ++ layout.map (⟨·, span⟩) ++ (e' :: more ++ [n']) := by
        rw [hcore]
        simp
      obtain ⟨rfl, rfl⟩ := eq_of_last_line hwalk.not_endsSolid he' hmore hall
      have hheads : Standing.heads ⟨0, true⟩ iu = [] := by
        have hnotes := hwalk.heads
        rw [List.append_assoc, Standing.heads_append, hhead.heads, hhead.pass, ht,
          Standing.heads_append] at hnotes
        exact (List.append_eq_nil_iff.1 (List.append_right_eq_self.1 hnotes)).1
      have hdeeper := hinner.deeper (List.suffix_refl _) hbase hbase (by rwa [Nat.sub_self])
      obtain ⟨hover, _⟩ := hinner.walks (List.suffix_refl _) fun line hline =>
        (hdeeper line hline).imp isSkipped_iff_isRemark.2 Nat.le_of_lt
      -- One level further out, the walk comes back to where it began.
      obtain ⟨_, _, hwalk', _⟩ := hinner.walks hbase.over_initial fun _ _ => .inr (Nat.zero_le _)
      obtain ⟨_, hlayout⟩ := (hdeep 0).rest ((hend.deep (.cons hsolid htext) 0).append hwalk')
      obtain ⟨rfl, hclose⟩ := close_line (hinner.rising hbase) hover hm hlayout
      refine ⟨rfl, ⟨k, remarks, head, inner, close, [], hwidth, hremarks, hmargin, hkeyword k ht,
        hdeeper, hclose, (hkeyword' _).1 he, by simp⟩, ?_⟩
      simp [MemberBlock.lines]

/-- The lines of a block of members: blocks for them, and remarks before the line that closes it. -/
theorem Entries.blocks (hwidth : 0 < width) (hS : StatementsDeep S) (htidy : Tidy es)
    (h : Entries (ComponentMember S) c es next c')
    (hscan : Scans source number (.inside width) lines (es ++ zs) levels) :
    ∃ (blocks : List (MemberBlock width)) (remarks rest : List (List Char)) (number' : Nat)
    (d : Token),
      lines = blocks.flatMap MemberBlock.lines ++ (remarks ++ rest) ∧
        (∀ line ∈ remarks, Text.IsRemark line) ∧ d.lexeme = .dedent ∧
        Scans source number' (.inside width) rest (d :: zs) levels := by
  induction h generalizing number lines with
  | close hns hd =>
    rw [List.append_assoc] at hscan
    obtain ⟨remarks, rest, rfl, hremarks, _, hrest⟩ := hscan.cut_remarks hns
    exact ⟨[], remarks, rest, _, _, rfl, hremarks, hd, hrest⟩
  | @entry c c₁ c' ns t ts us next hns _ hm hes ih =>
    simp only [List.append_assoc] at hscan
    obtain ⟨remarks, _, rfl, hremarks, _, hrest⟩ := hscan.cut_remarks hns
    obtain ⟨k, hk⟩ := hm.enclosed hS htidy.left.right (hes.head_ne_eof next)
    have ht : t.lexeme.isSolid = true := by
      obtain ⟨m, hrule, _⟩ := componentMember_iff.1 hm
      obtain ⟨_, _, heq, ht⟩ := hrule.opens
      obtain ⟨rfl, _⟩ := List.cons.inj heq
      exact isSolid_of_eq ht rfl
    obtain ⟨lines, _, _, rfl, hmember, hafter⟩ := hrest.cut hk.wholeLines rfl
    obtain ⟨rfl, b, hb⟩ := hk.block hwidth ht hremarks hmember
    obtain ⟨blocks, remarks', rest, number', d, rfl, hremarks', hd, hclose⟩ := ih htidy.right hafter
    refine ⟨b :: blocks, remarks', rest, number', d, ?_, hremarks', hd, hclose⟩
    rw [List.flatMap_cons, hb, List.append_assoc, List.append_assoc]

end Members

/-! ### The lines of a component -/

/-- The lines of a text around the members of one of its components, and these members. -/
structure ComponentLines (width : Nat) where
  before : List (List Char)
  header : List Char
  members : List (MemberBlock width)
  remarks : List (List Char)
  close : List Char
  after : List (List Char)
  header_margin : Text.margin header = 0 := by decide +kernel
  header_keyword : Text.keyword? header = some .component := by decide +kernel
  remarks_only : ∀ line ∈ remarks, Text.IsRemark line := by decide +kernel
  close_margin : Text.margin close = 0 := by decide +kernel
  close_keyword : Text.keyword? close = some .endWord := by decide +kernel

namespace ComponentLines

variable {width : Nat}

def lines (d : ComponentLines width) : List (List Char) :=
  d.before ++ d.header :: (d.members.flatMap MemberBlock.lines ++ (d.remarks ++ d.close :: d.after))

def withMembers (d : ComponentLines width) (members : List (MemberBlock width)) :
    ComponentLines width := { d with members := members }

end ComponentLines

section Components

variable {width : Nat} {source : String} {number : Nat} {levels : Levels}
  {lines : List (List Char)} {S : Place → Rule Stmt} {t i next : Token} {ts us ws : List Token}
  {c : ComponentDecl} {s : Stmt} {body : List Stmt} {code : List Char} {p : Program}

theorem Token.Scans.enter (h : Scans source number .initial lines (i :: ts) levels)
    (hi : i.lexeme = .indent) :
    ∃ width, 0 < width ∧ Scans source number (.inside width) lines ts levels := by
  generalize htokens : i :: ts = tokens at h
  cases h with
  | nil => cases htokens
  | @cons _ _ _ _ line rest us vs hline hrest =>
    cases hskip : isSkipped line with
    | true =>
      rw [ofLine, if_pos hskip] at hline
      cases hline
      obtain ⟨rfl, _⟩ := List.cons.inj htokens
      cases hi
    | false =>
      have hwidth : 0 < Text.margin line := by
        apply Nat.pos_of_ne_zero
        intro hzero
        obtain ⟨layout, span, t, text, newline, rfl, hm, hsolid, _⟩ := ofLine_text hskip hline
        have hstay : Levels.initial.move? 0 = some ([], .initial) := Levels.move?_of_top_eq rfl
        rw [hzero, hstay] at hm
        cases hm
        obtain ⟨rfl, _⟩ := List.cons.inj htokens
        exact Lexeme.ne_of_isSolid (hsolid i List.mem_cons_self) rfl hi
      obtain ⟨i', _, henter⟩ := MemberBlock.ofLine_enter source number hskip rfl hwidth
      rw [hline] at henter
      cases hinside : ofLine source number (.inside (Text.margin line)) line with
      | error e =>
        rw [hinside] at henter
        cases henter
      | ok r =>
        rw [hinside] at henter
        cases henter
        obtain ⟨_, rfl⟩ := List.cons.inj htokens
        exact ⟨_, hwidth, .cons hinside hrest⟩

theorem Closing.line_dedent {start span : Span} {d : Token} (hwidth : 0 < width)
    (h : Closing start us next span) (hd : d.lexeme = .dedent)
    (hscan : Scans source number (.inside width) lines (d :: (us ++ ws)) levels) :
    ∃ close after, lines = close :: after ∧ Text.margin close = 0 ∧
      Text.keyword? close = some .endWord := by
  generalize htokens : d :: (us ++ ws) = tokens at hscan
  cases hscan with
  | nil => cases htokens
  | @cons _ _ levels₁ _ line rest ts vs hline hrest =>
    cases hskip : isSkipped line with
    | true =>
      rw [Token.ofLine, if_pos hskip] at hline
      cases hline
      obtain ⟨rfl, _⟩ := List.cons.inj htokens
      cases hd
    | false =>
      obtain ⟨layout, span, t, text, newline, rfl, hm, hsolid, _, _, hkeyword⟩ :=
        Token.ofLine_text hskip hline
      have ht := hsolid t List.mem_cons_self
      cases h with
      | @mk ns e le _ hns he hle =>
      have hfirst : ∀ u ∈ (ns ++ e :: le ++ ws).head?, u.lexeme = .newline ∨ u = e := by
        cases ns with
        | nil => simp
        | cons n ns => simpa using .inl (hns n List.mem_cons_self)
      rcases Levels.move?_size hm with ⟨rfl, _⟩ | ⟨n, rfl, hsize⟩
      · obtain ⟨rfl, _⟩ := List.cons.inj htokens
        cases hd
      · cases n with
        | zero =>
          obtain ⟨rfl, _⟩ := List.cons.inj htokens
          exact absurd hd (Lexeme.ne_of_isSolid ht rfl)
        | succ n =>
          obtain ⟨rfl, hrest'⟩ := List.cons.inj htokens
          rw [hrest'] at hfirst
          -- One level closes, since no dedent stands before the word.
          cases n with
          | zero =>
            have hte : t = e := (hfirst t rfl).resolve_left (Lexeme.ne_of_isSolid ht rfl)
            subst hte
            have hrising : (Levels.inside width).Rising := Levels.initial_rising.push hwidth
            have hinitial : levels₁ = .initial := by
              apply Levels.eq_initial_of_size (hrising.move? hm)
              exact Nat.succ.inj hsize
            subst hinitial
            exact ⟨line, rest, rfl, (Levels.move?_top hm).symm, (hkeyword _).1 he⟩
          | succ n =>
            rcases hfirst _ rfl with hn | rfl
            · cases hn
            · cases he

theorem ComponentLevel.componentLines (hS : StatementsDeep S) (htidy : Tidy ts)
    (h : ComponentLevel S ts next c)
    (hscan : Scans source number .initial lines (ts ++ ws) levels) (before : List (List Char)) :
    c.span.lineStart = .ofNat number ∧
      ∃ width, ∃ d : ComponentLines width, d.before = before ∧ d.lines = before ++ lines := by
  cases h with
  | @mk k nm us vs _ name c₀ span hk hname hb hc =>
    have hsolid : Solid [nm] := .cons (isSolid_of_eq hname rfl) .nil
    obtain ⟨header, rest, text, newline, xs, rfl, htokens, hmargin, htext, hn, hstart, hkeyword, _,
      hrest⟩ := Scans.first hscan (isSolid_of_eq hk rfl)
    have hspan : span.lineStart = .ofNat number := by
      rw [← hstart]
      cases hc with
      | mk _ _ _ => rfl
    refine ⟨hspan, ?_⟩
    cases hb with
    | @empty _ ns _ hle hns _ _ =>
      obtain ⟨newline', rfl, hn'⟩ := hle.exists_newline (hns.headD_ne_eof (hc.head_ne_eof next))
      cases hc with
      | @mk ms e le _ hms he _ =>
        have hline : [nm] ++ newline' :: (ns ++ ms ++ e :: (le ++ ws)) = text ++ newline :: xs := by
          rw [← htokens]
          simp
        obtain ⟨_, _, rfl⟩ := append_cons_inj hline hsolid htext (not_isSolid_of_newline hn')
          (not_isSolid_of_newline hn)
        obtain ⟨remarks, _, rfl, hremarks, _, hclose⟩ :=
          hrest.cut_remarks (List.forall_mem_append.2 ⟨hns, hms⟩)
        obtain ⟨close, after, _, _, _, rfl, _, hmargin', _, _, _, hkeyword', _⟩ :=
          hclose.first (isSolid_of_eq he rfl)
        exact ⟨1, ⟨before, header, [], remarks, close, after, hmargin, hkeyword _ hk, hremarks,
          hmargin', hkeyword' _ he⟩, rfl, rfl⟩
    | @indented _ le ns i es _ hle hns hi hes =>
      obtain ⟨newline', rfl, hn'⟩ := hle.exists_newline (hns.headD_ne_eof (by simp [hi]))
      have hline : [nm] ++ newline' :: (ns ++ i :: (es ++ (vs ++ ws))) = text ++ newline :: xs := by
        rw [← htokens]
        simp
      obtain ⟨_, _, rfl⟩ := append_cons_inj hline hsolid htext (not_isSolid_of_newline hn')
          (not_isSolid_of_newline hn)
      obtain ⟨skipped, _, rfl, hskipped, hfirst, hblock⟩ := hrest.cut_remarks hns
      obtain ⟨width, hwidth, hinside⟩ := hblock.enter hi
      -- What stands before the first member belongs to it.
      have hskip : ∀ line ∈ skipped, isSkipped line = true :=
        fun line hline => isSkipped_iff_isRemark.2 (hskipped line hline)
      have hall := (hfirst.skipped_at hskip (.inside width)).append hinside
      rw [← List.append_assoc] at hall
      have htidy' : Tidy es := htidy.left.tail.tail.right.tail
      obtain ⟨members, remarks, _, _, d, hmembers, hremarks, hd, hlast⟩ :=
        (hes.pad hns).blocks hwidth hS (hns.tidy_append htidy') hall
      obtain ⟨close, after, rfl, hmargin', hkeyword'⟩ := hc.line_dedent hwidth hd hlast
      refine ⟨width,
        ⟨before, header, members, remarks, close, after, hmargin, hkeyword _ hk, hremarks, hmargin',
          hkeyword'⟩, rfl, ?_⟩
      rw [hmembers]
      rfl

theorem WholeLines.append (ht : WholeLines ts) (hu : WholeLines us) : WholeLines (ts ++ us) := by
  rcases hu with rfl | ⟨vs, t, rfl, hn⟩
  · rwa [List.append_nil]
  · exact .inr ⟨ts ++ vs, t, by simp, hn⟩

theorem Statements.reach (h : Statements ts next body) (hlines : WholeLines ts) (htidy : Tidy ts)
    (hmem : s ∈ body) :
    ∃ us vs ws next' hs, ts = us ++ (vs ++ ws) ∧ WholeLines us ∧ Walks ⟨0, true⟩ us hs ⟨0, true⟩ ∧
      StatementRule .top vs next' s := by
  induction h with
  | nil _ => cases hmem
  | @cons us ns vs next s' body hs hns hss ih =>
    rcases List.mem_cons.1 hmem with rfl | hmem
    · exact ⟨[], us, ns ++ vs, _, [], by simp, .inl rfl, .nil, hs⟩
    · -- The statement ends with its line, whatever follows.
      have hlocal := hs.anywhere hns hss hlines ⟨.newline, .origin⟩
      obtain ⟨_, _, _, hwalk, _⟩ := hlocal.outlined htidy.left.left (by simp)
      have hus : WholeLines us := by
        rcases hlocal.endsLine with ⟨xs, t, hxs, ht, _⟩ | ⟨heof, _⟩
        · exact .inr ⟨xs, t, hxs, ht⟩
        · cases heof
      obtain ⟨xs, ys, ws, next', hs', rfl, hxs, hwalk', hrule⟩ :=
        ih hlines.of_append htidy.right hmem
      exact ⟨us ++ ns ++ xs, ys, ws, next', _, by simp, (hus.append hns.wholeLines).append hxs,
        (hwalk.append (.newlines hns)).append hwalk', hrule⟩

theorem exists_componentLines (h : check source code = .ok p) (hc : .component c ∈ p.body) :
    ∃ width, ∃ d : ComponentLines width, d.lines = Text.lines code ∧
      c.span.lineStart = .ofNat (d.before.length + 1) := by
  obtain ⟨ts, next, hscan, hlines, -, hrule⟩ := check_scans h
  have htidy := hscan.tidy
  cases hrule with
  | mk hns hss =>
    obtain ⟨us, vs, ws, next', hs, rfl, hus, hwalk, hstatement⟩ :=
      hss.reach hlines.of_append htidy.right hc
    rw [← List.append_assoc] at hscan
    obtain ⟨before, rest, levels, hall, hbefore, hafter⟩ :=
      hscan.cut (hns.wholeLines.append hus) rfl
    have hinitial : levels = .initial := by
      have hrising := hbefore.rising Levels.initial_rising
      apply Levels.eq_initial_of_size hrising
      have hsize := hrising.size_pos
      obtain ⟨_, _, hdown, _⟩ :=
        hbefore.walks (List.suffix_refl _) fun _ _ => .inr (Nat.zero_le _)
      rw [Nat.sub_self] at hdown
      have hmargin : levels.size - 1 = 0 := congrArg Standing.depth
        (hdown.pass.symm.trans ((Walks.newlines hns).append hwalk).pass)
      omega
    subst hinitial
    obtain ⟨hstart, width, d, hd, hlines'⟩ :=
      hstatement.componentLevel.componentLines StatementRule.deep htidy.right.right.left
        hafter before
    refine ⟨width, d, hlines'.trans hall.symm, ?_⟩
    rw [hstart, hd, Nat.add_comm]

/-- The members of a component commute, as long as those of each kind keep their order. Every
component of an accepted text consists of a first line, the lines of its members and a last line;
and a text with the members in another order is accepted too, with the same script of the whole
program. -/
theorem outcome_of_reordered (options : Script.Options) (h : check source code = .ok p) :
    (∀ c, .component c ∈ p.body → ∃ width, ∃ d : ComponentLines width, d.lines = Text.lines code ∧
      c.span.lineStart = .ofNat (d.before.length + 1)) ∧
    ∀ width (d : ComponentLines width) members code', d.lines = Text.lines code →
      MemberBlock.Reordered d.members members → (d.withMembers members).lines = Text.lines code' →
      ∃ q script, check source code' = .ok q ∧ outcome options source code = .ok script ∧
        outcome options source code' = .ok script := by
  refine ⟨fun c hc => exists_componentLines h hc, ?_⟩
  intro width d members code' hcode horder hcode'
  obtain ⟨q, hq, hbare⟩ :=
    check_of_reordered d.header_margin d.header_keyword hcode.symm hcode'.symm horder h
  obtain ⟨script, hscript, hout⟩ := exists_outcome options h
  exact ⟨q, script, hq, hout, outcome_of_ok hq (Program.generate_of_mapSpan_eq _ hbare hscript)⟩

end Components

def counterState : MemberBlock 2 where
  kind := .state
  leading := ["# what is shown".toList]
  head := "  state".toList
  inner := ["    count: number = 0".toList]
  close := "  end".toList
  trailing := []

def counterUp : MemberBlock 2 where
  kind := .defWord
  leading := []
  head := "  def up".toList
  inner := ["    @count = @count + 1".toList]
  close := "  end".toList
  trailing := [[]]

def counterDown : MemberBlock 2 where
  kind := .defWord
  leading := []
  head := "  def down".toList
  inner := ["    @count = @count - 1".toList]
  close := "  end".toList
  trailing := []

def counterRender : MemberBlock 2 where
  kind := .render
  leading := []
  head := "  render".toList
  inner := ["    div.box".toList, "      p @count".toList, "  # out of line".toList,
    "    button".toList]
  close := "  end".toList
  trailing := []

def counterLines : ComponentLines 2 where
  before := ["print 1".toList]
  header := "component Counter".toList
  members := [counterState, counterUp, counterDown, counterRender]
  remarks := []
  close := "end".toList
  after := ["print 2".toList]

def counterText (members : List (MemberBlock 2)) : List Char :=
  ['\n'].intercalate (counterLines.withMembers members).lines

theorem outcome_of_reordered_counter : ∃ q script,
    check "m" (counterText [counterRender, counterUp, counterState, counterDown]) = .ok q ∧
      outcome .standard "m" (counterText counterLines.members) = .ok script ∧
      outcome .standard "m" (counterText [counterRender, counterUp, counterState, counterDown]) =
        .ok script := by
  obtain ⟨p, hp, _⟩ :=
    @exists_ok_of_any _ _ (check "m" (counterText counterLines.members)) (fun _ => true)
      (by decide +kernel)
  have horder : MemberBlock.Reordered counterLines.members
      [counterRender, counterUp, counterState, counterDown] := by
    intro k
    cases k <;> rfl
  exact (outcome_of_reordered .standard hp).2 2 counterLines _ _ (by decide +kernel) horder
    (by decide +kernel)

end LayoutScript

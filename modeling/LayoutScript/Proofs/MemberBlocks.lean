import LayoutScript.Proofs.LineScan
import LayoutScript.Proofs.MemberParts
import LayoutScript.Proofs.ScriptLayout

/-! The members of a component as groups of lines. Each group is one entry of the component wherever
it stands, and groups of different kinds may change places without a change to the component. -/
namespace LayoutScript

open LayoutScript.Token (Scans)

/-- The lines of one member that is indented by `width`: a line with the word of its kind, lines
that are deeper, and a line with the word that closes it. Blank lines and comments may stand
anywhere. -/
structure MemberBlock (width : Nat) where
  kind : Keyword
  leading : List (List Char)
  head : List Char
  inner : List (List Char)
  close : List Char
  trailing : List (List Char)
  indented : 0 < width := by decide +kernel
  leading_remarks : ∀ line ∈ leading, Text.IsRemark line := by decide +kernel
  head_margin : Text.margin head = width := by decide +kernel
  head_keyword : Text.keyword? head = some kind := by decide +kernel
  inner_deeper : ∀ line ∈ inner, Text.IsRemark line ∨ width < Text.margin line := by decide +kernel
  close_margin : Text.margin close = width := by decide +kernel
  close_keyword : Text.keyword? close = some .endWord := by decide +kernel
  trailing_remarks : ∀ line ∈ trailing, Text.IsRemark line := by decide +kernel

def Levels.inside (width : Nat) : Levels := initial.push width

theorem MemberBlock.inside_rising {width : Nat} (b : MemberBlock width) :
    (Levels.inside width).Rising := Levels.initial_rising.push b.indented

theorem Levels.move?_inside (width : Nat) :
    (inside width).move? width = some ([], inside width) := move?_of_top_eq rfl

def Fenced (k : Keyword) (ts : List Token) : Prop :=
  ∃ t us e more newline, ts = t :: us ++ (e :: more ++ [newline]) ∧ t.lexeme = .keyword k ∧
    e.lexeme = .keyword .endWord ∧ Solid more ∧ newline.lexeme = .newline ∧
    Walks ⟨0, true⟩ (t :: us) [.keyword k] ⟨0, true⟩

theorem Fenced.wholeLines {k : Keyword} {ts : List Token} (h : Fenced k ts) : WholeLines ts := by
  obtain ⟨t, us, e, more, newline, rfl, _, _, _, hn, _⟩ := h
  exact .inr ⟨t :: us ++ e :: more, newline, by simp, hn⟩

theorem Fenced.opens {k : Keyword} {ts : List Token} (h : Fenced k ts) :
    ∃ t us, ts = t :: us ∧ t.lexeme = .keyword k := by
  obtain ⟨t, us, _, _, _, rfl, ht, _⟩ := h
  exact ⟨t, _, rfl, ht⟩

theorem Fenced.eq_of_enclosed {k k' : Keyword} {ts us core xs : List Token} (hf : Fenced k core)
    (h : Enclosed k' ts) (heq : ts ++ us = core ++ xs) : ts = core ∧ us = xs := by
  obtain ⟨t, vs, e, more, newline, rfl, _, he, hmore, _, hwalk⟩ := hf
  obtain ⟨ws, e', newline', rfl, he', hn', hwalk', _⟩ := h
  have hcut : ws ++ e' :: (newline' :: us) = t :: vs ++ e :: (more ++ [newline] ++ xs) := by
    simpa only [List.append_assoc, List.cons_append, List.nil_append] using heq
  obtain rfl := eq_of_walks hcut hwalk' hwalk (isSolid_of_eq he' rfl) (isSolid_of_eq he rfl) rfl
  obtain ⟨rfl, hrest⟩ := List.cons.inj (List.append_cancel_left hcut)
  cases more with
  | nil =>
    obtain ⟨rfl, rfl⟩ := List.cons.inj hrest
    exact ⟨rfl, rfl⟩
  | cons m more =>
    obtain ⟨rfl, _⟩ := List.cons.inj hrest
    exact absurd hn' (Lexeme.ne_of_isSolid (hmore _ List.mem_cons_self) rfl)

namespace MemberBlock

variable {width : Nat}

def lines (b : MemberBlock width) : List (List Char) :=
  b.leading ++ b.head :: (b.inner ++ b.close :: b.trailing)

theorem leading_skipped (b : MemberBlock width) : ∀ line ∈ b.leading, isSkipped line = true :=
  fun line hline => isSkipped_iff_isRemark.2 (b.leading_remarks line hline)

theorem trailing_skipped (b : MemberBlock width) : ∀ line ∈ b.trailing, isSkipped line = true :=
  fun line hline => isSkipped_iff_isRemark.2 (b.trailing_remarks line hline)

/-- The tokens of a block among other members: newlines around the member itself. -/
structure Gives (b : MemberBlock width) (source : String) (number : Nat)
    (lead core trail : List Token) : Prop where
  scans : Scans source number (.inside width) b.lines (lead ++ core ++ trail) (.inside width)
  lead : Newlines lead
  trail : Newlines trail
  fenced : Fenced b.kind core

variable {source : String} {number : Nat} {levels levels' : Levels} {tokens : List Token}
  {a b : MemberBlock width}

theorem head_tokens (h : Token.ofLine source number (.inside width) b.head = .ok (tokens, levels)) :
    levels = .inside width ∧ ∃ t us, tokens = t :: us ∧ t.lexeme = .keyword b.kind ∧
      Walks ⟨0, true⟩ tokens [.keyword b.kind] ⟨0, true⟩ := by
  obtain ⟨layout, span, t, us, newline, rfl, hm, hsolid, hn, _, hkeyword⟩ :=
    Token.ofLine_text (Text.not_isSkipped_of_keyword? b.head_keyword) h
  have ht := (hkeyword _).2 b.head_keyword
  rw [b.head_margin, Levels.move?_inside] at hm
  cases hm
  obtain ⟨hfirst, hrest⟩ := List.forall_mem_cons.1 hsolid
  have hend : Hangs [newline] := fun d b => .newline hn
  have hwalk := hend.head hfirst hrest
  rw [ht] at hwalk
  exact ⟨rfl, t, us ++ [newline], rfl, ht, hwalk⟩

theorem close_tokens (hover : (Levels.inside width).Over levels)
    (hl : levels.Rising) (h : Token.ofLine source number levels b.close = .ok (tokens, levels')) :
    levels' = .inside width ∧ ∃ layout e more newline, tokens = layout ++ (e :: more ++ [newline]) ∧
      e.lexeme = .keyword .endWord ∧ Solid more ∧ newline.lexeme = .newline ∧
      Walks ⟨levels.size - (Levels.inside width).size, true⟩ layout [] ⟨0, true⟩ := by
  obtain ⟨layout, span, e, more, newline, rfl, hm, hsolid, hn, _, hkeyword⟩ :=
    Token.ofLine_text (Text.not_isSkipped_of_keyword? b.close_keyword) h
  have he := (hkeyword _).2 b.close_keyword
  rw [b.close_margin] at hm
  have hover' := hover.move? (Nat.le_refl width) hm
  obtain rfl := hover'.eq_of_top b.inside_rising (hl.move? hm) (Levels.move?_top hm)
  have hwalk := Walks.layout span hm hover.size_le
  rw [Nat.sub_self] at hwalk
  obtain ⟨_, hmore⟩ := List.forall_mem_cons.1 hsolid
  exact ⟨rfl, _, e, more, newline, rfl, he, hmore, hn, hwalk⟩

theorem scans_gives (h : Scans source number (.inside width) b.lines tokens levels) :
    levels = .inside width ∧
      ∃ lead core trail, tokens = lead ++ core ++ trail ∧
        b.Gives source number lead core trail := by
  have hscan := h
  obtain ⟨lead, _, _, rfl, hleading, hrest⟩ := h.split
  obtain ⟨hlead, rfl⟩ := hleading.skipped b.leading_skipped
  cases hrest with
  | @cons _ _ _ _ _ _ first _ hhead hrest =>
  obtain ⟨rfl, t, us, hfirst, ht, hwalk⟩ := b.head_tokens hhead
  obtain ⟨inner, _, levels₁, rfl, hinner, hrest⟩ := hrest.split
  have hdeeper : ∀ line ∈ b.inner, isSkipped line = true ∨ width < Text.margin line :=
    fun line hline => (b.inner_deeper line hline).imp_left isSkipped_iff_isRemark.2
  obtain ⟨hover, hs, hwalk', hnone⟩ := hinner.walks (List.suffix_refl _)
    fun line hline => (hdeeper line hline).imp_right Nat.le_of_lt
  obtain rfl := hnone hdeeper
  rw [Nat.sub_self] at hwalk'
  cases hrest with
  | @cons _ _ _ _ _ _ last trail hclose htrailing =>
  have hrising := hinner.rising b.inside_rising
  obtain ⟨rfl, layout, e, more, newline, hlast, he, hmore, hn, hwalk''⟩ :=
    b.close_tokens hover hrising hclose
  obtain ⟨htrail, rfl⟩ := htrailing.skipped b.trailing_skipped
  have htokens : lead ++ (first ++ (inner ++ (last ++ trail))) =
      lead ++ (first ++ inner ++ last) ++ trail := by simp only [List.append_assoc]
  refine ⟨rfl, lead, first ++ inner ++ last, trail, htokens, ?_, hlead, htrail, ?_⟩
  · rwa [← htokens]
  · refine ⟨t, us ++ inner ++ layout, e, more, newline, ?_, ht, he, hmore, hn, ?_⟩
    · rw [hfirst, hlast]
      simp
    · rw [hfirst] at hwalk
      have hall := (hwalk.append hwalk').append hwalk''
      simpa only [List.append_assoc, List.append_nil, List.cons_append] using hall

end MemberBlock

/-! ### Entries -/

section Entries

variable {S : Place → Rule Stmt} {entry : σ → Rule σ} {s s' : σ} {ns es zs xs : List Token}
  {next : Token}

theorem Entries.pad (hns : Newlines ns) (h : Entries entry s es next s') :
    Entries entry s (ns ++ es) next s' := by
  cases h with
  | close hms hd =>
    rw [← List.append_assoc]
    exact .close (List.forall_mem_append.2 ⟨hns, hms⟩) hd
  | entry hms ho he hes =>
    rw [List.append_assoc, ← List.append_assoc, ← List.append_assoc]
    exact .entry (List.forall_mem_append.2 ⟨hns, hms⟩) ho he hes

theorem Entries.strip (hns : Newlines ns) (h : Entries entry s es next s')
    (heq : es ++ zs = ns ++ xs) :
    ∃ es', es = ns ++ es' ∧ es' ++ zs = xs ∧ Entries entry s es' next s' := by
  induction ns generalizing es with
  | nil => exact ⟨es, rfl, heq, h⟩
  | cons n ns ih =>
    obtain ⟨hn, hns⟩ := List.forall_mem_cons.1 hns
    obtain ⟨es₁, rfl, h₁⟩ : ∃ es₁, es = n :: es₁ ∧ Entries entry s es₁ next s' := by
      cases h with
      | @close _ ms d _ hms hd =>
        cases ms with
        | nil =>
          obtain ⟨rfl, _⟩ := List.cons.inj heq
          rw [hn] at hd
          cases hd
        | cons m ms =>
          obtain ⟨rfl, _⟩ := List.cons.inj heq
          exact ⟨ms ++ [d], rfl, .close (List.forall_mem_cons.1 hms).2 hd⟩
      | @entry _ _ _ ms t ts us _ hms ho he hes =>
        cases ms with
        | nil =>
          obtain ⟨rfl, _⟩ := List.cons.inj heq
          exact absurd hn ho.ne_newline
        | cons m ms =>
          obtain ⟨rfl, _⟩ := List.cons.inj heq
          exact ⟨ms ++ t :: ts ++ us, rfl, .entry (List.forall_mem_cons.1 hms).2 ho he hes⟩
    obtain ⟨_, hrest⟩ := List.cons.inj heq
    obtain ⟨es', rfl, hes', h'⟩ := ih hns h₁ hrest
    exact ⟨es', rfl, hes', h'⟩

theorem Entries.unpad (hns : Newlines ns) (h : Entries entry s (ns ++ es) next s') :
    Entries entry s es next s' := by
  obtain ⟨es', heq, _, h'⟩ := h.strip hns (List.append_assoc ns es [])
  rwa [List.append_cancel_left heq]

theorem Entries.member {c d e : ComponentDecl} {ts : List Token}
    (hm : ComponentMember S c ts (es.headD next) d) (h : Entries (ComponentMember S) d es next e) :
    Entries (ComponentMember S) c (ts ++ es) next e := by
  obtain ⟨m, hrule, _⟩ := componentMember_iff.1 hm
  obtain ⟨t, us, rfl, ht⟩ := hrule.opens
  exact .entry .nil ⟨by simp [ht], by simp [ht], by simp [ht]⟩ hm h

theorem append_cons_inj {P : α → Prop} {as bs ys zs : List α} {y z : α}
    (heq : as ++ y :: ys = bs ++ z :: zs) (has : ∀ a ∈ as, P a) (hbs : ∀ b ∈ bs, P b) (hy : ¬P y)
    (hz : ¬P z) : as = bs ∧ y = z ∧ ys = zs := by
  induction as generalizing bs with
  | nil =>
    cases bs with
    | nil => exact ⟨rfl, List.cons.inj heq⟩
    | cons b bs =>
      obtain ⟨rfl, _⟩ := List.cons.inj heq
      exact absurd (hbs y List.mem_cons_self) hy
  | cons a as ih =>
    cases bs with
    | nil =>
      obtain ⟨rfl, _⟩ := List.cons.inj heq
      exact absurd (has a List.mem_cons_self) hz
    | cons b bs =>
      obtain ⟨rfl, hrest⟩ := List.cons.inj heq
      obtain ⟨rfl, hfirst⟩ := ih hrest (List.forall_mem_cons.1 has).2 (List.forall_mem_cons.1 hbs).2
      exact ⟨rfl, hfirst⟩

/-- The first entry of a component takes the tokens up to the word that closes it. -/
theorem Entries.cut {k : Keyword} {core : List Token} {c c' : ComponentDecl} (hS : StatementsDeep S)
    (hcore : Fenced k core) (htidy : Tidy es) (h : Entries (ComponentMember S) c es next c')
    (heq : es ++ zs = core ++ xs) :
    ∃ es' d, es = core ++ es' ∧ es' ++ zs = xs ∧ ComponentMember S c core (es'.headD next) d ∧
      Entries (ComponentMember S) d es' next c' := by
  obtain ⟨t, us, rfl, ht⟩ := hcore.opens
  have hne : t.lexeme ≠ .newline := by simp [ht]
  cases h with
  | @close _ ms d _ hms hd =>
    have hfirst : ms ++ d :: zs = [] ++ t :: (us ++ xs) := by simpa using heq
    obtain ⟨_, rfl, _⟩ := append_cons_inj hfirst hms Newlines.nil (by simp [hd]) hne
    rw [ht] at hd
    cases hd
  | @entry _ d _ ms t' ts' us' _ hms ho hm hes =>
    have hfirst : ms ++ t' :: (ts' ++ us' ++ zs) = [] ++ t :: (us ++ xs) := by simpa using heq
    obtain ⟨rfl, rfl, hrest⟩ := append_cons_inj hfirst hms Newlines.nil ho.ne_newline hne
    have htidy' : Tidy (t' :: ts') := htidy.left
    obtain ⟨k', henclosed⟩ := hm.enclosed hS htidy' (hes.head_ne_eof next)
    rw [List.append_assoc] at hrest
    obtain ⟨hts', hxs⟩ := hcore.eq_of_enclosed henclosed (congrArg (t' :: ·) hrest)
    rw [hts'] at hm
    exact ⟨us', d, by rw [List.nil_append, hts'], hxs, hm, hes⟩

end Entries

/-! ### Runs of blocks -/

namespace MemberBlock

variable {width : Nat} {source : String} {number : Nat} {levels : Levels} {ts es zs xs : List Token}
  {next : Token} {a b : MemberBlock width} {as bs blocks blocks' : List (MemberBlock width)}
  {c c' d e : ComponentDecl}

/-- The block is a member that turns a component into another one; spans do not count. -/
def Adds (source : String) (b : MemberBlock width) (c c' : ComponentDecl) : Prop :=
  ∃ number lead core trail next x x', b.Gives source number lead core trail ∧
    ComponentMember StatementRule x core next x' ∧ x.bare = c ∧ x'.bare = c'

def Builds (source : String) : List (MemberBlock width) → ComponentDecl → ComponentDecl → Prop
  | [], c, c' => c = c'
  | b :: bs, c, c' => ∃ d, b.Adds source c d ∧ Builds source bs d c'

theorem Adds.comm (h : a.Adds source c d) (h' : b.Adds source d e) (hne : a.kind ≠ b.kind) :
    ∃ d', b.Adds source c d' ∧ a.Adds source d' e := by
  obtain ⟨number, lead, core, trail, next, x, x', hgives, hm, rfl, rfl⟩ := h
  obtain ⟨number', lead', core', trail', next', y, y', hgives', hm', hy, rfl⟩ := h'
  obtain ⟨z, hz, hbare⟩ := hm'.replay hy
  obtain ⟨t, us, rfl, ht⟩ := hgives.fenced.opens
  obtain ⟨u, vs, rfl, hu⟩ := hgives'.fenced.opens
  have hlexeme : t.lexeme ≠ u.lexeme := by
    rw [ht, hu]
    simpa using hne
  obtain ⟨w, hw, hw'⟩ := hm.comm hz hlexeme
  exact ⟨w.bare, ⟨_, _, _, _, _, _, _, hgives', hw, rfl, rfl⟩,
    _, _, _, _, _, _, _, hgives, hw', rfl, hbare.symm⟩

theorem Builds.front (h : Builds source (as ++ b :: bs) c c') (hne : ∀ a ∈ as, a.kind ≠ b.kind) :
    Builds source (b :: (as ++ bs)) c c' := by
  induction as generalizing c with
  | nil => exact h
  | cons a as ih =>
    obtain ⟨ha, has⟩ := List.forall_mem_cons.1 hne
    obtain ⟨d, hadds, hrest⟩ := h
    obtain ⟨e, hb, hrest⟩ := ih hrest has
    obtain ⟨d', hb', ha'⟩ := hadds.comm hb ha
    exact ⟨d', hb', e, ha', hrest⟩

/-- The same blocks, with those of each kind in the same order. -/
def Reordered (blocks blocks' : List (MemberBlock width)) : Prop :=
  ∀ k, blocks'.filter (·.kind = k) = blocks.filter (·.kind = k)

theorem Reordered.perm (h : Reordered blocks blocks') : blocks'.Perm blocks := by
  classical
  rw [List.perm_iff_count]
  intro b
  have hcount := congrArg (List.count b) (h b.kind)
  rwa [List.count_filter (by simp), List.count_filter (by simp)] at hcount

/-- What blocks build depends only on the order within each kind. -/
theorem Builds.reorder (h : Builds source blocks c c') (horder : Reordered blocks blocks') :
    Builds source blocks' c c' := by
  induction blocks' generalizing blocks c with
  | nil =>
    cases blocks with
    | nil => exact h
    | cons b bs =>
      have := horder b.kind
      simp at this
  | cons b bs' ih =>
    have hfirst := (horder b.kind).symm
    rw [List.filter_cons_of_pos (by simp), List.filter_eq_cons_iff] at hfirst
    obtain ⟨as, bs, rfl, hnone, _, _⟩ := hfirst
    have hnone : ∀ a ∈ as, a.kind ≠ b.kind := by simpa using hnone
    obtain ⟨d, hb, hrest⟩ := h.front hnone
    refine ⟨d, hb, ih hrest ?_⟩
    intro k
    have hk := horder k
    rw [List.filter_append, List.filter_cons, List.filter_cons] at hk
    rw [List.filter_append]
    split at hk
    · next hkind =>
      have hkind : b.kind = k := by simpa using hkind
      have has : as.filter (·.kind = k) = [] := by
        rw [List.filter_eq_nil_iff]
        intro a ha
        simpa [← hkind] using hnone a ha
      rw [has] at hk ⊢
      exact (List.cons.inj hk).2
    · exact hk

/-- The entries that a component starts with are those of the blocks that its lines start with. -/
theorem Builds.of_entries
    (hscan : Scans source number (.inside width) (blocks.flatMap lines) ts levels) (htidy : Tidy es)
    (h : Entries (ComponentMember StatementRule) c es next c') (heq : es ++ zs = ts ++ xs) :
    levels = .inside width ∧ ∃ es' d, es = ts ++ es' ∧ es' ++ zs = xs ∧
      Builds source blocks c.bare d.bare ∧
      Entries (ComponentMember StatementRule) d es' next c' := by
  induction blocks generalizing number ts es c with
  | nil =>
    cases hscan
    exact ⟨rfl, es, c, rfl, heq, rfl, h⟩
  | cons b bs ih =>
    rw [List.flatMap_cons] at hscan
    obtain ⟨_, us, _, rfl, hb, hbs⟩ := hscan.split
    obtain ⟨rfl, lead, core, trail, rfl, hgives⟩ := scans_gives hb
    simp only [List.append_assoc] at heq
    obtain ⟨es₁, rfl, heq, h₁⟩ := h.strip hgives.lead heq
    obtain ⟨es₂, d, rfl, heq, hm, h₂⟩ := h₁.cut StatementRule.deep hgives.fenced htidy.right heq
    obtain ⟨es₃, rfl, heq, h₃⟩ := h₂.strip hgives.trail heq
    obtain ⟨rfl, es', d', rfl, heq, hbuilds, h'⟩ := ih hbs htidy.right.right.right h₃ heq
    refine ⟨rfl, es', d', by simp only [List.append_assoc], heq, ⟨d.bare, ?_, hbuilds⟩, h'⟩
    exact ⟨_, _, _, _, _, _, _, hgives, hm, rfl, rfl⟩

theorem Adds.entries (h : b.Adds source c c') (number : Nat) (hd : d.bare = c) :
    ∃ ts d', Scans source number (.inside width) b.lines ts (.inside width) ∧ d'.bare = c' ∧
      ∀ es next e, Entries (ComponentMember StatementRule) d' es next e →
        Entries (ComponentMember StatementRule) d (ts ++ es) next e := by
  obtain ⟨number₀, lead, core, trail, _, x, x', hgives, hm, hx, rfl⟩ := h
  obtain ⟨n, hn⟩ := Token.exists_shift number₀ number
  have hscan := hgives.scans.move hn
  obtain ⟨us, ns, d', hcore, hns, hm', hbare⟩ :=
    hm.moved (Span.shiftLines_relocation n) hgives.fenced.wholeLines (hx.trans hd.symm)
  rw [List.map_append, List.map_append, hcore] at hscan
  have hmap {ms : List Token} (h : Newlines ms) :
      Newlines (ms.map (Token.mapSpan (Span.shiftLines n))) := by
    intro t ht
    obtain ⟨u, hu, rfl⟩ := List.mem_map.1 ht
    exact h u hu
  refine ⟨_, d', hscan, hbare.symm, ?_⟩
  intro es next e hes
  have hrest := (hes.pad (hmap hgives.trail)).pad hns
  have hall := ((Entries.member (hm' _) hrest).pad (hmap hgives.lead))
  simpa only [List.append_assoc] using hall

theorem Builds.entries (h : Builds source blocks c c') (number : Nat) (hd : d.bare = c) :
    ∃ ts d', Scans source number (.inside width) (blocks.flatMap lines) ts (.inside width) ∧
      d'.bare = c' ∧ ∀ es next e, Entries (ComponentMember StatementRule) d' es next e →
        Entries (ComponentMember StatementRule) d (ts ++ es) next e := by
  induction blocks generalizing number c d with
  | nil => exact ⟨[], d, .nil, hd.trans h, fun _ _ _ hes => hes⟩
  | cons b bs ih =>
    obtain ⟨c₁, hadds, hbuilds⟩ := h
    obtain ⟨ts, d₁, hscan, hd₁, hentry⟩ := hadds.entries number hd
    obtain ⟨us, d', hscan', hd', hentries⟩ := ih hbuilds (number + b.lines.length) hd₁
    refine ⟨ts ++ us, d', hscan.append hscan', hd', ?_⟩
    intro es next e hes
    rw [List.append_assoc]
    exact hentry _ _ _ (hentries _ _ _ hes)

/-! ### The first block -/

theorem ofLine_enter {line : List Char} (source : String) (number : Nat)
    (hskip : isSkipped line = false) (hmargin : Text.margin line = width) (hwidth : 0 < width) :
    ∃ i : Token, i.lexeme = .indent ∧ Token.ofLine source number .initial line =
      (Token.ofLine source number (.inside width) line).map (Prod.map (i :: ·) id) := by
  have hmargin : ((Text.dropReturn line).takeWhile Text.isBlank).length = width :=
    (Text.margin_dropReturn hskip).trans hmargin
  have hopen : Levels.initial.move? width = some ([.indent], .inside width) :=
    Levels.move?_of_top_lt hwidth
  refine ⟨⟨.indent, .onLine source number 1 (width + 1)⟩, rfl, ?_⟩
  simp only [Token.ofLine, hskip, hmargin, hopen, Levels.move?_inside]
  cases Token.ofChars source number 1 0 (Text.dropReturn line) <;> rfl

theorem ofLine_head (source : String) (number : Nat) (b : MemberBlock width) :
    ∃ i : Token, i.lexeme = .indent ∧ Token.ofLine source number .initial b.head =
      (Token.ofLine source number (.inside width) b.head).map (Prod.map (i :: ·) id) :=
  ofLine_enter source number (Text.not_isSkipped_of_keyword? b.head_keyword) b.head_margin
    b.indented

/-- The first line that is not skipped may be read at another level, if it leads to the same. -/
theorem scans_head {start : Levels} (hne : blocks ≠ [])
    (h : Scans source number start (blocks.flatMap lines) ts levels) :
    ∃ (b : MemberBlock width) (k : Nat) (middle : Levels) (lead us vs : List Token),
      ts = lead ++ (us ++ vs) ∧ Newlines lead ∧
      Token.ofLine source k start b.head = .ok (us, middle) ∧
      ∀ start' us', Token.ofLine source k start' b.head = .ok (us', middle) →
        Scans source number start' (blocks.flatMap lines) (lead ++ (us' ++ vs)) levels := by
  obtain ⟨b, bs, rfl⟩ := List.exists_cons_of_ne_nil hne
  rw [List.flatMap_cons, lines, List.append_assoc, List.cons_append] at h ⊢
  obtain ⟨lead, _, _, rfl, hleading, hrest⟩ := h.split
  obtain ⟨hlead, rfl⟩ := hleading.skipped b.leading_skipped
  cases hrest with
  | @cons _ _ middle _ _ _ us vs hhead hrest =>
    refine ⟨b, _, middle, lead, us, vs, rfl, hlead, hhead, fun start' us' hhead' => ?_⟩
    exact (hleading.skipped_at b.leading_skipped start').append (.cons hhead' hrest)

theorem scans_enter (hne : blocks ≠ [])
    (h : Scans source number .initial (blocks.flatMap lines) ts levels) :
    ∃ lead i us, ts = lead ++ i :: us ∧ Newlines lead ∧ i.lexeme = .indent ∧
      Scans source number (.inside width) (blocks.flatMap lines) (lead ++ us) levels := by
  obtain ⟨b, k, middle, lead, us, vs, rfl, hlead, hhead, hagain⟩ := scans_head hne h
  obtain ⟨i, hi, henter⟩ := ofLine_head source k b
  rw [hhead] at henter
  cases hinside : Token.ofLine source k (.inside width) b.head with
  | error e =>
    rw [hinside] at henter
    cases henter
  | ok r =>
    rw [hinside] at henter
    cases henter
    exact ⟨lead, i, r.1 ++ vs, rfl, hlead, hi, hagain _ _ hinside⟩

theorem scans_leave (hne : blocks ≠ [])
    (h : Scans source number (.inside width) (blocks.flatMap lines) ts levels) :
    ∃ lead i us, ts = lead ++ us ∧ Newlines lead ∧ i.lexeme = .indent ∧
      Scans source number .initial (blocks.flatMap lines) (lead ++ i :: us) levels := by
  obtain ⟨b, k, middle, lead, us, vs, rfl, hlead, hhead, hagain⟩ := scans_head hne h
  obtain ⟨i, hi, henter⟩ := ofLine_head source k b
  rw [hhead] at henter
  exact ⟨lead, i, us ++ vs, rfl, hlead, hi, hagain _ _ henter⟩

end MemberBlock

end LayoutScript

import LayoutScript.Proofs.Reading

/-! Rules for the shapes that the grammar has in several places: items between commas, indented
blocks, the end of a block and names with dashes. -/
namespace LayoutScript

def StartsWith (kind : Lexeme → Bool) (ts : List Token) : Prop :=
  ∃ t us, ts = t :: us ∧ kind t.lexeme = true

namespace StartsWith

variable {kind : Lexeme → Bool} {ts : List Token}

theorem append (h : StartsWith kind ts) (us : List Token) : StartsWith kind (ts ++ us) := by
  obtain ⟨t, vs, rfl, ht⟩ := h
  exact ⟨t, vs ++ us, rfl, ht⟩

theorem ne_nil (h : StartsWith kind ts) : ts ≠ [] := by
  obtain ⟨t, us, rfl, _⟩ := h
  exact List.cons_ne_nil t us

theorem lexeme_ne {lexeme : Lexeme} {next : Token} (h : StartsWith kind ts)
    (hl : kind lexeme = false) : (ts.headD next).lexeme ≠ lexeme := by
  obtain ⟨t, us, rfl, ht⟩ := h
  rintro rfl
  rw [List.headD_cons, ht] at hl
  cases hl

end StartsWith

inductive Separated (item : Rule α) : Rule (List α)
  | none {close} : Separated item [] close []
  | last {ts close a} : item ts close a → Separated item ts close [a]
  | cons {ts comma us close a as} : item ts comma a → comma.lexeme = .punct .comma →
    Separated item us close as → Separated item (ts ++ comma :: us) close (a :: as)

structure Opens (t : Token) : Prop where
  ne_newline : t.lexeme ≠ .newline
  ne_dedent : t.lexeme ≠ .dedent
  ne_eof : t.lexeme ≠ .eof

/-- Entries up to the end of their block. Each one changes what the entries before it gave. -/
inductive Entries (entry : σ → Rule σ) : σ → Rule σ
  | close {s ns d next} : Newlines ns → d.lexeme = .dedent → Entries entry s (ns ++ [d]) next s
  | entry {s s₁ s' ns t ts us next} : Newlines ns → Opens t →
    entry s (t :: ts) (us.headD next) s₁ → Entries entry s₁ us next s' →
    Entries entry s (ns ++ t :: ts ++ us) next s'

inductive Block (entry : σ → Rule σ) : σ → Rule σ
  | empty {s le ns next} : LineEnd le (ns.headD next) → Newlines ns → next.lexeme ≠ .newline →
    next.lexeme ≠ .indent → Block entry s (le ++ ns) next s
  | indented {s s' le ns i us next} : LineEnd le (ns.headD i) → Newlines ns →
    i.lexeme = .indent → Entries entry s us next s' → Block entry s (le ++ ns ++ i :: us) next s'

inductive Appends (rule : Rule α) : List α → Rule (List α)
  | mk {xs ts next x} : rule ts next x → Appends rule xs ts next (xs ++ [x])

inductive Closing (start : Span) : Rule Span
  | mk {ns e le next} : Newlines ns → e.lexeme = .keyword .endWord → LineEnd le next →
    Closing start (ns ++ e :: le) next (start.join e.span)

def Touches (p : Punct) (prev next : Token) : Prop :=
  next.lexeme = .punct p ∧ next.follows prev = true

inductive DashTail : Token → String → Rule String
  | stop {prev name next} : ¬Touches .minus prev next → DashTail prev name [] next name
  | more {prev name dash word s us next result} : Touches .minus prev dash →
    word.lexeme.name? = some s → DashTail word (name ++ "-" ++ s) us next result →
    DashTail prev name (dash :: word :: us) next result

inductive DashedName : Rule String
  | mk {t name us next result} : t.lexeme.name? = some name → DashTail t name us next result →
    DashedName (t :: us) next result

section Invariants

variable {ts : List Token} {next : Token}

/-- What every entry keeps, given that its tokens are some of those of all entries. -/
theorem Entries.invariant_part {entry : σ → Rule σ} {P : σ → Prop} {s s' : σ}
    (hstep : ∀ {s s' us next}, us <:+: ts → entry s us next s' → P s → P s')
    (h : Entries entry s ts next s') (hs : P s) : P s' := by
  induction h with
  | close _ _ => exact hs
  | @entry _ _ _ ns t ts us _ _ _ he _ ih =>
    refine ih (fun hpart => hstep (hpart.trans ⟨ns ++ t :: ts, [], by simp⟩)) (hstep ?_ he hs)
    exact ⟨ns, us, rfl⟩

theorem Block.invariant_part {entry : σ → Rule σ} {P : σ → Prop} {s s' : σ}
    (hstep : ∀ {s s' us next}, us <:+: ts → entry s us next s' → P s → P s')
    (h : Block entry s ts next s') (hs : P s) : P s' := by
  cases h with
  | empty _ _ _ _ => exact hs
  | @indented _ le ns i us _ _ _ _ he =>
    refine he.invariant_part (fun hpart => hstep (hpart.trans ?_)) hs
    exact ⟨le ++ ns ++ [i], [], by simp⟩

theorem Block.invariant {entry : σ → Rule σ} {P : σ → Prop} {s s' : σ}
    (hstep : ∀ {s s' us next}, us ⊆ ts → entry s us next s' → P s → P s')
    (h : Block entry s ts next s') (hs : P s) : P s' :=
  h.invariant_part (fun hpart => hstep hpart.subset) hs

theorem Block.forall_part {rule : Rule α} {P : α → Prop} {as : List α}
    (hrule : ∀ {us next a}, us <:+: ts → rule us next a → P a)
    (h : Block (Appends rule) [] ts next as) : ∀ a ∈ as, P a := by
  refine h.invariant_part (P := fun as => ∀ a ∈ as, P a) ?_ (fun a ha => absurd ha List.not_mem_nil)
  rintro _ _ _ _ hpart ⟨ha⟩ hs a hmem
  rcases List.mem_append.1 hmem with hmem | hmem
  · exact hs a hmem
  · rw [List.mem_singleton.1 hmem]
    exact hrule hpart ha

theorem Block.forall_mem {rule : Rule α} {P : α → Prop} {as : List α}
    (hrule : ∀ {us next a}, us ⊆ ts → rule us next a → P a)
    (h : Block (Appends rule) [] ts next as) : ∀ a ∈ as, P a :=
  h.forall_part fun hpart => hrule hpart.subset

theorem Separated.forall_part {item : Rule α} {P : α → Prop} {as : List α}
    (hitem : ∀ {us next a}, us <:+: ts → item us next a → P a) (h : Separated item ts next as) :
    ∀ a ∈ as, P a := by
  induction h with
  | none => exact fun a ha => absurd ha List.not_mem_nil
  | last ha =>
    intro a hmem
    rw [List.mem_singleton.1 hmem]
    exact hitem List.infix_rfl ha
  | @cons ts comma us _ _ _ ha _ _ ih =>
    intro a hmem
    rcases List.mem_cons.1 hmem with rfl | hmem
    · exact hitem ⟨[], comma :: us, rfl⟩ ha
    · exact ih (fun hpart => hitem (hpart.trans ⟨ts ++ [comma], [], by simp⟩)) a hmem

theorem Separated.forall_mem {item : Rule α} {P : α → Prop} {as : List α}
    (hitem : ∀ {us next a}, us ⊆ ts → item us next a → P a) (h : Separated item ts next as) :
    ∀ a ∈ as, P a :=
  h.forall_part fun hpart => hitem hpart.subset

end Invariants

section Mono

variable {ts : List Token} {next : Token}

theorem Separated.mono {item item' : Rule α} {as : List α}
    (h : ∀ {ts next a}, item ts next a → item' ts next a) (hs : Separated item ts next as) :
    Separated item' ts next as := by
  induction hs with
  | none => exact .none
  | last ha => exact .last (h ha)
  | cons ha hc _ ih => exact .cons (h ha) hc ih

theorem Entries.mono {entry entry' : σ → Rule σ} {s s' : σ}
    (h : ∀ {s s' ts next}, entry s ts next s' → entry' s ts next s')
    (he : Entries entry s ts next s') : Entries entry' s ts next s' := by
  induction he with
  | close hns hd => exact .close hns hd
  | entry hns ho he _ ih => exact .entry hns ho (h he) ih

theorem Block.mono {entry entry' : σ → Rule σ} {s s' : σ}
    (h : ∀ {s s' ts next}, entry s ts next s' → entry' s ts next s')
    (hb : Block entry s ts next s') : Block entry' s ts next s' := by
  cases hb with
  | empty hle hns hnl hi => exact .empty hle hns hnl hi
  | indented hle hns hi he => exact .indented hle hns hi (he.mono h)

theorem Appends.mono {rule rule' : Rule α} {xs ys : List α}
    (h : ∀ {ts next a}, rule ts next a → rule' ts next a) (ha : Appends rule xs ts next ys) :
    Appends rule' xs ts next ys := by
  cases ha with
  | mk hx => exact .mk (h hx)

end Mono

namespace Parser

variable {n : Nat}

section Items

variable {item : Parser α} {rule : Rule α} {close : Punct}

inductive ItemTurn (rule : Rule α) (close : Punct) (items : List α) : Token → Rule (List α × Bool)
  | closed {prev next} : next.lexeme = .punct close →
    ItemTurn rule close items prev [] next (items, false)
  | last {prev ts next a} : rule ts next a → (ts.headD next).lexeme ≠ .punct close →
    next.lexeme ≠ .punct .comma → ItemTurn rule close items prev ts next (items ++ [a], false)
  | comma {prev ts comma next a} : rule ts comma a → (ts.headD comma).lexeme ≠ .punct close →
    comma.lexeme = .punct .comma →
    ItemTurn rule close items prev (ts ++ [comma]) next (items ++ [a], true)

theorem itemTurn_reads (hitem : item.ReadsWithin n fun _ => rule) (items : List α) :
    (nextItem close item items).ReadsWithin n (ItemTurn rule close items) := by
  refine (seesPunct_bind fun b => .ite (fun _ => pure_reads (items, false)) fun _ =>
    hitem.bind fun x => accept_bind (by simp) fun more => pure_reads (items ++ [x], more)).congr
    fun prev ts next r => ?_
  simp only [beq_iff_eq]
  constructor
  · intro h
    split at h
    · next hclose =>
      obtain ⟨rfl, rfl⟩ := h
      exact .closed hclose
    · next hclose =>
      obtain ⟨us, _, a, rfl, hr, ⟨comma, _, rfl, hc, rfl, rfl⟩ | ⟨hc, rfl, rfl⟩⟩ := h
      · rw [headD_append] at hclose
        exact .comma hr hclose hc
      · rw [List.append_nil] at hclose ⊢
        exact .last hr hclose hc
  · intro h
    cases h with
    | closed hclose =>
      rw [if_pos (show (([] : List Token).headD next).lexeme = _ from hclose)]
      exact ⟨rfl, rfl⟩
    | last hr hclose hc =>
      rw [if_neg hclose]
      exact ⟨ts, [], _, (List.append_nil _).symm, hr, .inr ⟨hc, rfl, rfl⟩⟩
    | comma hr hclose hc =>
      rw [headD_append, List.headD_cons, if_neg hclose]
      exact ⟨_, [_], _, rfl, hr, .inl ⟨_, [], rfl, hc, rfl, rfl⟩⟩

theorem loop_itemTurn_iff (hclose : close ≠ .comma)
    (hfirst : ∀ {ts next a}, rule ts next a → (ts.headD next).lexeme ≠ .punct close)
    {items items' : List α} {prev next : Token} {ts : List Token}
    (hnext : next.lexeme = .punct close) :
    Loop (ItemTurn rule close) items prev ts next items' ↔
      ∃ as, items' = items ++ as ∧ Separated rule ts next as := by
  constructor
  · intro h
    induction h with
    | stop ht =>
      cases ht with
      | closed _ => exact ⟨[], (List.append_nil _).symm, .none⟩
      | last hr _ _ => exact ⟨_, rfl, .last hr⟩
    | more ht _ ih =>
      cases ht with
      | comma hr _ hc =>
        obtain ⟨as, rfl, hs⟩ := ih hnext
        refine ⟨_ :: as, by rw [List.append_assoc]; rfl, ?_⟩
        rw [List.append_assoc]
        exact .cons hr hc hs
  · rintro ⟨as, rfl, h⟩
    induction h generalizing items prev with
    | none =>
      rw [List.append_nil]
      exact .stop (.closed hnext)
    | last hr =>
      refine .stop (.last hr (hfirst hr) ?_)
      rw [hnext]
      simpa using hclose
    | cons hr hc _ ih =>
      have hmore : Loop (ItemTurn rule close) items prev _ _ _ :=
        .more (.comma hr (hfirst hr) hc) (ih hnext)
      rw [List.append_assoc, List.append_assoc] at hmore
      exact hmore

/-- Items up to `close` are read as `Separated` says, if none of them starts with `close`. -/
theorem commaSeparated_reads (hclose : close ≠ .comma)
    (hfirst : ∀ {ts next a}, rule ts next a → (ts.headD next).lexeme ≠ .punct close)
    (hitem : item.ReadsWithin n fun _ => rule) :
    (commaSeparated close item).ReadsWithin n fun _ ts _ as =>
      ∃ us t, ts = us ++ [t] ∧ t.lexeme = .punct close ∧ Separated rule us t as := by
  have hloop : (loop _ []).ReadsWithin n (Loop (ItemTurn rule close) []) :=
    loop_reads (itemTurn_reads hitem) (fun h => by cases h; simp) []
  have hall := hloop.bind fun items =>
    (expectPunct_reads close).token_bind (fun _ => pure_reads items) (Nat.le_succ n)
  refine hall.congr fun prev ts next as => ?_
  constructor
  · rintro ⟨us, _, items, rfl, hl, t, _, _, rfl, ht, rfl, rfl⟩
    obtain ⟨_, rfl, hs⟩ := (loop_itemTurn_iff hclose hfirst ht).1 hl
    exact ⟨us, t, rfl, ht, hs⟩
  · rintro ⟨us, t, rfl, ht, hs⟩
    exact ⟨us, [t], as, rfl, (loop_itemTurn_iff hclose hfirst ht).2 ⟨as, rfl, hs⟩,
      t, [], (), rfl, ht, rfl, rfl⟩

end Items

section Indented

variable {entry : σ → Parser σ} {rule : σ → Rule σ}

inductive EntryTurn (rule : σ → Rule σ) (s : σ) : Token → Rule (σ × Bool)
  | close {prev ns d next} : Newlines ns → d.lexeme = .dedent →
    EntryTurn rule s prev (ns ++ [d]) next (s, false)
  | entry {s₁ prev ns t ts next} : Newlines ns → Opens t → rule s (t :: ts) next s₁ →
    EntryTurn rule s prev (ns ++ t :: ts) next (s₁, true)

theorem entryTurn_reads (hne : ∀ {s s' ts next}, rule s ts next s' → ts ≠ [])
    (hentry : ∀ s, (entry s).ReadsWithin n fun _ => rule s) (s : σ) :
    (nextEntry entry s).ReadsWithin n (EntryTurn rule s) := by
  have hrest : (do
      let b ← sees .eof
      if b = true then do
        let r ← (fail (.expectedKind .dedent) : Parser Unit)
        (fun _ => do return (← entry s, true)) r
      else (fun _ => do return (← entry s, true)) () : Parser (σ × Bool)).ReadsWithin n
        fun _ ts next r => (ts.headD next).lexeme ≠ .eof ∧ rule s ts next r.1 ∧ r.2 = true := by
    refine (sees_bind fun b => .ite (fun _ => (fail_reads _).bind fun _ =>
      (hentry s).bind fun x => pure_reads (x, true)) fun _ =>
      (hentry s).bind fun x => pure_reads (x, true)).congr fun prev ts next r => ?_
    simp only [beq_iff_eq]
    constructor
    · intro h
      split at h
      · obtain ⟨_, _, _, _, h, _⟩ := h
        exact h.elim
      · next heof =>
        obtain ⟨us, _, x, rfl, hr, rfl, rfl⟩ := h
        rw [List.append_nil] at heof ⊢
        exact ⟨heof, hr, rfl⟩
    · rintro ⟨heof, hr, ht⟩
      rw [if_neg heof]
      exact ⟨ts, [], r.1, (List.append_nil _).symm, hr, rfl, Prod.ext rfl ht⟩
  refine (skipNewlines_reads.bind fun _ => accept_bind (by simp) fun b =>
    .ite (fun _ => pure_reads (s, false)) fun _ => hrest).congr fun prev ts next r => ?_
  constructor
  · rintro ⟨ns, _, _, rfl, ⟨hns, hnl⟩, ⟨d, _, rfl, hd, rfl, rfl⟩ | ⟨hd, heof, hr, ht⟩⟩
    · exact .close hns hd
    · rename_i us _
      obtain ⟨t, ts, rfl⟩ := List.exists_cons_of_ne_nil (hne hr)
      obtain ⟨s₁, _⟩ := r
      obtain rfl : _ = true := ht
      exact .entry hns ⟨hnl, hd, heof⟩ hr
  · intro h
    cases h with
    | close hns hd =>
      exact ⟨_, [_], (), rfl, ⟨hns, by rw [List.headD_cons, hd]; simp⟩,
        .inl ⟨_, [], rfl, hd, rfl, rfl⟩⟩
    | entry hns ho hr =>
      exact ⟨_, _ :: _, (), rfl, ⟨hns, ho.ne_newline⟩, .inr ⟨ho.ne_dedent, ho.ne_eof, hr, rfl⟩⟩

theorem loop_entryTurn_iff {s s' : σ} {prev next : Token} {ts : List Token} :
    Loop (EntryTurn rule) s prev ts next s' ↔ Entries rule s ts next s' := by
  constructor
  · intro h
    induction h with
    | stop ht =>
      cases ht with
      | close hns hd => exact .close hns hd
    | more ht _ ih =>
      cases ht with
      | entry hns ho hr => exact .entry hns ho hr ih
  · intro h
    induction h generalizing prev with
    | close hns hd => exact .stop (.close hns hd)
    | entry hns ho hr _ ih => exact .more (.entry hns ho hr) ih

theorem block_reads {entries : Parser σ} {s : σ}
    (hentries : entries.ReadsWithin n fun _ => Entries rule s) :
    (do
      expectNewline
      skipNewlines
      if !(← accept .indent) then return s
      entries : Parser σ).ReadsWithin n fun _ => Block rule s := by
  refine (expectNewline_reads.bind fun _ => skipNewlines_reads.bind fun _ =>
    accept_bind (by simp) fun b => .ite (b := !b) (fun _ => pure_reads s) fun _ =>
      hentries).congr fun prev ts next s' => ?_
  constructor
  · rintro ⟨le, _, _, rfl, hle, ns, _, _, rfl, ⟨hns, hnl⟩, ⟨i, us, rfl, hi, hes⟩ | ⟨hi, rfl, rfl⟩⟩
    · rw [← List.append_assoc]
      exact .indented (by rwa [headD_append] at hle) hns hi hes
    · rw [List.append_nil] at *
      exact .empty hle hns hnl hi
  · intro h
    cases h with
    | empty hle hns hnl hi =>
      exact ⟨_, _, (), rfl, hle, _, [], (), (List.append_nil _).symm, ⟨hns, hnl⟩,
        .inr ⟨hi, rfl, rfl⟩⟩
    | indented hle hns hi hes =>
      refine ⟨_, _, (), List.append_assoc .., by rwa [headD_append], _, _ :: _, (), rfl,
        ⟨hns, by rw [List.headD_cons, hi]; simp⟩, .inl ⟨_, _, rfl, hi, hes⟩⟩

theorem indentedFold_reads (hne : ∀ {s s' ts next}, rule s ts next s' → ts ≠ [])
    (hentry : ∀ s, (entry s).ReadsWithin n fun _ => rule s) (s : σ) :
    (indentedFold s entry).ReadsWithin n fun _ => Block rule s := by
  have hloop : (loop _ s).ReadsWithin n (Loop (EntryTurn rule) s) :=
    loop_reads (entryTurn_reads hne hentry)
      (fun h => by cases h; simp) s
  exact block_reads (hloop.congr fun _ _ _ _ => loop_entryTurn_iff)

theorem indented_reads {item : Parser α} {rule : Rule α}
    (hne : ∀ {ts next a}, rule ts next a → ts ≠ []) (hitem : item.ReadsWithin n fun _ => rule) :
    (indented item).ReadsWithin n fun _ => Block (Appends rule) [] := by
  refine indentedFold_reads (fun h => by cases h with | mk h => exact hne h) (fun xs => ?_) []
  refine (hitem.bind fun x => pure_reads (xs ++ [x])).congr fun prev ts next ys => ?_
  constructor
  · rintro ⟨us, _, x, rfl, hr, rfl, rfl⟩
    rw [List.append_nil]
    exact .mk hr
  · intro h
    cases h with
    | mk hr => exact ⟨ts, [], _, (List.append_nil _).symm, hr, rfl, rfl⟩

end Indented

theorem closeBlock_reads (start : Span) :
    (closeBlock start).ReadsWithin n fun _ => Closing start := by
  refine (skipNewlines_reads.bind fun _ => (expectKeyword_reads .endWord).token_bind (fun _ =>
    prevSpan_bind fun s => expectNewline_reads.bind fun _ => pure_reads (start.join s))
    (Nat.le_succ n)).congr fun prev ts next s => ?_
  constructor
  · rintro ⟨ns, _, _, rfl, ⟨hns, -⟩, e, _, _, rfl, he, le, _, _, rfl, hle, rfl, rfl⟩
    rw [List.append_nil]
    exact .mk hns he hle
  · intro h
    cases h with
    | mk hns he hle =>
      exact ⟨_, _ :: _, (), rfl, ⟨hns, by rw [List.headD_cons, he]; simp⟩, _, _, (), rfl, he,
        _, [], (), (List.append_nil _).symm, hle, rfl, rfl⟩

/-- Blocks that a word opens and that hold items alone. -/
theorem keywordBlock_reads {item : Parser α} {rule : Rule α} (k : Keyword)
    (hne : ∀ {ts next a}, rule ts next a → ts ≠ []) (hitem : item.ReadsWithin n fun _ => rule)
    (make : List α → Span → β) :
    (do
      let start ← here
      expectKeyword k
      let items ← indented item
      return make items (← closeBlock start) : Parser β).ReadsWithin n fun _ ts next b =>
      ∃ t us vs items span, ts = t :: us ++ vs ∧ t.lexeme = .keyword k ∧
        Block (Appends rule) [] us (vs.headD next) items ∧ Closing t.span vs next span ∧
        b = make items span := by
  refine (here_bind fun start => (expectKeyword_reads k).token_bind (fun _ =>
    (indented_reads hne hitem).bind fun items =>
      (closeBlock_reads start).bind fun span => pure_reads (make items span))
    (Nat.le_succ n)).congr fun prev ts next b => ?_
  constructor
  · rintro ⟨t, _, _, rfl, ht, us, _, items, rfl, hb, vs, _, span, rfl, hc, rfl, rfl⟩
    rw [List.append_nil] at *
    exact ⟨t, us, vs, items, span, rfl, ht, hb, hc, rfl⟩
  · rintro ⟨t, us, vs, items, span, rfl, ht, hb, hc, rfl⟩
    exact ⟨_, _, (), rfl, ht, _, _, _, rfl, hb, _, [], _, (List.append_nil _).symm, hc, rfl, rfl⟩

theorem touching_bind {p : Punct} {f g : Parser β} {yes no : Token → Rule β}
    (hf : f.ReadsWithin n yes) (hg : g.ReadsWithin n no) :
    (do if (← seesPunct p) && (← adjacent) then f else g : Parser β).ReadsWithin n
      fun prev ts next b => (Touches p prev (ts.headD next) ∧ yes prev ts next b) ∨
        (¬Touches p prev (ts.headD next) ∧ no prev ts next b) := by
  refine (seesPunct_bind fun a => adjacent_bind fun b => .ite (b := a && b) (fun _ => hf)
    fun _ => hg).congr fun prev ts next b => ?_
  simp only [Touches, Bool.and_eq_true, beq_iff_eq]
  split <;> simp_all

theorem touching_advance {p : Punct} {f g : Parser β} {yes no : Token → Rule β}
    (hf : f.ReadsWithin n yes) (hg : g.ReadsWithin n no) :
    (do if (← seesPunct p) && (← adjacent) then (do advance; f) else g : Parser β).ReadsWithin n
      fun prev ts next b =>
        (∃ t us, ts = t :: us ∧ Touches p prev t ∧ yes t us next b) ∨
          (¬Touches p prev (ts.headD next) ∧ no prev ts next b) := by
  intro c c' b hc hl
  rw [run_bind_ok (run_seesPunct p c), run_bind_ok (run_adjacent c)]
  by_cases ht : Touches p c.prev c.cur
  · rw [if_pos (by simpa [Touches] using ht),
      advance_bind_iff hf hc (Nat.lt_succ_of_lt hl) (by simp [ht.1])]
    constructor
    · rintro ⟨us, hp, hy⟩
      exact ⟨_, hp, .inl ⟨_, us, rfl, ht, hy⟩⟩
    · rintro ⟨_, hp, ⟨t, us, rfl, _, hy⟩ | ⟨hn, _⟩⟩
      · obtain rfl := hp.cur_cons
        exact ⟨us, hp, hy⟩
      · rw [← hp.cur] at hn
        exact absurd ht hn
  · rw [if_neg (by simpa [Touches] using ht), hg hc hl]
    refine exists_congr fun ts => and_congr_right fun hp => ?_
    constructor
    · intro hn
      rw [hp.cur] at ht
      exact .inr ⟨ht, hn⟩
    · rintro (⟨t, us, rfl, hy, _⟩ | ⟨_, hn⟩)
      · exact absurd (hp.cur_cons ▸ hy) ht
      · exact hn

inductive DashTurn (name : String) : Token → Rule (String × Bool)
  | stop {prev next} : ¬Touches .minus prev next → DashTurn name prev [] next (name, false)
  | more {prev dash word s next} : Touches .minus prev dash → word.lexeme.name? = some s →
    DashTurn name prev [dash, word] next (name ++ "-" ++ s, true)

theorem dashTurn_reads (name : String) :
    (nextDash name).ReadsWithin n (DashTurn name) := by
  refine (touching_advance (expectName_reads.token_bind
    (fun s => pure_reads (name ++ "-" ++ s, true)) (Nat.le_succ n))
    (pure_reads (name, false))).congr fun prev ts next r => ?_
  constructor
  · rintro (⟨dash, _, rfl, ht, word, _, s, rfl, hw, rfl, rfl⟩ | ⟨hn, rfl, rfl⟩)
    · exact .more ht hw
    · exact .stop hn
  · intro h
    cases h with
    | stop hn => exact .inr ⟨hn, rfl, rfl⟩
    | more ht hw => exact .inl ⟨_, _, rfl, ht, _, [], _, rfl, hw, rfl, rfl⟩

theorem loop_dashTurn_iff {name result : String} {prev next : Token} {ts : List Token} :
    Loop DashTurn name prev ts next result ↔ DashTail prev name ts next result := by
  constructor
  · intro h
    induction h with
    | stop ht =>
      cases ht with
      | stop hn => exact .stop hn
    | more ht _ ih =>
      cases ht with
      | more ht hw => exact .more ht hw ih
  · intro h
    induction h with
    | stop hn => exact .stop (.stop hn)
    | @more _ _ dash word _ us _ _ ht hw _ ih =>
      have hmore : Loop DashTurn _ _ ([dash, word] ++ us) _ _ := .more (.more ht hw) ih
      exact hmore

theorem dashedName_reads : dashedName.ReadsWithin n fun _ => DashedName := by
  have hloop (name : String) := loop_reads (n := n) dashTurn_reads
    (fun h => by cases h; exact List.cons_ne_nil _ _) name
  refine (expectName_reads.token_bind hloop (Nat.le_succ n)).congr fun prev ts next name => ?_
  constructor
  · rintro ⟨t, us, first, rfl, ht, hl⟩
    exact .mk ht (loop_dashTurn_iff.1 hl)
  · intro h
    cases h with
    | mk ht hd => exact ⟨_, _, _, rfl, ht, loop_dashTurn_iff.2 hd⟩

end Parser

end LayoutScript

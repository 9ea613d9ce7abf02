import LayoutScript.Token.Layout

/-! The tokens of lines and of whole texts. A line gives layout tokens, then tokens that stand for
its text, then a newline token; only a whole text ends in eof. -/
namespace LayoutScript

namespace Lexeme

def isSolid (l : Lexeme) : Bool := !l.kind.isLayout

theorem isSolid_punct (p : Punct) : (Lexeme.punct p).isSolid = true := by
  show (!(TokenKind.ofPunct p).isLayout) = true
  unfold TokenKind.ofPunct
  split <;> rfl

theorem exists_of_kind_interpolation {l : Lexeme} (h : l.kind = .interpolation) :
    ∃ raw, l = .interpolation raw := by
  cases l with
  | interpolation raw => exact ⟨raw, rfl⟩
  | punct p =>
    rw [kind, TokenKind.ofPunct] at h
    split at h <;> cases h
  | _ => cases h

theorem ne_of_isSolid {l l' : Lexeme} (h : l.isSolid = true) (h' : l'.isSolid = false) :
    l ≠ l' := by
  rintro rfl
  rw [h] at h'
  cases h'

theorem scan_isSolid {c : Char} {cs : List Char} {l : Lexeme} {width : Nat}
    (h : scan c cs = .ok (l, width)) : l.isSolid = true := by
  unfold scan at h
  split at h
  · cases h
    rfl
  · split at h
    · split at h <;> cases h
      unfold ofString
      split <;> rfl
    · split at h
      · cases h
        exact isSolid_punct _
      · split at h
        · split at h <;> cases h
          rfl
        · split at h
          · cases h
            unfold ofWord
            dsimp only
            split <;> rfl
          · split at h <;> cases h
            rfl

end Lexeme

namespace Levels

theorem getLast?_dropWhile {xs : List α} {a : α} {p : α → Bool} (h : xs.getLast? = some a)
    (ha : p a = false) : (xs.dropWhile p).getLast? = some a := by
  induction xs with
  | nil => cases h
  | cons x xs ih =>
    rw [List.dropWhile_cons]
    split
    · next hx =>
      cases xs with
      | nil =>
        obtain rfl : x = a := by simpa using h
        rw [hx] at ha
        cases ha
      | cons y ys => exact ih (by rwa [List.getLast?_cons_cons] at h)
    · exact h

def Grounded (levels : Levels) : Prop := levels.elements.getLast? = some 0

theorem initial_grounded : initial.Grounded := rfl

theorem move?_grounded {levels levels' : Levels} {width : Nat} {layout : List Lexeme}
    (hl : levels.Grounded) (h : levels.move? width = some (layout, levels')) :
    levels'.Grounded := by
  obtain ⟨elements⟩ := levels
  unfold move? at h
  split at h
  · cases h
    show (width :: elements).getLast? = some 0
    rw [List.getLast?_cons, show elements.getLast? = some 0 from hl]
    rfl
  · dsimp only at h
    split at h <;> cases h
    exact getLast?_dropWhile hl (by simp)

theorem eq_initial {levels : Levels} (hl : levels.Grounded) (hs : levels.size - 1 = 0) :
    levels = initial := by
  obtain ⟨elements⟩ := levels
  match elements with
  | [] => cases hl
  | [n] =>
    cases hl
    rfl
  | n :: m :: rest =>
    simp [Stack.size] at hs

theorem dropWhile_top (levels : Levels) :
    levels.elements.dropWhile (levels.top < ·) = levels.elements := by
  obtain ⟨elements⟩ := levels
  cases elements with
  | nil => rfl
  | cons n elements => exact List.dropWhile_cons_of_neg (by simp [top, Stack.peek?])

variable {levels : Levels} {width : Nat}

theorem move?_of_top_lt (h : levels.top < width) :
    levels.move? width = some ([.indent], levels.push width) := if_pos h

theorem move?_of_not_lt {es : List Nat} (h : ¬top ⟨es⟩ < width) : move? ⟨es⟩ width =
    if top ⟨es.dropWhile (width < ·)⟩ = width then
      some (List.replicate (es.length - (es.dropWhile (width < ·)).length) .dedent,
        ⟨es.dropWhile (width < ·)⟩)
    else none := if_neg h

theorem move?_of_top_eq (h : levels.top = width) : levels.move? width = some ([], levels) := by
  subst h
  obtain ⟨es⟩ := levels
  have hkept : es.dropWhile (top ⟨es⟩ < ·) = es := dropWhile_top ⟨es⟩
  rw [move?_of_not_lt (Nat.lt_irrefl _), hkept, if_pos rfl, Nat.sub_self, List.replicate_zero]

/-- A line below the top closes it, and then stands before the levels that are left. It must not
open another one from there. -/
theorem move?_of_lt_top (h : width < levels.top) : levels.move? width =
    if top levels.pop < width then none
    else (move? levels.pop width).map fun (layout, kept) => (.dedent :: layout, kept) := by
  obtain ⟨es⟩ := levels
  cases es with
  | nil => cases h
  | cons e es =>
    have he : width < e := h
    rw [move?_of_not_lt (Nat.lt_asymm h), List.dropWhile_cons_of_pos (by simpa using he)]
    show _ = if top ⟨es⟩ < width then none else (move? ⟨es⟩ width).map _
    by_cases hlt : top ⟨es⟩ < width
    · have hkept : es.dropWhile (width < ·) = es := by
        cases es with
        | nil => rfl
        | cons d es =>
          have hd : d < width := hlt
          exact List.dropWhile_cons_of_neg (by simp only [decide_eq_true_eq]; omega)
      rw [hkept, if_neg (Nat.ne_of_lt hlt), if_pos hlt]
    · have hlength : (es.dropWhile (width < ·)).length ≤ es.length :=
        (List.dropWhile_suffix _).length_le
      rw [if_neg hlt, move?_of_not_lt hlt, List.length_cons, Nat.sub_add_comm hlength,
        List.replicate_succ]
      split <;> rfl

end Levels

namespace Token

variable {source : String} {number : Nat} {levels levels' : Levels}

theorem ofChars_tokens {column covered : Nat} {cs : List Char} {tokens : List Token}
    (h : ofChars source number column covered cs = .ok tokens) :
    ∃ ts t, tokens = ts ++ [t] ∧ t.lexeme = .newline ∧ ∀ u ∈ ts, u.lexeme.isSolid = true := by
  fun_induction ofChars source number column covered cs generalizing tokens with
  | case1 column covered =>
    cases h
    exact ⟨[], _, rfl, rfl, fun _ hu => absurd hu List.not_mem_nil⟩
  | case2 column covered c cs ih => exact ih h
  | case3 column c cs hb ih => exact ih h
  | case4 column c cs hb cause hs => cases h
  | case5 column c cs hb lexeme width hs e he ih => cases h
  | case6 column c cs hb lexeme width hs rest hr ih =>
    cases h
    obtain ⟨ts, t, rfl, ht, hsolid⟩ := ih hr
    refine ⟨_ :: ts, t, rfl, ht, fun u hu => ?_⟩
    rcases List.mem_cons.1 hu with rfl | hu
    · exact Lexeme.scan_isSolid hs
    · exact hsolid u hu

theorem move?_layout {width : Nat} {layout : List Lexeme}
    (h : levels.move? width = some (layout, levels')) :
    layout = [.indent] ∨ ∃ n, layout = .replicate n .dedent := by
  unfold Levels.move? at h
  split at h
  · cases h
    exact .inl rfl
  · dsimp only at h
    split at h <;> cases h
    exact .inr ⟨_, rfl⟩

theorem ofLine_cases {line : List Char} {tokens : List Token}
    (h : ofLine source number levels line = .ok (tokens, levels')) :
    (isSkipped line = true ∧ tokens = [⟨.newline, .onLine source number 1 1⟩] ∧ levels' = levels) ∨
      (isSkipped line = false ∧ ∃ layout ts span,
        levels.move? ((Text.dropReturn line).takeWhile Text.isBlank).length =
          some (layout, levels') ∧
        ofChars source number 1 0 (Text.dropReturn line) = .ok ts ∧
        tokens = layout.map (⟨·, span⟩) ++ ts) := by
  unfold ofLine at h
  split at h
  · next hskip =>
    cases h
    exact .inl ⟨hskip, rfl, rfl⟩
  · next hskip =>
    dsimp only at h
    split at h
    · cases h
    · next layout _ hm =>
      split at h
      · cases h
      · next ts hc =>
        cases h
        exact .inr ⟨by simpa using hskip, layout, ts, _, hm, hc, rfl⟩

theorem ofLine_tokens {line : List Char} {tokens : List Token}
    (h : ofLine source number levels line = .ok (tokens, levels')) :
    (∃ ts t, tokens = ts ++ [t] ∧ t.lexeme = .newline) ∧ ∀ t ∈ tokens, t.lexeme ≠ .eof := by
  rcases ofLine_cases h with ⟨_, rfl, _⟩ | ⟨_, layout, tokens, span, hm, hc, rfl⟩
  · exact ⟨⟨[], _, rfl, rfl⟩, by simp⟩
  · obtain ⟨ts, t, rfl, ht, hsolid⟩ := ofChars_tokens hc
    refine ⟨⟨_, t, (List.append_assoc ..).symm, ht⟩, fun u hu => ?_⟩
    rcases List.mem_append.1 hu with hu | hu
    · obtain ⟨l, hl, rfl⟩ := List.mem_map.1 hu
      rcases move?_layout hm with rfl | ⟨n, rfl⟩
      · rw [List.mem_singleton.1 hl]
        simp
      · rw [(List.mem_replicate.1 hl).2]
        simp
    · rcases List.mem_append.1 hu with hu | hu
      · exact Lexeme.ne_of_isSolid (hsolid u hu) rfl
      · rw [List.mem_singleton.1 hu, ht]
        simp

theorem ofLine_grounded {line : List Char} {tokens : List Token} (hl : levels.Grounded)
    (h : ofLine source number levels line = .ok (tokens, levels')) : levels'.Grounded := by
  rcases ofLine_cases h with ⟨_, _, rfl⟩ | ⟨_, layout, ts, span, hm, _, _⟩
  · exact hl
  · exact Levels.move?_grounded hl hm

theorem ofLines_cons {line : List Char} {ts : List Token}
    (h : ofLine source number levels line = .ok (ts, levels')) (lines : List (List Char)) :
    ofLines source number levels (line :: lines) =
      (ofLines source (number + 1) levels' lines).map (ts ++ ·) := by
  simp only [ofLines, h]
  cases ofLines source (number + 1) levels' lines <;> rfl

structure LinesGive (source : String) (number : Nat) (levels : Levels) (lines : List (List Char))
    (ts : List Token) (levels' : Levels) : Prop where
  append : ∀ more, ofLines source number levels (lines ++ more) =
    (ofLines source (number + lines.length) levels' more).map (ts ++ ·)
  grounded : levels.Grounded → levels'.Grounded
  ne_eof : ∀ t ∈ ts, t.lexeme ≠ .eof
  newline : (lines = [] ∧ ts = []) ∨ ∃ us t, ts = us ++ [t] ∧ t.lexeme = .newline

theorem LinesGive.nil : LinesGive source number levels [] [] levels where
  append more := by cases h : ofLines source number levels more <;> simp [h, Except.map]
  grounded := id
  ne_eof := by simp
  newline := .inl ⟨rfl, rfl⟩

theorem LinesGive.cons {line : List Char} {lines : List (List Char)} {ts us : List Token}
    {levels'' : Levels} (hline : ofLine source number levels line = .ok (ts, levels'))
    (h : LinesGive source (number + 1) levels' lines us levels'') :
    LinesGive source number levels (line :: lines) (ts ++ us) levels'' where
  append more := by
    rw [List.cons_append, ofLines_cons hline, h.append, List.length_cons,
      show number + (lines.length + 1) = number + 1 + lines.length by omega]
    cases ofLines source (number + 1 + lines.length) levels'' more with
    | error e => rfl
    | ok rest => exact congrArg Except.ok (List.append_assoc ..).symm
  grounded hl := h.grounded (ofLine_grounded hl hline)
  ne_eof t ht := by
    rcases List.mem_append.1 ht with ht | ht
    · exact (ofLine_tokens hline).2 t ht
    · exact h.ne_eof t ht
  newline := by
    rcases h.newline with ⟨_, rfl⟩ | ⟨vs, t, rfl, ht⟩
    · rw [List.append_nil]
      exact .inr (ofLine_tokens hline).1
    · exact .inr ⟨_, t, (List.append_assoc ..).symm, ht⟩

/-- The tokens of lines, one line after the other, from the levels open before them to those open
after them. -/
inductive Scans (source : String) : Nat → Levels → List (List Char) → List Token → Levels → Prop
  | nil {number : Nat} {levels : Levels} : Scans source number levels [] [] levels
  | cons {number : Nat} {levels levels₁ levels' : Levels} {line lines ts us} :
    ofLine source number levels line = .ok (ts, levels₁) →
    Scans source (number + 1) levels₁ lines us levels' →
    Scans source number levels (line :: lines) (ts ++ us) levels'

theorem Scans.gives {lines : List (List Char)} {ts : List Token}
    (h : Scans source number levels lines ts levels') :
    LinesGive source number levels lines ts levels' := by
  induction h with
  | nil => exact .nil
  | cons hline _ ih => exact .cons hline ih

theorem ofLines_scans {lines : List (List Char)} {tokens : List Token}
    (h : ofLines source number levels lines = .ok tokens) :
    ∃ ts levels', Scans source number levels lines ts levels' := by
  induction lines generalizing number levels tokens with
  | nil => exact ⟨[], levels, .nil⟩
  | cons line lines ih =>
    cases hline : ofLine source number levels line with
    | error e => simp only [ofLines, hline, reduceCtorEq] at h
    | ok r =>
      obtain ⟨ts, levels₁⟩ := r
      rw [ofLines_cons hline] at h
      cases hrest : ofLines source (number + 1) levels₁ lines with
      | error e => simp only [hrest, Except.map, reduceCtorEq] at h
      | ok rest =>
        obtain ⟨us, levels', hs⟩ := ih hrest
        exact ⟨ts ++ us, levels', .cons hline hs⟩

theorem LinesGive.tokens {lines : List (List Char)} {ts : List Token}
    (h : LinesGive source number levels lines ts levels') :
    ∃ last, ofLines source number levels lines =
      .ok (ts ++ List.replicate (levels'.size - 1) ⟨.dedent, last⟩ ++ [⟨.eof, last⟩]) := by
  have happend := h.append []
  rw [List.append_nil] at happend
  exact ⟨_, by rw [happend, List.append_assoc]; rfl⟩

theorem ofLines_eq_ok {lines : List (List Char)} {tokens : List Token}
    (h : ofLines source number levels lines = .ok tokens) :
    ∃ ts levels' last, Scans source number levels lines ts levels' ∧
      tokens = ts ++ List.replicate (levels'.size - 1) ⟨.dedent, last⟩ ++ [⟨.eof, last⟩] := by
  obtain ⟨ts, levels', hs⟩ := ofLines_scans h
  obtain ⟨last, htokens⟩ := hs.gives.tokens
  exact ⟨ts, levels', last, hs, Except.ok.inj (h.symm.trans htokens)⟩

theorem LinesGive.ofText {code : List Char} {ts : List Token}
    (h : LinesGive source 1 .initial (Text.lines code) ts .initial) :
    ∃ last, Token.ofText source code = .ok (ts ++ [⟨.eof, last⟩]) := by
  obtain ⟨last, htokens⟩ := h.tokens
  rw [show List.replicate (Levels.initial.size - 1) _ = [] from rfl, List.append_nil] at htokens
  exact ⟨last, htokens⟩

theorem ofLines_ended {lines : List (List Char)} {tokens : List Token}
    (h : ofLines source number levels lines = .ok tokens) :
    ∃ ts last, tokens = ts ++ [last] ∧ last.lexeme = .eof ∧ ∀ t ∈ ts, t.lexeme ≠ .eof := by
  obtain ⟨ts, levels', last, hs, rfl⟩ := ofLines_eq_ok h
  refine ⟨_, _, rfl, rfl, fun t ht => ?_⟩
  rcases List.mem_append.1 ht with ht | ht
  · exact hs.gives.ne_eof t ht
  · rw [(List.mem_replicate.1 ht).2]
    simp

theorem ofLines_closed {lines : List (List Char)} {tokens : List Token}
    (h : ofLines source number levels lines = .ok tokens) :
    ∃ ts last, tokens = ts ++ [last] ∧ last.lexeme = .eof := by
  obtain ⟨ts, last, hts, hlast, -⟩ := ofLines_ended h
  exact ⟨ts, last, hts, hlast⟩

end Token

end LayoutScript

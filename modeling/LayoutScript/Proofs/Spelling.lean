import LayoutScript.Proofs.Layout

/-! How lexemes are spelled. Scanning takes the spelling of a lexeme from the front of a text, and
finds every lexeme whose spelling stands there in front of something that does not continue it. -/
namespace LayoutScript

theorem takeWhile_append_of_head {p : α → Bool} {xs ys : List α} (hx : ∀ x ∈ xs, p x = true)
    (hy : ∀ y ∈ ys.head?, p y = false) : (xs ++ ys).takeWhile p = xs := by
  rw [List.takeWhile_append_of_pos hx]
  cases ys with
  | nil => rw [List.takeWhile_nil, List.append_nil]
  | cons y ys => rw [List.takeWhile_cons_of_neg (by simp [hy y rfl]), List.append_nil]

theorem dropWhile_append_of_head {p : α → Bool} {xs ys : List α} (hx : ∀ x ∈ xs, p x = true)
    (hy : ∀ y ∈ ys.head?, p y = false) : (xs ++ ys).dropWhile p = ys := by
  rw [List.dropWhile_append_of_pos hx]
  cases ys with
  | nil => rfl
  | cons y ys => rw [List.dropWhile_cons_of_neg (by simp [hy y rfl])]

theorem isDigit_iff {c : Char} : Text.isDigit c = true ↔ 48 ≤ c.toNat ∧ c.toNat ≤ 57 := by
  simp only [Text.isDigit, Char.le_def, UInt32.le_iff_toNat_le, Bool.and_eq_true, decide_eq_true_eq]
  rfl

theorem isWordStart_iff {c : Char} : isWordStart c = true ↔
    (65 ≤ c.toNat ∧ c.toNat ≤ 90) ∨ (97 ≤ c.toNat ∧ c.toNat ≤ 122) ∨ c.toNat = 95 := by
  simp only [isWordStart, Char.le_def, UInt32.le_iff_toNat_le, Bool.or_eq_true, Bool.and_eq_true,
    decide_eq_true_eq, beq_iff_eq, ← Char.toNat_inj]
  exact or_assoc

theorem isWordStart_of_isDigit {c : Char} (h : Text.isDigit c = true) : isWordStart c = false := by
  rw [isDigit_iff] at h
  rw [Bool.eq_false_iff, ne_eq, isWordStart_iff]
  omega

theorem isBlank_of_isWordChar {c : Char} (h : isWordChar c = true) : Text.isBlank c = false := by
  rw [isWordChar, Bool.or_eq_true, isDigit_iff, isWordStart_iff] at h
  simp only [Text.isBlank, Bool.or_eq_false_iff, Bool.and_eq_false_iff, beq_eq_false_iff_ne,
    decide_eq_false_iff_not]
  omega

inductive Numeral : List Char → Prop
  | whole {ds} : ds ≠ [] → (∀ d ∈ ds, Text.isDigit d = true) → Numeral ds
  | fraction {ds es} : ds ≠ [] → (∀ d ∈ ds, Text.isDigit d = true) → es ≠ [] →
    (∀ e ∈ es, Text.isDigit e = true) → Numeral (ds ++ '.' :: es)

theorem Numeral.ne_nil {cs : List Char} (h : Numeral cs) : cs ≠ [] := by
  cases h with
  | whole hd _ => exact hd
  | fraction hd _ _ _ => exact fun h => hd (List.append_eq_nil_iff.1 h).1

theorem Numeral.forall_mem {P : Char → Prop} {cs : List Char} (h : Numeral cs)
    (hdigit : ∀ d, Text.isDigit d = true → P d) (hdot : P '.') : ∀ c ∈ cs, P c := by
  cases h with
  | whole _ hd => exact fun c hc => hdigit c (hd c hc)
  | fraction _ hd _ he =>
    refine List.forall_mem_append.2 ⟨fun c hc => hdigit c (hd c hc), ?_⟩
    exact List.forall_mem_cons.2 ⟨hdot, fun c hc => hdigit c (he c hc)⟩

namespace Lexeme

/-- What a lexeme has to be so that it can be spelled on one line. -/
def WellFormed : Lexeme → Prop
  | .identifier name => isWord name = true ∧ Keyword.ofText? name = none
  | .instanceVar name => isWord name = true
  | .number raw => Numeral raw.toList
  | .string raw => '"' ∉ raw.toList ∧ '\n' ∉ raw.toList ∧ opensSlot raw.toList = false
  | .template raw => '"' ∉ raw.toList ∧ '\n' ∉ raw.toList ∧ opensSlot raw.toList = true
  | _ => True

/-- The texts that stand for a lexeme: its source form, with any blanks inside the braces of an
interpolation. -/
def Spells : Lexeme → List Char → Prop
  | .interpolation raw, cs =>
    ∃ inner, cs = '{' :: '{' :: inner ++ ['}', '}'] ∧ Text.trim inner = raw.toList
  | l, cs => cs = l.text.toList ∧ l.WellFormed

theorem Spells.wellFormed {l : Lexeme} {cs : List Char} (h : l.Spells cs) : l.WellFormed := by
  cases l <;> first | trivial | exact h.2

end Lexeme

/-! ### What is scanned is spelled -/

theorem beforeBraces?_eq_some {cs inner : List Char} (h : beforeBraces? cs = some inner) :
    ∃ rest, cs = inner ++ '}' :: '}' :: rest := by
  fun_induction beforeBraces? cs generalizing inner with
  | case1 rest =>
    cases h
    exact ⟨rest, rfl⟩
  | case2 c cs _ ih =>
    obtain ⟨inner', hi, rfl⟩ := Option.map_eq_some_iff.1 h
    obtain ⟨rest, rfl⟩ := ih hi
    exact ⟨rest, rfl⟩
  | case3 => cases h

theorem interpolation?_eq_some {cs inner : List Char} (h : interpolation? cs = some inner) :
    ∃ rest, cs = '{' :: inner ++ '}' :: '}' :: rest := by
  unfold interpolation? at h
  split at h
  · obtain ⟨rest, rfl⟩ := beforeBraces?_eq_some h
    exact ⟨rest, rfl⟩
  · cases h

theorem beforeQuote?_eq_some {cs raw : List Char} (h : beforeQuote? cs = some raw) :
    '"' ∉ raw ∧ ∃ rest, cs = raw ++ '"' :: rest := by
  induction cs generalizing raw with
  | nil => cases h
  | cons c cs ih =>
    rw [beforeQuote?] at h
    split at h
    · next hc =>
      cases h
      exact ⟨List.not_mem_nil, cs, by rw [hc]; rfl⟩
    · next hc =>
      obtain ⟨raw', hr, rfl⟩ := Option.map_eq_some_iff.1 h
      obtain ⟨hq, rest, rfl⟩ := ih hr
      refine ⟨?_, rest, rfl⟩
      rw [List.mem_cons, not_or]
      exact ⟨Ne.symm hc, hq⟩

namespace Punct

theorem text_of_ofPair? {c d : Char} {p : Punct} (h : ofPair? c d = some p) :
    p.text.toList = [c, d] := by
  unfold ofPair? at h
  split at h <;> cases h <;> rfl

theorem text_of_ofChar? {c : Char} {p : Punct} (h : ofChar? c = some p) : p.text.toList = [c] := by
  unfold ofChar? at h
  split at h <;> cases h <;> rfl

theorem scan?_eq_some {c : Char} {cs : List Char} {p : Punct} {width : Nat}
    (h : scan? c cs = some (p, width)) :
    ∃ rest, c :: cs = p.text.toList ++ rest ∧ p.text.toList.length = width := by
  have hone (h : (ofChar? c).map (·, 1) = some (p, width)) :
      ∃ rest, c :: cs = p.text.toList ++ rest ∧ p.text.toList.length = width := by
    obtain ⟨q, hq, he⟩ := Option.map_eq_some_iff.1 h
    cases he
    rw [text_of_ofChar? hq]
    exact ⟨cs, rfl, rfl⟩
  unfold scan? at h
  split at h
  · split at h
    · next hp =>
      cases h
      rw [text_of_ofPair? hp]
      exact ⟨_, rfl, rfl⟩
    · exact hone h
  · exact hone h

end Punct

theorem isWord_leadingName {cs : List Char} (h : leadingName cs ≠ []) :
    isWord (String.ofList (leadingName cs)) = true := by
  unfold leadingName at h ⊢
  split
  · exact absurd rfl h
  · next c cs =>
    dsimp only at h
    split at h
    · next hc =>
      have hword : isWordChar c = true := by simp [isWordChar, hc]
      rw [if_pos hc, List.takeWhile_cons_of_pos hword, isWord, String.toList_ofList]
      simp [hc, List.all_takeWhile]
    · exact absurd rfl h

theorem leadingName_append (cs : List Char) : ∃ rest, cs = leadingName cs ++ rest := by
  unfold leadingName
  split
  · exact ⟨[], rfl⟩
  · split
    · exact ⟨_, List.takeWhile_append_dropWhile.symm⟩
    · exact ⟨_, rfl⟩

theorem leadingNumber_append (cs : List Char) : ∃ rest, cs = leadingNumber cs ++ rest := by
  unfold leadingNumber
  dsimp only
  split
  · next d rest hdrop =>
    have hcs := List.takeWhile_append_dropWhile (p := Text.isDigit) (l := cs)
    split
    · refine ⟨(d :: rest).dropWhile Text.isDigit, ?_⟩
      rw [List.append_assoc, List.cons_append, List.takeWhile_append_dropWhile, ← hdrop, hcs]
    · exact ⟨_, hcs.symm⟩
  · exact ⟨_, List.takeWhile_append_dropWhile.symm⟩

theorem numeral_leadingNumber {c : Char} (hc : Text.isDigit c = true) (cs : List Char) :
    Numeral (leadingNumber (c :: cs)) := by
  have hne : (c :: cs).takeWhile Text.isDigit ≠ [] := by
    rw [List.takeWhile_cons_of_pos hc]
    exact List.cons_ne_nil _ _
  have hall {ds : List Char} : ∀ d ∈ ds.takeWhile Text.isDigit, Text.isDigit d = true :=
    List.all_eq_true.1 List.all_takeWhile
  unfold leadingNumber
  dsimp only
  split
  · split
    · next hd =>
      refine .fraction hne hall ?_ hall
      rw [List.takeWhile_cons_of_pos hd]
      exact List.cons_ne_nil _ _
    · exact .whole hne hall
  · exact .whole hne hall

namespace Lexeme

theorem ofWord_spells {cs : List Char} (h : isWord (String.ofList cs) = true) :
    (ofWord cs).Spells cs := by
  unfold ofWord
  dsimp only
  split
  · next k hk =>
    refine ⟨?_, trivial⟩
    rw [show (Lexeme.keyword k).text = k.text from rfl, Keyword.text_of_ofText? hk,
      String.toList_ofList]
  · next hk => exact ⟨String.toList_ofList.symm, h, hk⟩

theorem ofString_spells {cs : List Char} (hq : '"' ∉ cs) (hn : '\n' ∉ cs) :
    (ofString cs).Spells ('"' :: cs ++ ['"']) := by
  have htext : '"' :: cs ++ ['"'] = ("\"" ++ String.ofList cs ++ "\"").toList := by
    simp [String.toList_append]
  unfold ofString
  split
  · next hs => exact ⟨htext, by rw [WellFormed, String.toList_ofList]; exact ⟨hq, hn, hs⟩⟩
  · next hs =>
    exact ⟨htext, by rw [WellFormed, String.toList_ofList]; exact ⟨hq, hn, by simpa using hs⟩⟩

theorem scan_spells {c : Char} {cs : List Char} {l : Lexeme} {width : Nat} (hn : '\n' ∉ c :: cs)
    (h : scan c cs = .ok (l, width)) :
    ∃ text rest, c :: cs = text ++ rest ∧ text.length = width ∧ text ≠ [] ∧ l.Spells text := by
  unfold scan at h
  split at h
  · next inner hi =>
    cases h
    split at hi
    · next hc =>
      obtain ⟨rest, rfl⟩ := interpolation?_eq_some hi
      refine ⟨'{' :: '{' :: inner ++ ['}', '}'], rest,
        by simp [hc], by simp, by simp, inner, rfl, ?_⟩
      rw [String.toList_ofList]
    · cases hi
  · split at h
    · next hc =>
      split at h <;> cases h
      next raw hr =>
      obtain ⟨hq, rest, rfl⟩ := beforeQuote?_eq_some hr
      refine ⟨'"' :: raw ++ ['"'], rest, by simp [hc], by simp, by simp, ofString_spells hq ?_⟩
      exact fun hm => hn (by simp [hm])
    · split at h
      · next p w hp =>
        cases h
        obtain ⟨rest, hcs, rfl⟩ := Punct.scan?_eq_some hp
        refine ⟨_, rest, hcs, rfl, ?_, rfl, trivial⟩
        cases p <;> decide
      · split at h
        · next hc =>
          split at h <;> cases h
          next hne =>
          obtain ⟨rest, hcs⟩ := leadingName_append cs
          refine ⟨'@' :: leadingName cs, rest, ?_, by simp, by simp, ?_,
            isWord_leadingName fun h => hne h⟩
          · rw [hc, List.cons_append, ← hcs]
          · simp [text, value, String.toList_append]
        · split at h
          · next hc =>
            cases h
            have hne : leadingName (c :: cs) ≠ [] := by
              simp [leadingName, hc, isWordChar]
            obtain ⟨rest, hcs⟩ := leadingName_append (c :: cs)
            exact ⟨_, rest, hcs, rfl, hne, ofWord_spells (isWord_leadingName hne)⟩
          · split at h <;> cases h
            next hc =>
            have hnum := numeral_leadingNumber hc cs
            obtain ⟨rest, hcs⟩ := leadingNumber_append (c :: cs)
            refine ⟨_, rest, hcs, rfl, hnum.ne_nil, String.toList_ofList.symm, ?_⟩
            rwa [WellFormed, String.toList_ofList]

end Lexeme

/-! ### What is spelled is scanned -/

theorem Punct.scan?_eq_none {c : Char} (hc : isWordChar c = true) (cs : List Char) :
    Punct.scan? c cs = none := by
  have hone : Punct.ofChar? c = none := by
    unfold Punct.ofChar?
    split <;> first | rfl | simp [isWordChar, isWordStart, Text.isDigit] at hc
  have htwo (d : Char) : Punct.ofPair? c d = none := by
    unfold Punct.ofPair?
    split <;> first | rfl | simp [isWordChar, isWordStart, Text.isDigit] at hc
  unfold Punct.scan?
  split
  · rw [htwo, hone]
    rfl
  · rw [hone]
    rfl

theorem Punct.spelling (p : Punct) :
    (∃ c, p.text.toList = [c] ∧ ofChar? c = some p) ∨
      ∃ c d, p.text.toList = [c, d] ∧ ofPair? c d = some p := by
  cases p <;> first | exact .inl ⟨_, rfl, rfl⟩ | exact .inr ⟨_, _, rfl, rfl⟩

def Punct.joins : Punct → Char → Bool
  | .equal, '=' | .bang, '=' | .less, '=' | .greater, '=' | .openBrace, '{' => true
  | _, _ => false

theorem Punct.scan?_text (p : Punct) {rest : List Char}
    (hrest : ∀ d ∈ rest.head?, p.joins d = false) :
    ∃ c cs, p.text.toList = c :: cs ∧ Punct.scan? c (cs ++ rest) = some (p, cs.length + 1) := by
  rcases p.spelling with ⟨c, hc, hp⟩ | ⟨c, d, hcd, hp⟩
  · refine ⟨c, [], hc, ?_⟩
    have hone : (ofChar? c).map (·, 1) = some (p, 1) := by
      rw [hp]
      rfl
    cases rest with
    | nil => exact hone
    | cons d rest =>
      have hpair : ofPair? c d = none := by
        have hd := hrest d rfl
        unfold ofPair?
        split <;> first | rfl | cases hp <;> cases hd
      simp only [List.nil_append, Punct.scan?, hpair]
      exact hone
  · refine ⟨c, [d], hcd, ?_⟩
    simp only [List.singleton_append, Punct.scan?, hp]
    rfl

theorem leadingName_append_of_head {s : String} {rest : List Char} (hs : isWord s = true)
    (hrest : ∀ c ∈ rest.head?, isWordChar c = false) :
    leadingName (s.toList ++ rest) = s.toList := by
  unfold isWord at hs
  split at hs
  · cases hs
  · next c cs hcs =>
    rw [Bool.and_eq_true] at hs
    have hall : ∀ d ∈ c :: cs, isWordChar d = true := by
      rw [← List.all_eq_true, List.all_cons, hs.2]
      simp [isWordChar, hs.1]
    rw [hcs, List.cons_append, leadingName, if_pos hs.1, ← List.cons_append]
    exact takeWhile_append_of_head hall hrest

theorem leadingNumber_append_of_head {cs rest : List Char} (hcs : Numeral cs)
    (hrest : ∀ c ∈ rest.head?, Text.isDigit c = false ∧ c ≠ '.') :
    leadingNumber (cs ++ rest) = cs := by
  have hdigit : ∀ c ∈ rest.head?, Text.isDigit c = false := fun c hc => (hrest c hc).1
  have hdot : ∀ d more, rest ≠ '.' :: d :: more := by
    rintro d more rfl
    exact (hrest '.' rfl).2 rfl
  unfold leadingNumber
  dsimp only
  cases hcs with
  | whole _ hd =>
    rw [takeWhile_append_of_head hd hdigit, dropWhile_append_of_head hd hdigit]
    split
    · exact absurd rfl (hdot _ _)
    · rfl
  | @fraction ds es _ hd hne he =>
    obtain ⟨e, es, rfl⟩ := List.exists_cons_of_ne_nil hne
    have hpoint : ∀ c ∈ ('.' :: (e :: es ++ rest)).head?, Text.isDigit c = false := by
      rintro c ⟨⟩
      rfl
    rw [List.append_assoc, List.cons_append, takeWhile_append_of_head hd hpoint,
      dropWhile_append_of_head hd hpoint]
    show (if Text.isDigit e = true then ds ++ '.' :: (e :: es ++ rest).takeWhile Text.isDigit
      else ds) = _
    rw [if_pos (he e List.mem_cons_self), takeWhile_append_of_head he hdigit]

theorem beforeQuote?_append {cs rest : List Char} (h : '"' ∉ cs) :
    beforeQuote? (cs ++ '"' :: rest) = some cs := by
  induction cs with
  | nil => rfl
  | cons c cs ih =>
    rw [List.mem_cons, not_or] at h
    rw [List.cons_append, beforeQuote?, if_neg (Ne.symm h.1), ih h.2]
    rfl

namespace Lexeme

/-- The text `rest` does not continue the lexeme. -/
def StopsAt : Lexeme → List Char → Prop
  | .keyword _, rest | .identifier _, rest | .instanceVar _, rest =>
    ∀ c ∈ rest.head?, isWordChar c = false
  | .number _, rest => ∀ c ∈ rest.head?, Text.isDigit c = false ∧ c ≠ '.'
  | .punct p, rest => ∀ c ∈ rest.head?, p.joins c = false
  | _, _ => True

/-- Lexemes with one spelling: neither layout nor an interpolation. -/
def isPlain : Lexeme → Bool
  | .interpolation _ | .indent | .dedent | .newline | .eof => false
  | _ => true

theorem scan_word {s : String} {rest : List Char} (hs : isWord s = true)
    (hrest : ∀ c ∈ rest.head?, isWordChar c = false) :
    ∃ c cs, s.toList = c :: cs ∧ scan c (cs ++ rest) = .ok (ofWord (c :: cs), cs.length + 1) := by
  have hname := leadingName_append_of_head hs hrest
  unfold isWord at hs
  split at hs
  · cases hs
  · next c cs hcs =>
    rw [Bool.and_eq_true] at hs
    have hne {d : Char} (hd : isWordStart d = false) : c ≠ d := by
      rintro rfl
      rw [hs.1] at hd
      cases hd
    rw [hcs, List.cons_append] at hname
    refine ⟨c, cs, hcs, ?_⟩
    unfold scan
    rw [if_neg (hne rfl), Punct.scan?_eq_none (by simp [isWordChar, hs.1])]
    simp only [if_neg (hne (d := '"') rfl), if_neg (hne (d := '@') rfl), if_pos hs.1, hname,
      List.length_cons]

theorem scan_number {cs rest : List Char} (hcs : Numeral cs)
    (hrest : ∀ c ∈ rest.head?, Text.isDigit c = false ∧ c ≠ '.') :
    ∃ c ds, cs = c :: ds ∧
      scan c (ds ++ rest) = .ok (.number (String.ofList cs), ds.length + 1) := by
  have hnumber := leadingNumber_append_of_head hcs hrest
  obtain ⟨c, ds, rfl, hc⟩ : ∃ c ds, cs = c :: ds ∧ Text.isDigit c = true := by
    cases hcs with
    | whole hne hd =>
      obtain ⟨c, ds, rfl⟩ := List.exists_cons_of_ne_nil hne
      exact ⟨c, ds, rfl, hd c List.mem_cons_self⟩
    | fraction hne hd _ _ =>
      obtain ⟨c, ds, rfl⟩ := List.exists_cons_of_ne_nil hne
      exact ⟨c, _, rfl, hd c List.mem_cons_self⟩
  have hne {d : Char} (hd : Text.isDigit d = false) : c ≠ d := by
    rintro rfl
    rw [hc] at hd
    cases hd
  refine ⟨c, ds, rfl, ?_⟩
  unfold scan
  rw [if_neg (hne rfl), Punct.scan?_eq_none (by simp [isWordChar, hc])]
  simp only [if_neg (hne (d := '"') rfl), if_neg (hne (d := '@') rfl), isWordStart_of_isDigit hc,
    if_pos hc]
  rw [← List.cons_append, hnumber]
  rfl

theorem scan_quoted {cs rest : List Char} (hcs : '"' ∉ cs) :
    scan '"' (cs ++ '"' :: rest) = .ok (ofString cs, cs.length + 2) := by
  unfold scan
  rw [if_neg (by decide), beforeQuote?_append hcs]
  rfl

theorem scan_punct {p : Punct} {rest : List Char} (hrest : ∀ c ∈ rest.head?, p.joins c = false) :
    ∃ c cs, p.text.toList = c :: cs ∧ scan c (cs ++ rest) = .ok (.punct p, cs.length + 1) := by
  obtain ⟨c, cs, hcs, hscan⟩ := p.scan?_text hrest
  refine ⟨c, cs, hcs, ?_⟩
  have hquote : c ≠ '"' := by
    rintro rfl
    cases p <;> cases hcs
  have hbrace : (if c = '{' then interpolation? (cs ++ rest) else none) = none := by
    split
    · next hc =>
      obtain ⟨rfl, rfl⟩ : p = .openBrace ∧ cs = [] := by
        subst hc
        cases p <;> cases hcs
        exact ⟨rfl, rfl⟩
      unfold interpolation?
      split
      · next h =>
        rw [List.nil_append] at h
        exact absurd (hrest '{' (by rw [h]; rfl)) (by decide)
      · rfl
    · rfl
  unfold scan
  rw [hbrace]
  simp only [if_neg hquote, hscan]

theorem scan_instanceVar {s : String} {rest : List Char} (hs : isWord s = true)
    (hrest : ∀ c ∈ rest.head?, isWordChar c = false) :
    scan '@' (s.toList ++ rest) = .ok (.instanceVar s, s.toList.length + 1) := by
  have hpunct : Punct.scan? '@' (s.toList ++ rest) = none := by
    unfold Punct.scan?
    split <;> rfl
  unfold scan
  rw [if_neg (by decide), hpunct, leadingName_append_of_head hs hrest]
  cases hc : s.toList with
  | nil => simp [isWord, hc] at hs
  | cons c cs => simp [← hc]

/-- A spelling in front of something that does not continue it is scanned as its lexeme. -/
theorem scan_text {l : Lexeme} {rest : List Char} (hp : l.isPlain = true) (hl : l.WellFormed)
    (hrest : l.StopsAt rest) :
    ∃ c cs, l.text.toList = c :: cs ∧ scan c (cs ++ rest) = .ok (l, cs.length + 1) := by
  have hquoted {raw : String} : ("\"" ++ raw ++ "\"").toList = '"' :: (raw.toList ++ ['"']) := by
    simp [String.toList_append]
  cases l with
  | keyword k =>
    obtain ⟨c, cs, hcs, hscan⟩ := scan_word (s := k.text) (by cases k <;> decide) hrest
    refine ⟨c, cs, hcs, ?_⟩
    rw [hscan, ofWord, ← hcs, String.ofList_toList, Keyword.ofText?_text]
  | identifier name =>
    obtain ⟨c, cs, hcs, hscan⟩ := scan_word hl.1 hrest
    refine ⟨c, cs, hcs, ?_⟩
    rw [hscan, ofWord, ← hcs, String.ofList_toList, hl.2]
  | string raw =>
    refine ⟨'"', raw.toList ++ ['"'], hquoted, ?_⟩
    rw [List.append_assoc, List.singleton_append, scan_quoted hl.1, ofString, hl.2.2]
    simp
  | template raw =>
    refine ⟨'"', raw.toList ++ ['"'], hquoted, ?_⟩
    rw [List.append_assoc, List.singleton_append, scan_quoted hl.1, ofString, hl.2.2]
    simp
  | number raw =>
    obtain ⟨c, cs, hcs, hscan⟩ := scan_number hl hrest
    refine ⟨c, cs, hcs, ?_⟩
    rw [hscan, String.ofList_toList]
  | instanceVar name =>
    refine ⟨'@', name.toList, by simp [text, value, String.toList_append], ?_⟩
    exact scan_instanceVar hl hrest
  | punct p => exact scan_punct hrest
  | interpolation _ | indent | dedent | newline | eof => cases hp

end Lexeme

structure Clean (cs : List Char) : Prop where
  head : ∃ c ds, cs = c :: ds ∧ Text.isBlank c = false ∧ c ≠ '#'
  last : ∃ ds c, cs = ds ++ [c] ∧ c ≠ '\r'
  line : '\n' ∉ cs

namespace Clean

variable {cs ds : List Char}

theorem append (hc : Clean cs) (sep : List Char) (hs : '\n' ∉ sep) (hd : Clean ds) :
    Clean (cs ++ sep ++ ds) where
  head := by
    obtain ⟨c, cs, rfl, hhead⟩ := hc.head
    exact ⟨c, cs ++ sep ++ ds, rfl, hhead⟩
  last := by
    obtain ⟨ds, d, rfl, hlast⟩ := hd.last
    exact ⟨cs ++ sep ++ ds, d, (List.append_assoc ..).symm, hlast⟩
  line h := by
    rw [List.mem_append, List.mem_append] at h
    exact h.elim (fun h => h.elim hc.line hs) hd.line

theorem of_solid (hne : cs ≠ []) (h : ∀ c ∈ cs, Text.isBlank c = false ∧ c ≠ '#') : Clean cs where
  head := by
    obtain ⟨c, ds, rfl⟩ := List.exists_cons_of_ne_nil hne
    exact ⟨c, ds, rfl, h c List.mem_cons_self⟩
  last := by
    obtain ⟨ds, c, rfl⟩ := List.eq_nil_or_concat cs |>.resolve_left hne
    refine ⟨ds, c, List.concat_eq_append, ?_⟩
    rintro rfl
    exact absurd (h '\r' (by simp)).1 (by decide)
  line hc := absurd (h _ hc).1 (by decide)

theorem of_word {s : String} (h : isWord s = true) : Clean s.toList := by
  unfold isWord at h
  split at h
  · cases h
  · next c cs hcs =>
    rw [Bool.and_eq_true, List.all_eq_true] at h
    rw [hcs]
    refine of_solid (List.cons_ne_nil _ _) fun d hd => ?_
    have hword : isWordChar d = true := by
      rcases List.mem_cons.1 hd with rfl | hd
      · simp [isWordChar, h.1]
      · exact h.2 d hd
    refine ⟨isBlank_of_isWordChar hword, ?_⟩
    rintro rfl
    cases hword

theorem quoted (h : '\n' ∉ cs) : Clean ('"' :: cs ++ ['"']) where
  head := ⟨'"', _, rfl, rfl, by decide⟩
  last := ⟨'"' :: cs, '"', rfl, by decide⟩
  line hm := by
    simp at hm
    exact h hm

end Clean

theorem Numeral.clean {cs : List Char} (h : Numeral cs) : Clean cs := by
  refine .of_solid h.ne_nil (h.forall_mem (fun d hd => ?_) (by decide))
  refine ⟨isBlank_of_isWordChar (by simp [isWordChar, hd]), ?_⟩
  rintro rfl
  cases hd

theorem Lexeme.clean_text {l : Lexeme} (hp : l.isPlain = true) (hl : l.WellFormed) :
    Clean l.text.toList := by
  have hquoted {raw : String} : ("\"" ++ raw ++ "\"").toList = '"' :: raw.toList ++ ['"'] := by
    simp [String.toList_append]
  cases l with
  | keyword k => exact .of_word (s := k.text) (by cases k <;> decide)
  | identifier name => exact .of_word hl.1
  | string raw | template raw =>
    rw [text, hquoted]
    exact .quoted hl.2.1
  | number raw => exact hl.clean
  | instanceVar name =>
    have hsigil : Clean ['@'] := .of_solid (List.cons_ne_nil _ _) fun c hc => by
      rw [List.mem_singleton.1 hc]
      decide
    simpa [text, value, String.toList_append] using hsigil.append [] (by decide) (.of_word hl)
  | punct p =>
    have hsolid : p.text.toList.all (fun c => !Text.isBlank c && c != '#') = true := by
      cases p <;> decide
    exact .of_solid (by cases p <;> decide) fun c hc => by
      simpa using List.all_eq_true.1 hsolid c hc
  | interpolation _ | indent | dedent | newline | eof => cases hp

/-! ### The tokens of a line -/

namespace Token

/-- The tokens of a text that stands on one line from `column` on. Each has a piece of the text for
itself, and between the pieces there are blanks only. -/
inductive Laid (source : String) (line : Nat) : Nat → List Char → List Token → Prop
  | done {column} : Laid source line column [] []
  | blank {column c cs ts} : Text.isBlank c = true → Laid source line (column + 1) cs ts →
    Laid source line column (c :: cs) ts
  | token {column text rest l ts} : text ≠ [] → l.isSolid = true → l.Spells text →
    Laid source line (column + text.length) rest ts →
    Laid source line column (text ++ rest)
      (⟨l, .ofWidth source line column text.length⟩ :: ts)

variable {source : String} {line : Nat}

theorem ofChars_laid {column covered : Nat} {cs : List Char} {tokens : List Token}
    (hn : '\n' ∉ cs) (hcovered : covered ≤ cs.length)
    (h : ofChars source line column covered cs = .ok tokens) :
    ∃ ts last, tokens = ts ++ [⟨.newline, last⟩] ∧
      Laid source line (column + covered) (cs.drop covered) ts := by
  fun_induction ofChars source line column covered cs generalizing tokens with
  | case1 column covered =>
    cases h
    rw [List.drop_nil]
    exact ⟨[], _, rfl, .done⟩
  | case2 column covered c cs ih =>
    obtain ⟨ts, last, rfl, hts⟩ := ih (fun hm => hn (List.mem_cons_of_mem _ hm))
      (Nat.le_of_succ_le_succ hcovered) h
    refine ⟨ts, last, rfl, ?_⟩
    rwa [Nat.add_assoc, Nat.add_comm 1] at hts
  | case3 column c cs hb ih =>
    obtain ⟨ts, last, rfl, hts⟩ := ih (fun hm => hn (List.mem_cons_of_mem _ hm)) (Nat.zero_le _) h
    exact ⟨ts, last, rfl, .blank hb hts⟩
  | case4 column c cs hb cause hs => cases h
  | case5 column c cs hb l width hs e he ih => cases h
  | case6 column c cs hb l width hs rest hr ih =>
    cases h
    obtain ⟨text, more, hcs, rfl, hne, hspells⟩ := Lexeme.scan_spells hn hs
    obtain ⟨d, text, rfl⟩ := List.exists_cons_of_ne_nil hne
    rw [List.cons_append] at hcs
    obtain ⟨rfl, rfl⟩ := List.cons.inj hcs
    obtain ⟨ts, last, rfl, hts⟩ := ih (fun hm => hn (List.mem_cons_of_mem _ hm))
      (by simp) hr
    refine ⟨_ :: ts, last, rfl, ?_⟩
    have hrest : Laid source line (column + (c :: text).length) more ts := by
      have hdrop : (text ++ more).drop ((c :: text).length - 1) = more := by simp
      rwa [hdrop, show column + 1 + ((c :: text).length - 1) = column + (c :: text).length by
        simp; omega] at hts
    exact .token hne (Lexeme.scan_isSolid hs) hspells hrest

theorem Laid.spells {column : Nat} {cs : List Char} {ts : List Token}
    (h : Laid source line column cs ts) :
    ∀ t ∈ ts, ∃ text, text <:+: cs ∧ t.lexeme.Spells text := by
  induction h with
  | done => exact fun t ht => absurd ht List.not_mem_nil
  | blank _ _ ih =>
    intro t ht
    obtain ⟨text, hin, hs⟩ := ih t ht
    exact ⟨text, hin.trans (List.suffix_cons _ _).isInfix, hs⟩
  | @token _ text _ _ _ _ _ hs _ ih =>
    intro t ht
    rcases List.mem_cons.1 ht with rfl | ht
    · exact ⟨text, (List.prefix_append _ _).isInfix, hs⟩
    · obtain ⟨text, hin, hs⟩ := ih t ht
      exact ⟨text, hin.trans (List.suffix_append _ _).isInfix, hs⟩

end Token

end LayoutScript

import LayoutScript.Proofs.LayoutRun
import LayoutScript.Proofs.ParserGist
import LayoutScript.Proofs.SpanIndependence

/-! Two texts that differ in their skipped lines and in the widths of their indentation. If the
widths are in the same order, the texts have tokens with the same gist, and so the same script. -/
namespace LayoutScript

/-! ### Levels -/

namespace Levels

def relaid (f : Nat → Nat) (levels : Levels) : Levels := ⟨levels.elements.map f⟩

/-- A change of widths that keeps the margin and the order of the widths in `W`. -/
structure Keeps (W : Nat → Prop) (f : Nat → Nat) : Prop where
  zero : f 0 = 0
  margin : W 0
  lt : ∀ {a b}, W a → W b → a < b → f a < f b

variable {W : Nat → Prop} {f : Nat → Nat} {levels levels' : Levels} {width : Nat}

theorem Keeps.lt_iff (hf : Keeps W f) {a b : Nat} (ha : W a) (hb : W b) : f a < f b ↔ a < b := by
  constructor
  · intro h
    rcases Nat.lt_trichotomy a b with hab | rfl | hba
    · exact hab
    · omega
    · have := hf.lt hb ha hba
      omega
  · exact hf.lt ha hb

theorem Keeps.eq_iff (hf : Keeps W f) {a b : Nat} (ha : W a) (hb : W b) : f a = f b ↔ a = b := by
  have hab := hf.lt_iff ha hb
  have hba := hf.lt_iff hb ha
  omega

def Within (W : Nat → Prop) (levels : Levels) : Prop := ∀ a ∈ levels.elements, W a

theorem Within.top (h : levels.Within W) (hzero : W 0) : W levels.top := by
  obtain ⟨es⟩ := levels
  cases es with
  | nil => exact hzero
  | cons e es => exact h e List.mem_cons_self

theorem top_relaid (hf : Keeps W f) (levels : Levels) : (levels.relaid f).top = f levels.top := by
  obtain ⟨es⟩ := levels
  cases es with
  | nil => exact hf.zero.symm
  | cons e es => rfl

theorem dropWhile_relaid (hf : Keeps W f) {es : List Nat} (hes : ∀ a ∈ es, W a) (hw : W width) :
    (es.map f).dropWhile (f width < ·) = (es.dropWhile (width < ·)).map f := by
  induction es with
  | nil => rfl
  | cons e es ih =>
    have hiff := hf.lt_iff hw (hes e List.mem_cons_self)
    have hrest := ih fun a ha => hes a (List.mem_cons_of_mem _ ha)
    rw [List.map_cons, List.dropWhile_cons, List.dropWhile_cons]
    by_cases h : width < e
    · rw [if_pos (by simpa using hiff.2 h), if_pos (by simpa using h), hrest]
    · rw [if_neg (by simpa using mt hiff.1 h), if_neg (by simpa using h), List.map_cons]

theorem move?_relaid (hf : Keeps W f) (hl : levels.Within W) (hw : W width) :
    (levels.relaid f).move? (f width) = (levels.move? width).map (Prod.map id (relaid f)) := by
  have htop := top_relaid hf levels
  obtain ⟨es⟩ := levels
  have hiff := hf.lt_iff (hl.top hf.margin) hw
  by_cases hlt : top ⟨es⟩ < width
  · have hlt' : (relaid f ⟨es⟩).top < f width := by
      rw [htop]
      exact hiff.2 hlt
    rw [move?_of_top_lt hlt, move?_of_top_lt hlt']
    rfl
  · have hlt' : ¬top ⟨es.map f⟩ < f width := by
      rw [show top ⟨es.map f⟩ = f (top ⟨es⟩) from htop]
      exact mt hiff.1 hlt
    have hkept : Within W ⟨es.dropWhile (width < ·)⟩ :=
      fun a ha => hl a ((List.dropWhile_suffix _).subset ha)
    have heq := hf.eq_iff (hkept.top hf.margin) hw
    rw [relaid, move?_of_not_lt hlt', move?_of_not_lt hlt, dropWhile_relaid hf hl hw,
      List.length_map, List.length_map,
      show top ⟨(es.dropWhile (width < ·)).map f⟩ = f (top ⟨es.dropWhile (width < ·)⟩) from
        top_relaid hf ⟨es.dropWhile (width < ·)⟩]
    by_cases hmeets : top ⟨es.dropWhile (width < ·)⟩ = width
    · rw [if_pos hmeets, if_pos (heq.2 hmeets)]
      rfl
    · rw [if_neg hmeets, if_neg (mt heq.1 hmeets)]
      rfl

theorem Within.move? (hl : levels.Within W) (hw : W width) {layout : List Lexeme}
    (h : levels.move? width = some (layout, levels')) : levels'.Within W := by
  obtain ⟨es⟩ := levels
  unfold Levels.move? at h
  split at h
  · cases h
    intro a ha
    rcases List.mem_cons.1 ha with rfl | ha
    · exact hw
    · exact hl a ha
  · dsimp only at h
    split at h <;> cases h
    intro a ha
    exact hl a ((List.dropWhile_suffix _).subset ha)

end Levels

/-! ### Tokens of one line -/

theorem gist_layout {layout : List Lexeme} {prev prev' : Token} {span span' : Span}
    {rest rest' : List Token} (hlayout : ∀ l ∈ layout, l.isSolid = false ∧ l ≠ .newline)
    (h : gist ((layout.map (Token.mk · span)).getLastD prev) rest =
      gist ((layout.map (Token.mk · span')).getLastD prev') rest') :
    gist prev (layout.map (Token.mk · span) ++ rest) =
      gist prev' (layout.map (Token.mk · span') ++ rest') := by
  induction layout generalizing prev prev' with
  | nil => exact h
  | cons l layout ih =>
    obtain ⟨hsolid, hne⟩ := hlayout l List.mem_cons_self
    rw [List.map_cons, List.getLastD_cons, List.map_cons, List.getLastD_cons] at h
    have hrest := ih (fun l hl => hlayout l (List.mem_cons_of_mem _ hl)) h
    rw [List.map_cons, List.map_cons, List.cons_append, List.cons_append,
      gist_of_not_newlines (.inr hne), gist_of_not_newlines (.inr hne), hrest]
    simp only [hsolid, Bool.false_and]

namespace Token

variable {source : String}

def touches (t : Token) (line column : Nat) : Bool :=
  t.span.lineEnd == .ofNat line && t.span.columnEnd + 1 == .ofNat column

theorem follows_ofWidth (lexeme : Lexeme) (prev : Token) (line first width : Nat) :
    follows ⟨lexeme, .ofWidth source line first width⟩ prev = prev.touches line first := rfl

/-- Two places with what stands before them, such that tokens at the same distance from them touch
alike. -/
structure Beside (prev : Token) (line column : Nat) (prev' : Token) (line' column' : Nat) :
    Prop where
  newline : prev.lexeme = .newline ↔ prev'.lexeme = .newline
  touches : ∀ k, prev.touches line (column + k) = prev'.touches line' (column' + k)

theorem Beside.add {prev prev' : Token} {line line' column column' : Nat}
    (h : Beside prev line column prev' line' column') (n : Nat) :
    Beside prev line (column + n) prev' line' (column' + n) where
  newline := h.newline
  touches k := by
    rw [Nat.add_assoc, Nat.add_assoc]
    exact h.touches (n + k)

theorem touches_onLine (lexeme : Lexeme) (line first last k : Nat) :
    touches ⟨lexeme, .onLine source line first last⟩ line (last + k) = (UInt32.ofNat k == 1) := by
  have hcolumn : UInt32.ofNat (last + k) = UInt32.ofNat last + UInt32.ofNat k := UInt32.ofNat_add ..
  unfold touches Span.onLine
  rw [beq_self_eq_true, Bool.true_and, hcolumn, Bool.eq_iff_iff, beq_iff_eq, beq_iff_eq,
    UInt32.add_right_inj]
  exact eq_comm

theorem beside_onLine (source : String) (lexeme : Lexeme)
    (line line' first first' last last' : Nat) :
    Beside ⟨lexeme, .onLine source line first last⟩ line last
      ⟨lexeme, .onLine source line' first' last'⟩ line' last' where
  newline := Iff.rfl
  touches k := by rw [touches_onLine, touches_onLine]

/-- Two columns at which the next `n` characters get along: those are the same, or there are words
for all of them. -/
def Alongside (n column column' : Nat) : Prop :=
  column = column' ∨ (column + n ≤ UInt32.size ∧ column' + n ≤ UInt32.size)

theorem Alongside.mono {m n column column' : Nat} (h : Alongside n column column') (hm : m ≤ n) :
    Alongside m column column' := by
  rcases h with h | ⟨h, h'⟩
  · exact .inl h
  · exact .inr ⟨by omega, by omega⟩

theorem Alongside.succ {n column column' : Nat} (h : Alongside (n + 1) column column') :
    Alongside n (column + 1) (column' + 1) := by
  rcases h with rfl | ⟨h, h'⟩
  · exact .inl rfl
  · exact .inr ⟨by omega, by omega⟩

theorem beside_ofWidth (source : String) (lexeme : Lexeme) (line line' : Nat)
    {width first first' : Nat} (hpos : 0 < width) (h : Alongside width first first') :
    Beside ⟨lexeme, .ofWidth source line first width⟩ line (first + width - 1)
      ⟨lexeme, .ofWidth source line' first' width⟩ line' (first' + width - 1) := by
  rcases h with rfl | ⟨h, h'⟩
  · exact ⟨Iff.rfl, fun k => by simp only [touches, Span.ofWidth, beq_self_eq_true]⟩
  · rw [Span.ofWidth_eq_onLine hpos h, Span.ofWidth_eq_onLine hpos h']
    exact beside_onLine source lexeme line line' first first' _ _

def SameLine (line column line' column' : Nat) :
    Except LexError (List Token) → Except LexError (List Token) → Prop
  | .error _, .error _ => True
  | .ok ts, .ok ts' => ∀ (prev prev' : Token) (rest rest' : List Token),
    Beside prev line column prev' line' column' →
    gist (ts.getLastD prev) rest = gist (ts'.getLastD prev') rest' →
    gist prev (ts ++ rest) = gist prev' (ts' ++ rest')
  | _, _ => False

theorem SameLine.of_add {line column line' column' n : Nat}
    {r r' : Except LexError (List Token)}
    (h : SameLine line (column + n) line' (column' + n) r r') :
    SameLine line column line' column' r r' := by
  cases r with
  | error e =>
    cases r' with
    | error e' => trivial
    | ok ts' => exact h
  | ok ts =>
    cases r' with
    | error e' => exact h
    | ok ts' => exact fun _ _ _ _ hprev => h _ _ _ _ (hprev.add n)

theorem SameLine.cons {lexeme : Lexeme} (hsolid : lexeme.isSolid = true) (source : String)
    {line line' column column' width : Nat} {r r' : Except LexError (List Token)} (hpos : 0 < width)
    (hcolumns : Alongside width column column')
    (h : SameLine line (column + width) line' (column' + width) r r') :
    SameLine line column line' column'
      (r.map (⟨lexeme, .ofWidth source line column width⟩ :: ·))
      (r'.map (⟨lexeme, .ofWidth source line' column' width⟩ :: ·)) := by
  have hne : lexeme ≠ .newline := Lexeme.ne_of_isSolid hsolid rfl
  cases r with
  | error e =>
    cases r' with
    | error e' => trivial
    | ok ts' => exact h
  | ok ts =>
    cases r' with
    | error e' => exact h
    | ok ts' =>
      intro prev prev' rest rest' hprev hrest
      rw [List.getLastD_cons, List.getLastD_cons] at hrest
      have hlast := (beside_ofWidth source lexeme line line' hpos hcolumns).add 1
      rw [Nat.sub_add_cancel (Nat.le_add_left_of_le hpos),
        Nat.sub_add_cancel (Nat.le_add_left_of_le hpos)] at hlast
      have htail := h _ _ rest rest' hlast hrest
      rw [List.cons_append, List.cons_append, gist_of_not_newlines (.inr hne),
        gist_of_not_newlines (.inr hne), htail, follows_ofWidth, follows_ofWidth]
      exact congrArg (fun b => (lexeme, lexeme.isSolid && b) :: _) (hprev.touches 0)

theorem ofChars_sameLine (source : String) (line line' : Nat) {column column' : Nat} (covered : Nat)
    (cs : List Char) (hn : '\n' ∉ cs) (hcolumns : Alongside cs.length column column') :
    SameLine line (column + covered) line' (column' + covered)
      (ofChars source line column covered cs) (ofChars source line' column' covered cs) := by
  fun_induction ofChars source line column covered cs generalizing column' with
  | case1 column covered =>
    rw [ofChars]
    intro prev prev' rest rest' hprev hrest
    rw [List.singleton_append, List.singleton_append]
    by_cases hnewline : prev.lexeme = .newline
    · rw [gist_of_newlines hnewline rfl, gist_of_newlines (hprev.newline.1 hnewline) rfl]
      exact hrest
    · rw [gist_of_not_newlines (.inl hnewline),
        gist_of_not_newlines (.inl (mt hprev.newline.2 hnewline))]
      exact congrArg ((Lexeme.newline, false) :: ·) hrest
  | case2 column covered c cs ih =>
    rw [ofChars]
    have hrest := ih (fun hm => hn (List.mem_cons_of_mem _ hm)) hcolumns.succ
    rwa [Nat.add_right_comm column 1, Nat.add_right_comm column' 1] at hrest
  | case3 column c cs hb ih =>
    rw [ofChars, if_pos hb]
    exact (ih (fun hm => hn (List.mem_cons_of_mem _ hm)) hcolumns.succ).of_add (n := 1)
  | case4 column c cs hb cause hs =>
    simp only [ofChars, hb, hs, SameLine]
    trivial
  | case5 column c cs hb lexeme width hs e he ih =>
    have hrest := ih (fun hm => hn (List.mem_cons_of_mem _ hm)) hcolumns.succ
    rw [he] at hrest
    cases hr' : ofChars source line' (column' + 1) (width - 1) cs with
    | error e' =>
      simp only [ofChars, hb, hs, hr', SameLine]
      trivial
    | ok ts' =>
      rw [hr'] at hrest
      exact hrest.elim
  | case6 column c cs hb lexeme width hs rest hr ih =>
    have hrest := ih (fun hm => hn (List.mem_cons_of_mem _ hm)) hcolumns.succ
    obtain ⟨text, more, hcs, hwidth, hne, -⟩ := Lexeme.scan_spells hn hs
    have hpos : 0 < width := hwidth ▸ List.length_pos_iff.2 hne
    have hle : width ≤ (c :: cs).length := by
      rw [hcs, List.length_append, hwidth]
      exact Nat.le_add_right _ _
    rw [hr, Nat.add_assoc, Nat.add_assoc, Nat.add_comm 1, Nat.sub_add_cancel hpos] at hrest
    have hright : ofChars source line' column' 0 (c :: cs) =
        (ofChars source line' (column' + 1) (width - 1) cs).map
          (⟨lexeme, .ofWidth source line' column' width⟩ :: ·) := by
      cases hr' : ofChars source line' (column' + 1) (width - 1) cs <;>
        simp only [ofChars, hb, hs, hr', Except.map, Bool.false_eq_true, if_false]
    rw [hright]
    exact hrest.cons (Lexeme.scan_isSolid hs) source hpos (hcolumns.mono hle)

def Ends (i : Nat) (t : Token) : Prop := t.lexeme = .newline ∧ t.span.lineEnd = .ofNat i

theorem ofChars_ends {line column covered : Nat} {cs : List Char} {ts : List Token}
    (h : ofChars source line column covered cs = .ok ts) (prev : Token) :
    (ts.getLastD prev).Ends line := by
  fun_induction ofChars source line column covered cs generalizing ts prev with
  | case1 column covered =>
    cases h
    exact ⟨rfl, rfl⟩
  | case2 column covered c cs ih => exact ih h prev
  | case3 column c cs hb ih => exact ih h prev
  | case4 column c cs hb cause hs => cases h
  | case5 column c cs hb lexeme width hs e he ih => cases h
  | case6 column c cs hb lexeme width hs rest hr ih =>
    cases h
    rw [List.getLastD_cons]
    exact ih hr _

theorem Ends.touches {t : Token} {i : Nat} (h : t.Ends i) (column : Nat) :
    t.touches (i + 1) column = false := by
  have hline : (UInt32.ofNat i == UInt32.ofNat (i + 1)) = false := by
    rw [beq_eq_false_iff_ne, UInt32.ofNat_add, ne_eq, UInt32.left_eq_add]
    decide
  unfold Token.touches
  rw [h.2, hline, Bool.false_and]

/-- Layout tokens end where the text of their line starts, so it does not touch them. -/
theorem beside_layout (source : String) {before before' : Token} {i i' : Nat} (hb : before.Ends i)
    (hb' : before'.Ends i') (layout : List Lexeme) (width width' : Nat) :
    Beside ((layout.map (Token.mk · (.onLine source (i + 1) 1 (width + 1)))).getLastD before)
      (i + 1) (1 + width)
      ((layout.map (Token.mk · (.onLine source (i' + 1) 1 (width' + 1)))).getLastD before')
      (i' + 1) (1 + width') := by
  rcases List.eq_nil_or_concat layout with rfl | ⟨layout, l, rfl⟩
  · exact ⟨iff_of_true hb.1 hb'.1, fun k => (hb.touches _).trans (hb'.touches _).symm⟩
  · rw [List.concat_eq_append, List.map_append, List.map_append, getLastD_append, getLastD_append,
      Nat.add_comm 1, Nat.add_comm 1]
    exact beside_onLine source l (i + 1) (i' + 1) 1 1 (width + 1) (width' + 1)

end Token

theorem Text.dropReturn_eq_append {line : List Char} (h : isSkipped line = false) :
    dropReturn line = line.takeWhile isBlank ++ dropReturn (trimLeft line) := by
  have hne : trimLeft line ≠ [] := by
    intro hnil
    rw [isSkipped, hnil] at h
    cases h
  have hline : line = line.takeWhile isBlank ++ trimLeft line :=
    List.takeWhile_append_dropWhile.symm
  obtain ⟨last, hlast⟩ : ∃ last, (trimLeft line).getLast? = some last :=
    ⟨_, List.getLast?_eq_some_getLast hne⟩
  have hlast' : line.getLast? = some last := by
    rw [hline, List.getLast?_append, hlast]
    rfl
  unfold dropReturn
  rw [hlast, hlast']
  split
  · calc line.dropLast = (line.takeWhile isBlank ++ trimLeft line).dropLast := by rw [← hline]
      _ = line.takeWhile isBlank ++ (trimLeft line).dropLast :=
        List.dropLast_append_of_ne_nil hne
  · exact hline

theorem Token.ofChars_trimmed {source : String} {number : Nat} {line : List Char}
    (h : isSkipped line = false) :
    ofChars source number 1 0 (Text.dropReturn line) =
      ofChars source number (1 + Text.margin line) 0 (Text.dropReturn (Text.trimLeft line)) := by
  rw [Text.dropReturn_eq_append h, ofChars_blanks]
  · rfl
  · intro c hc
    exact List.all_eq_true.1 List.all_takeWhile c hc

/-! ### Whole texts -/

/-- Lines that differ from others by skipped lines on both sides and by the widths of their
indentation, which `f` changes. -/
inductive Relaid (f : Nat → Nat) : List (List Char) → List (List Char) → Prop
  | nil : Relaid f [] []
  | skippedLeft {line lines lines'} : isSkipped line = true → Relaid f lines lines' →
    Relaid f (line :: lines) lines'
  | skippedRight {line lines lines'} : isSkipped line = true → Relaid f lines lines' →
    Relaid f lines (line :: lines')
  | line {line line' lines lines'} : isSkipped line = false →
    Text.trimLeft line' = Text.trimLeft line → Text.margin line' = f (Text.margin line) →
    Token.Alongside (Text.trimLeft line).length (1 + Text.margin line) (1 + Text.margin line') →
    Relaid f lines lines' → Relaid f (line :: lines) (line' :: lines')

namespace Token

variable {source : String} {W : Nat → Prop} {f : Nat → Nat} {lines lines' : List (List Char)}

theorem isSkipped_congr {line line' : List Char} (h : Text.trimLeft line' = Text.trimLeft line) :
    isSkipped line' = isSkipped line := by
  unfold isSkipped
  rw [h]

theorem move?_solid {levels levels' : Levels} {width : Nat} {layout : List Lexeme}
    (h : levels.move? width = some (layout, levels')) :
    ∀ l ∈ layout, l.isSolid = false ∧ l ≠ .newline := by
  intro l hl
  rcases move?_layout h with rfl | ⟨n, rfl⟩
  · rw [List.mem_singleton.1 hl]
    exact ⟨rfl, by decide⟩
  · rw [(List.mem_replicate.1 hl).2]
    exact ⟨rfl, by decide⟩

theorem gist_closing (before before' : Token) (n : Nat) (span span' : Span) :
    gist before (List.replicate n ⟨.dedent, span⟩ ++ [⟨.eof, span⟩]) =
      gist before' (List.replicate n ⟨.dedent, span'⟩ ++ [⟨.eof, span'⟩]) := by
  have hmap (span : Span) : List.replicate n (Token.mk .dedent span) ++ [⟨.eof, span⟩] =
      (List.replicate n Lexeme.dedent ++ [Lexeme.eof]).map (Token.mk · span) ++ [] := by
    rw [List.append_nil, List.map_append, List.map_replicate, List.map_singleton]
  rw [hmap, hmap]
  apply gist_layout
  · intro l hl
    rcases List.mem_append.1 hl with hl | hl
    · rw [(List.mem_replicate.1 hl).2]
      exact ⟨rfl, by decide⟩
    · rw [List.mem_singleton.1 hl]
      exact ⟨rfl, by decide⟩
  · rfl

theorem toOption_map_skipped (source : String) {line : List Char} (hskip : isSkipped line = true)
    (levels : Levels) {i : Nat} {before : Token} (hb : before.Ends i) (lines : List (List Char)) :
    ∃ newline : Token, newline.Ends (i + 1) ∧
      (ofLines source (i + 1) levels (line :: lines)).toOption.map (gist before) =
        (ofLines source (i + 1 + 1) levels lines).toOption.map (gist newline) := by
  refine ⟨⟨.newline, .onLine source (i + 1) 1 1⟩, ⟨rfl, rfl⟩, ?_⟩
  rw [ofLines_cons (LayoutRun.ofLine_skipped hskip)]
  cases ofLines source (i + 1 + 1) levels lines with
  | error e => rfl
  | ok rest => exact congrArg some (gist_of_newlines hb.1 rfl)

/-- A line that is not skipped, in two texts: both have no tokens, or the tokens have the same gist
up to the newline tokens `last` and `last'`. -/
theorem ofLine_relaid (hf : Levels.Keeps W f) {line line' : List Char}
    (hskip : isSkipped line = false) (htrim : Text.trimLeft line' = Text.trimLeft line)
    (hmargin : Text.margin line' = f (Text.margin line))
    (hcolumns : Alongside (Text.trimLeft line).length (1 + Text.margin line)
      (1 + Text.margin line')) (hn : '\n' ∉ line) (hw : W (Text.margin line))
    {levels : Levels} (hl : levels.Within W) {i i' : Nat} {before before' : Token}
    (hb : before.Ends i) (hb' : before'.Ends i') :
    (∃ e e', ofLine source (i + 1) levels line = .error e ∧
      ofLine source (i' + 1) (levels.relaid f) line' = .error e') ∨
    ∃ ts ts' levels₁ last last', ofLine source (i + 1) levels line = .ok (ts, levels₁) ∧
      ofLine source (i' + 1) (levels.relaid f) line' = .ok (ts', levels₁.relaid f) ∧
      levels₁.Within W ∧ last.Ends (i + 1) ∧ last'.Ends (i' + 1) ∧
      ∀ rest rest', gist last rest = gist last' rest' →
        gist before (ts ++ rest) = gist before' (ts' ++ rest') := by
  have hskip' : isSkipped line' = false := (isSkipped_congr htrim).trans hskip
  have hmove := Levels.move?_relaid hf hl hw
  rw [← hmargin] at hmove
  cases hm : levels.move? (Text.margin line) with
  | none =>
    rw [hm] at hmove
    exact .inl ⟨_, _, LayoutRun.ofLine_misfit hskip hm, LayoutRun.ofLine_misfit hskip' hmove⟩
  | some r =>
    obtain ⟨layout, levels₁⟩ := r
    rw [hm, Option.map_some, Prod.map_apply, id_eq] at hmove
    have hline := @LayoutRun.ofLine_settled source i _ _ _ _ hskip hm
    have hline' := @LayoutRun.ofLine_settled source i' _ _ _ _ hskip' hmove
    have hsub : Text.dropReturn (Text.trimLeft line) <+: Text.trimLeft line := by
      obtain ⟨tail, htail, -⟩ := Text.dropReturn_append (Text.trimLeft line)
      exact ⟨tail, htail.symm⟩
    have hsame := ofChars_sameLine source (i + 1) (i' + 1) 0 (Text.dropReturn (Text.trimLeft line))
      (fun hm => hn ((List.dropWhile_suffix _).subset (hsub.subset hm)))
        (hcolumns.mono hsub.length_le)
    rw [← ofChars_trimmed hskip, ← htrim, ← ofChars_trimmed hskip'] at hsame
    cases hts : ofChars source (i + 1) 1 0 (Text.dropReturn line) with
    | error e =>
      cases hts' : ofChars source (i' + 1) 1 0 (Text.dropReturn line') with
      | error e' =>
        rw [hts] at hline
        rw [hts'] at hline'
        exact .inl ⟨_, _, hline, hline'⟩
      | ok ts' =>
        rw [hts, hts'] at hsame
        exact hsame.elim
    | ok ts =>
      cases hts' : ofChars source (i' + 1) 1 0 (Text.dropReturn line') with
      | error e' =>
        rw [hts, hts'] at hsame
        exact hsame.elim
      | ok ts' =>
        rw [hts, hts'] at hsame
        rw [hts] at hline
        rw [hts'] at hline'
        have hbeside := beside_layout source hb hb' layout (Text.margin line)
          (Text.margin line')
        refine .inr ⟨_, _, levels₁,
          ts.getLastD ((layout.map (⟨·, LayoutRun.layoutSpan source i line⟩)).getLastD before),
          ts'.getLastD ((layout.map (⟨·, LayoutRun.layoutSpan source i' line'⟩)).getLastD before'),
          hline, hline', hl.move? hw hm, ofChars_ends hts _, ofChars_ends hts' _, ?_⟩
        intro rest rest' hrest
        rw [List.append_assoc, List.append_assoc]
        apply gist_layout (move?_solid hm)
        exact hsame _ _ rest rest' hbeside hrest

theorem ofLines_relaid (source : String) (hf : Levels.Keeps W f) (h : Relaid f lines lines')
    (hn : ∀ line ∈ lines, '\n' ∉ line)
    (hW : ∀ line ∈ lines, isSkipped line = false → W (Text.margin line)) {levels : Levels}
    (hl : levels.Within W) {i i' : Nat} {before before' : Token} (hb : before.Ends i)
    (hb' : before'.Ends i') :
    (ofLines source (i + 1) levels lines).toOption.map (gist before) =
      (ofLines source (i' + 1) (levels.relaid f) lines').toOption.map (gist before') := by
  induction h generalizing levels i i' before before' with
  | nil =>
    have hsize : (levels.relaid f).size = levels.size := List.length_map f
    rw [ofLines, ofLines, hsize]
    exact congrArg some (gist_closing before before' (levels.size - 1) _ _)
  | @skippedLeft line lines lines' hskip h ih =>
    obtain ⟨newline, hnewline, hskipped⟩ :=
      toOption_map_skipped source hskip levels hb lines
    rw [hskipped]
    exact ih (fun line hline => hn line (List.mem_cons_of_mem _ hline))
      (fun line hline => hW line (List.mem_cons_of_mem _ hline)) hl hnewline hb'
  | @skippedRight line lines lines' hskip h ih =>
    obtain ⟨newline, hnewline, hskipped⟩ :=
      toOption_map_skipped source hskip (levels.relaid f) hb' lines'
    rw [hskipped]
    exact ih hn hW hl hb hnewline
  | @line line line' lines lines' hskip htrim hmargin hcolumns h ih =>
    have hw : W (Text.margin line) := hW line List.mem_cons_self hskip
    rcases ofLine_relaid hf hskip htrim hmargin hcolumns (hn line List.mem_cons_self) hw hl hb
      hb' with
      ⟨e, e', hline, hline'⟩ | ⟨ts, ts', levels₁, last, last', hline, hline', hl₁, hlast,
        hlast', hgist⟩
    · rw [ofLines, ofLines, hline, hline']
      rfl
    · have hrest := ih (fun line hmem => hn line (List.mem_cons_of_mem _ hmem))
        (fun line hmem => hW line (List.mem_cons_of_mem _ hmem)) hl₁ hlast hlast'
      rw [ofLines_cons hline, ofLines_cons hline']
      cases htail : ofLines source (i + 1 + 1) levels₁ lines <;>
        cases htail' : ofLines source (i' + 1 + 1) (levels₁.relaid f) lines' <;>
        rw [htail, htail'] at hrest
      · rfl
      · cases hrest
      · cases hrest
      · exact congrArg some (hgist _ _ (Option.some.inj hrest))

end Token

end LayoutScript

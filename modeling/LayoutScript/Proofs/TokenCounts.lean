import LayoutScript.Proofs.TapeRuns

/-! How many tokens a text has: at most three for each character and three more. Texts with more
tokens than there are positions are never accepted. -/
namespace LayoutScript

theorem Text.length_flatten_split (divider : Char) (cs : List Char) :
    (split divider cs).flatten.length + (split divider cs).length = cs.length + 1 := by
  induction cs with
  | nil => rfl
  | cons c cs ih =>
    rw [split]
    split
    · simp only [List.flatten_cons, List.nil_append, List.length_cons]
      omega
    · split
      · next hnil => exact absurd hnil (split_ne_nil divider cs)
      · next part rest hparts =>
        rw [hparts] at ih
        simp only [List.flatten_cons, List.length_append, List.length_cons] at ih ⊢
        omega

theorem Text.lines_feeds (n : Nat) :
    lines (List.replicate n '\n') = List.replicate (n + 1) [] := by
  induction n with
  | zero => rfl
  | succ n ih =>
    rw [List.replicate_succ, lines, split, if_pos rfl, ← lines, ih]
    rfl

namespace Token

variable {source : String} {number : Nat} {levels levels' : Levels}

theorem length_ofChars_le {column covered : Nat} {cs : List Char} {tokens : List Token}
    (h : ofChars source number column covered cs = .ok tokens) : tokens.length ≤ cs.length + 1 := by
  fun_induction ofChars source number column covered cs generalizing tokens with
  | case1 column covered =>
    cases h
    exact Nat.le_refl _
  | case2 column covered c cs ih => exact Nat.le_succ_of_le (ih h)
  | case3 column c cs hb ih => exact Nat.le_succ_of_le (ih h)
  | case4 column c cs hb cause hs => cases h
  | case5 column c cs hb lexeme width hs e he ih => cases h
  | case6 column c cs hb lexeme width hs rest hr ih =>
    cases h
    exact Nat.succ_le_succ (ih hr)

/-- What a line opens or closes is paid for by the levels. -/
theorem length_layout {width : Nat} {layout : List Lexeme}
    (h : levels.move? width = some (layout, levels')) :
    layout.length + levels'.size ≤ levels.size + 2 := by
  unfold Levels.move? at h
  split at h
  · cases h
    simp only [Stack.push, Stack.size, List.length_cons, List.length_nil]
    omega
  · dsimp only at h
    split at h <;> cases h
    have hkept := (List.dropWhile_suffix (width < ·) (l := levels.elements)).length_le
    rw [List.length_replicate]
    simp only [Stack.size]
    omega

theorem length_ofLine_le {line : List Char} {tokens : List Token}
    (h : ofLine source number levels line = .ok (tokens, levels')) :
    tokens.length + levels'.size ≤ 3 * line.length + 1 + levels.size := by
  rcases ofLine_cases h with ⟨-, rfl, rfl⟩ | ⟨hskip, layout, ts, span, hmove, hchars, rfl⟩
  · rw [List.length_singleton]
    omega
  · have hpos : 0 < line.length := by
      cases line with
      | nil => cases hskip
      | cons c cs => exact Nat.succ_pos _
    have hreturn : (Text.dropReturn line).length ≤ line.length := by
      rw [Text.dropReturn]
      split
      · exact line.length_dropLast ▸ Nat.sub_le _ _
      · exact Nat.le_refl _
    have hlayout := length_layout hmove
    have hline := length_ofChars_le hchars
    rw [List.length_append, List.length_map]
    omega

theorem Scans.length_le {lines : List (List Char)} {tokens : List Token}
    (h : Scans source number levels lines tokens levels') :
    tokens.length + levels'.size ≤ 3 * lines.flatten.length + lines.length + levels.size := by
  induction h with
  | nil => simp
  | cons hline _ ih =>
    have hfirst := length_ofLine_le hline
    simp only [List.length_append, List.flatten_cons, List.length_cons]
    omega

theorem length_ofText_le {code : List Char} {tokens : List Token}
    (h : ofText source code = .ok tokens) : tokens.length ≤ 3 * code.length + 3 := by
  obtain ⟨ts, levels, last, hscan, rfl⟩ := ofLines_eq_ok h
  have hle := hscan.length_le
  have hsum := Text.length_flatten_split '\n' code
  rw [Text.lines, show Levels.initial.size = 1 from rfl] at hle
  rw [List.length_append, List.length_append, List.length_replicate, List.length_singleton]
  have hlines := List.length_pos_iff.2 (Text.split_ne_nil '\n' code)
  omega

theorem countP_newline_ofLine {line : List Char} {tokens : List Token}
    (h : ofLine source number levels line = .ok (tokens, levels')) :
    tokens.countP (·.lexeme == .newline) = 1 := by
  rcases ofLine_cases h with ⟨-, rfl, -⟩ | ⟨-, layout, ts, span, hmove, hchars, rfl⟩
  · rfl
  · obtain ⟨us, t, rfl, ht, hsolid⟩ := ofChars_tokens hchars
    have hlayout : (layout.map (Token.mk · span)).countP (·.lexeme == .newline) = 0 := by
      rcases move?_layout hmove with rfl | ⟨n, rfl⟩ <;> simp
    have hline : us.countP (·.lexeme == .newline) = 0 :=
      List.countP_eq_zero.2 fun u hu => by simpa using Lexeme.ne_of_isSolid (hsolid u hu) rfl
    simp [hlayout, hline, ht]

theorem Scans.countP_newline {lines : List (List Char)} {tokens : List Token}
    (h : Scans source number levels lines tokens levels') :
    tokens.countP (·.lexeme == .newline) = lines.length := by
  induction h with
  | nil => rfl
  | cons hline _ ih =>
    rw [List.countP_append, countP_newline_ofLine hline, ih, List.length_cons, Nat.add_comm]

theorem countP_newline_ofText {code : List Char} {tokens : List Token}
    (h : ofText source code = .ok tokens) :
    tokens.countP (·.lexeme == .newline) = (Text.lines code).length := by
  obtain ⟨ts, levels, last, hscan, rfl⟩ := ofLines_eq_ok h
  simp [hscan.countP_newline, List.countP_replicate]

/-- Every token of the text has a position. -/
def InReach (source : String) (code : List Char) : Prop :=
  ∀ tokens, ofText source code = .ok tokens → tokens.length ≤ UInt32.size

theorem inReach_iff {code : List Char} {tokens : List Token} (h : ofText source code = .ok tokens) :
    InReach source code ↔ tokens.length ≤ UInt32.size := by
  simp [InReach, h]

theorem inReach_of_length {code : List Char} (h : 3 * code.length + 3 ≤ UInt32.size) :
    InReach source code :=
  fun _ htokens => Nat.le_trans (length_ofText_le htokens) h

theorem exists_scans_empty (source : String) (number : Nat) (levels : Levels) (n : Nat) :
    ∃ ts, Scans source number levels (List.replicate n []) ts levels ∧ Newlines ts ∧
      ts.length = n := by
  induction n generalizing number with
  | zero => exact ⟨[], .nil, .nil, rfl⟩
  | succ n ih =>
    obtain ⟨ts, hscan, hts, hlength⟩ := ih (number + 1)
    have hline : ofLine source number levels [] =
        .ok ([⟨.newline, .onLine source number 1 1⟩], levels) := rfl
    refine ⟨_, .cons hline hscan, ?_, by rw [List.length_append, hlength]; exact Nat.add_comm 1 n⟩
    exact List.forall_mem_cons.2 ⟨rfl, hts⟩

end Token

/-- A text of line feeds alone is an empty program, as long as their tokens have positions. -/
theorem check_feeds (source : String) {n : Nat} (h : n + 2 ≤ UInt32.size) :
    check source (List.replicate n '\n') = .ok ⟨[]⟩ := by
  obtain ⟨ts, hscan, hts, hlength⟩ := Token.exists_scans_empty source 1 .initial (n + 1)
  rw [← Text.lines_feeds] at hscan
  obtain ⟨last, htokens⟩ := hscan.gives.ofText
  refine check_eq_ok_iff.2 ⟨ts, ⟨.eof, last⟩, ?_, ?_, ?_⟩
  · exact htokens
  · rw [List.length_append, hlength]
    exact h
  · rw [← List.append_nil ts]
    exact .mk hts (.nil rfl)

theorem inReach_of_check {source : String} {code : List Char} {p : Program}
    (h : check source code = .ok p) : Token.InReach source code := by
  obtain ⟨ts, last, htokens, hsize, -⟩ := check_eq_ok_iff.1 h
  exact (Token.inReach_iff htokens).2 hsize

/-- Every line has a token, and the end of the text has one more. -/
theorem length_lines_of_check {source : String} {code : List Char} {p : Program}
    (h : check source code = .ok p) : (Text.lines code).length < UInt32.size := by
  obtain ⟨ts, last, htokens, hsize, hrule⟩ := check_eq_ok_iff.1 h
  have hcount := Token.countP_newline_ofText htokens
  rw [List.countP_append, List.countP_singleton, hrule.next_eof, if_neg (by decide)] at hcount
  have hle := List.countP_le_length (p := (·.lexeme == .newline)) (l := ts)
  rw [List.length_append, List.length_singleton] at hsize
  omega

end LayoutScript

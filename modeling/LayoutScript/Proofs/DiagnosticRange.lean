import LayoutScript.Proofs.LineTokens
import LayoutScript.Proofs.Lowering
import LayoutScript.Proofs.TapeRuns

/-! Where faults are shown. Every token and every fault of the scanner stands on one line of the
text, at most one column past its end, and a syntax error stands at a token. So a range that an
editor shows is not empty and lies in the text, as long as lines and columns do not wrap. -/
namespace LayoutScript

namespace Span

def OnLine (source : String) (number low high : Nat) (s : Span) : Prop :=
  ∃ first last, s = .onLine source number first last ∧ low ≤ first ∧ first ≤ last ∧ last ≤ high

/-- A place on one of the lines. The column after the last character counts: a newline token stands
there. -/
def Within (lines : List (List Char)) (s : Span) : Prop :=
  ∃ source i line, lines[i]? = some line ∧ OnLine source (i + 1) 1 (line.length + 1) s

theorem OnLine.mono {source : String} {number low low' high high' : Nat} {s : Span}
    (h : OnLine source number low high s) (hlow : low' ≤ low) (hhigh : high ≤ high') :
    OnLine source number low' high' s := by
  obtain ⟨first, last, rfl, hfirst, hle, hlast⟩ := h
  exact ⟨first, last, rfl, Nat.le_trans hlow hfirst, hle, Nat.le_trans hlast hhigh⟩

theorem OnLine.single {source : String} {number low high column : Nat} (hlow : low ≤ column)
    (hhigh : column ≤ high) : OnLine source number low high (.onLine source number column column) :=
  ⟨column, column, rfl, hlow, Nat.le_refl _, hhigh⟩

theorem toNat_zeroBased {n : Nat} (hpos : 1 ≤ n) (hn : n < UInt32.size) :
    (zeroBased (.ofNat n)).toNat = n - 1 := by
  have hword : (UInt32.ofNat n).toNat = n := UInt32.toNat_ofNat_of_lt hn
  unfold zeroBased
  split
  · next h =>
    have hle : n ≤ 1 := hword ▸ UInt32.le_iff_toNat_le.1 h
    rw [UInt32.toNat_zero]
    omega
  · next h =>
    have hle : (1 : UInt32) ≤ .ofNat n := by
      rw [UInt32.le_iff_toNat_le, hword]
      exact hpos
    rw [UInt32.toNat_sub_of_le _ _ hle, hword, UInt32.toNat_one]

theorem Within.toRange {lines : List (List Char)} {s : Span} (h : s.Within lines)
    (hlines : lines.length < UInt32.size) (hline : ∀ line ∈ lines, line.length < UInt32.size - 1) :
    s.toRange.first.line = s.toRange.stop.line ∧
      s.toRange.first.character < s.toRange.stop.character ∧
      ∃ line, lines[s.toRange.first.line.toNat]? = some line ∧
        s.toRange.first.character.toNat ≤ line.length := by
  obtain ⟨source, i, line, hi, first, last, rfl, hfirst, hle, hlast⟩ := h
  have hwidth := hline line (List.mem_of_getElem? hi)
  have hbound := (List.getElem?_eq_some_iff.1 hi).1
  have hnumber : (zeroBased (.ofNat (i + 1))).toNat = i :=
    toNat_zeroBased (Nat.le_add_left 1 i) (by omega)
  have hcolumn : (zeroBased (.ofNat first)).toNat = first - 1 := toNat_zeroBased hfirst (by omega)
  have hstop : (UInt32.ofNat last).toNat = last := UInt32.toNat_ofNat_of_lt (by omega)
  refine ⟨rfl, ?_, line, ?_, ?_⟩
  · show zeroBased (.ofNat first) < .ofNat last
    rw [UInt32.lt_iff_toNat_lt, hcolumn, hstop]
    omega
  · show lines[(zeroBased (.ofNat (i + 1))).toNat]? = some line
    rw [hnumber, hi]
  · show (zeroBased (.ofNat first)).toNat ≤ line.length
    rw [hcolumn]
    omega

end Span

namespace Token

def AllSpans (P : Span → Prop) : Except LexError (List Token) → Prop
  | .ok tokens => ∀ t ∈ tokens, P t.span
  | .error e => P e.span

theorem AllSpans.mono {P Q : Span → Prop} {r : Except LexError (List Token)} (h : AllSpans P r)
    (hPQ : ∀ s, P s → Q s) : AllSpans Q r := by
  cases r with
  | ok tokens => exact fun t ht => hPQ _ (h t ht)
  | error e => exact hPQ _ h

theorem ofChars_onLine (source : String) (number column covered : Nat) {cs : List Char}
    (hn : '\n' ∉ cs) (hw : column + cs.length ≤ UInt32.size) :
    AllSpans (Span.OnLine source number column (column + cs.length))
      (ofChars source number column covered cs) := by
  fun_induction ofChars source number column covered cs with
  | case1 column covered =>
    intro t ht
    rw [List.mem_singleton.1 ht]
    exact .single (Nat.le_refl _) (Nat.le_add_right _ _)
  | case2 column covered c cs ih =>
    rw [List.length_cons] at hw
    refine (ih (fun hm => hn (List.mem_cons_of_mem _ hm)) (by omega)).mono fun s hs => ?_
    exact hs.mono (Nat.le_succ _) (by rw [List.length_cons]; omega)
  | case3 column c cs hb ih =>
    rw [List.length_cons] at hw
    refine (ih (fun hm => hn (List.mem_cons_of_mem _ hm)) (by omega)).mono fun s hs => ?_
    exact hs.mono (Nat.le_succ _) (by rw [List.length_cons]; omega)
  | case4 column c cs hb cause hs =>
    exact .single (Nat.le_refl _) (Nat.le_add_right _ _)
  | case5 column c cs hb l width hs e he ih =>
    rw [List.length_cons] at hw
    have hrest := ih (fun hm => hn (List.mem_cons_of_mem _ hm)) (by omega)
    rw [he] at hrest
    exact Span.OnLine.mono hrest (Nat.le_succ _) (by rw [List.length_cons]; omega)
  | case6 column c cs hb l width hs rest hr ih =>
    rw [List.length_cons] at hw
    have hrest := ih (fun hm => hn (List.mem_cons_of_mem _ hm)) (by omega)
    rw [hr] at hrest
    obtain ⟨text, more, hcs, rfl, hne, -⟩ := Lexeme.scan_spells hn hs
    have hlength := congrArg List.length hcs
    have hpos := List.length_pos_iff.2 hne
    rw [List.length_append, List.length_cons] at hlength
    intro t ht
    rcases List.mem_cons.1 ht with rfl | ht
    · rw [Span.ofWidth_eq_onLine hpos (by omega)]
      exact ⟨column, _, rfl, Nat.le_refl _, by omega, by rw [List.length_cons]; omega⟩
    · exact (hrest t ht).mono (Nat.le_succ _) (by rw [List.length_cons]; omega)

theorem ofLine_onLine (source : String) (number : Nat) (levels : Levels) {line : List Char}
    (hn : '\n' ∉ line) (hw : line.length < UInt32.size) :
    AllSpans (Span.OnLine source number 1 (line.length + 1))
      ((ofLine source number levels line).map Prod.fst) := by
  obtain ⟨tail, hline, -⟩ := Text.dropReturn_append line
  have hlength : (Text.dropReturn line).length ≤ line.length := by
    have := congrArg List.length hline
    rw [List.length_append] at this
    omega
  have hmargin : ((Text.dropReturn line).takeWhile Text.isBlank).length ≤ line.length :=
    Nat.le_trans (List.takeWhile_prefix _).length_le hlength
  have hreturn : '\n' ∉ Text.dropReturn line := by
    rw [hline] at hn
    exact fun hm => hn (List.mem_append_left _ hm)
  have hchars := ofChars_onLine source number 1 0 hreturn (by omega)
  unfold ofLine
  split
  · intro t ht
    rw [List.mem_singleton.1 ht]
    exact .single (Nat.le_refl _) (Nat.le_add_left _ _)
  · dsimp only
    split
    · exact .single (Nat.le_add_left _ _) (Nat.succ_le_succ hmargin)
    · split
      · next e he =>
        rw [he] at hchars
        exact Span.OnLine.mono hchars (Nat.le_refl _) (by omega)
      · next tokens htokens =>
        rw [htokens] at hchars
        intro t ht
        rcases List.mem_append.1 ht with ht | ht
        · obtain ⟨l, -, rfl⟩ := List.mem_map.1 ht
          exact ⟨1, _, rfl, Nat.le_refl _, Nat.le_add_left _ _, Nat.succ_le_succ hmargin⟩
        · exact (hchars t ht).mono (Nat.le_refl _) (by omega)

theorem ofLines_within (source : String) {all lines : List (List Char)} {i : Nat} (levels : Levels)
    (hn : ∀ line ∈ all, '\n' ∉ line) (hw : ∀ line ∈ all, line.length < UInt32.size) (hne : all ≠ [])
    (hi : i ≤ all.length) (hlines : all.drop i = lines) :
    AllSpans (Span.Within all) (ofLines source (i + 1) levels lines) := by
  induction lines generalizing i levels with
  | nil =>
    have hend : i = all.length := Nat.le_antisymm hi (List.drop_eq_nil_iff.1 hlines)
    have hpos := List.length_pos_iff.2 hne
    have hlast : Span.Within all (.onLine source i 1 1) := by
      refine ⟨source, i - 1, all.get ⟨i - 1, by omega⟩, List.getElem?_eq_getElem (by omega), ?_⟩
      rw [Nat.sub_add_cancel (by omega)]
      exact .single (Nat.le_refl _) (Nat.le_add_left _ _)
    intro t ht
    rcases List.mem_append.1 ht with ht | ht
    · rw [(List.mem_replicate.1 ht).2]
      exact hlast
    · rw [List.mem_singleton.1 ht]
      exact hlast
  | cons line lines ih =>
    have hget : all[i]? = some line := by
      rw [← List.head?_drop, hlines, List.head?_cons]
    have hbound := (List.getElem?_eq_some_iff.1 hget).1
    have hmem := List.mem_of_getElem? hget
    have hfirst := ofLine_onLine source (i + 1) levels (hn line hmem) (hw line hmem)
    have hplace {s : Span} (hs : Span.OnLine source (i + 1) 1 (line.length + 1) s) :
        s.Within all := ⟨source, i, line, hget, hs⟩
    cases hline : ofLine source (i + 1) levels line with
    | error e =>
      rw [hline] at hfirst
      simp only [ofLines, hline]
      exact hplace hfirst
    | ok r =>
      obtain ⟨ts, levels'⟩ := r
      rw [hline] at hfirst
      have hrest := ih levels' hbound (by rw [← List.tail_drop, hlines, List.tail_cons])
      rw [ofLines_cons hline]
      cases hofLines : ofLines source (i + 1 + 1) levels' lines with
      | error e =>
        rw [hofLines] at hrest
        exact hrest
      | ok rest =>
        rw [hofLines] at hrest
        intro t ht
        rcases List.mem_append.1 ht with ht | ht
        · exact hplace (hfirst t ht)
        · exact hrest t ht

theorem ofText_within (source : String) {code : List Char}
    (hw : ∀ line ∈ Text.lines code, line.length < UInt32.size) :
    AllSpans (Span.Within (Text.lines code)) (ofText source code) :=
  ofLines_within source .initial (fun _ => Text.not_mem_of_mem_lines) hw (Text.lines_ne_nil code)
    (Nat.zero_le _) List.drop_zero

end Token

theorem compile_error_span {options : Script.Options} {source : String} {code : List Char}
    {f : Fault} (hw : ∀ line ∈ Text.lines code, line.length < UInt32.size)
    (h : compile options source code = .error f) :
    ∃ s, f.span? = some s ∧ s.Within (Text.lines code) := by
  have hwithin := Token.ofText_within source hw
  cases hcheck : check source code with
  | ok p =>
    obtain ⟨script, hscript⟩ := Program.generate_eq_ok (check_topLevel hcheck) options
    simp [compile, hcheck, hscript] at h
  | error e =>
    have hf : f = e := by simpa [compile, hcheck] using h.symm
    subst hf
    cases htokens : Token.ofText source code with
    | error e =>
      rw [htokens] at hwithin
      simp only [check, htokens, Except.error.injEq] at hcheck
      subst hcheck
      exact ⟨_, rfl, hwithin⟩
    | ok tokens =>
      rw [htokens] at hwithin
      cases hprogram : Program.ofTokens tokens with
      | ok p => simp [check, htokens, hprogram] at hcheck
      | error e =>
        simp only [check, htokens, hprogram, Except.error.injEq] at hcheck
        subst hcheck
        exact ⟨_, rfl, hwithin _ (Program.actual_mem hprogram)⟩

/-- The range that an editor shows for a text that is rejected. It is on one line of the text, is
not empty, and starts at a character of that line or at its end. -/
theorem diagnostic_inside {options : Script.Options} {source : String} {code : List Char}
    {f : Fault} (hlines : (Text.lines code).length < UInt32.size)
    (hline : ∀ line ∈ Text.lines code, line.length < UInt32.size - 1)
    (h : compile options source code = .error f) :
    f.diagnostic.range.first.line = f.diagnostic.range.stop.line ∧
      f.diagnostic.range.first.character < f.diagnostic.range.stop.character ∧
      ∃ line, (Text.lines code)[f.diagnostic.range.first.line.toNat]? = some line ∧
        f.diagnostic.range.first.character.toNat ≤ line.length := by
  have hw : ∀ line ∈ Text.lines code, line.length < UInt32.size := fun line hmem =>
    Nat.lt_of_lt_of_le (hline line hmem) (Nat.sub_le _ _)
  obtain ⟨s, hspan, hwithin⟩ := compile_error_span hw h
  have hrange : f.diagnostic.range = s.toRange := by rw [Fault.diagnostic, hspan]; rfl
  rw [hrange]
  exact hwithin.toRange hlines hline

theorem diagnostic_inside_open :
    ∃ f, compile .standard "m" "if @a\n  \"é\"".toList = .error f ∧
      f.diagnostic.range.first.line = f.diagnostic.range.stop.line ∧
      f.diagnostic.range.first.character < f.diagnostic.range.stop.character ∧
      ∃ line, (Text.lines "if @a\n  \"é\"".toList)[f.diagnostic.range.first.line.toNat]? =
        some line ∧
        f.diagnostic.range.first.character.toNat ≤ line.length := by
  have hfails : (compile .standard "m" "if @a\n  \"é\"".toList).toOption.isNone = true := by
    decide +kernel
  cases h : compile .standard "m" "if @a\n  \"é\"".toList with
  | ok c =>
    rw [h] at hfails
    cases hfails
  | error f => exact ⟨f, rfl, diagnostic_inside (by decide +kernel) (by decide +kernel) h⟩

end LayoutScript

import LayoutScript.Proofs.Denotation
import LayoutScript.Proofs.RoundTrip
import LayoutScript.Proofs.ScriptLayout
import LayoutScript.Proofs.Utf8Reading

/-! Tokens by their texts. A blank after a token stops it, whatever comes next, so the texts of the
tokens of a line can be read again with one blank between two of them. Only an interpolation can
close too early, if the text between its braces ends in a brace. -/
namespace LayoutScript

/-! ### Where an interpolation closes -/

theorem beforeBraces?_closed {cs inner : List Char} (h : beforeBraces? cs = some inner) :
    ¬ ['}', '}'] <:+: inner ++ ['}'] := by
  fun_induction beforeBraces? cs generalizing inner with
  | case1 rest =>
    cases h
    exact fun hin => absurd hin.length_le (by decide)
  | case2 c cs hfirst ih =>
    obtain ⟨inner', hinner, rfl⟩ := Option.map_eq_some_iff.1 h
    intro hin
    rcases List.infix_cons_iff.1 hin with hprefix | hin
    · -- The first of two braces would have closed the text.
      obtain ⟨rest, rfl⟩ := beforeBraces?_eq_some hinner
      obtain ⟨hc, hprefix⟩ := List.cons_prefix_cons.1 hprefix
      cases inner' with
      | nil => exact hfirst _ hc.symm rfl
      | cons d inner' =>
        obtain ⟨hd, -⟩ := List.cons_prefix_cons.1 hprefix
        exact hfirst _ hc.symm (by rw [← hd]; rfl)
    · exact ih hinner hin
  | case3 => cases h

theorem beforeBraces?_append {inner : List Char} (h : ¬ ['}', '}'] <:+: inner ++ ['}'])
    (rest : List Char) :
    beforeBraces? (inner ++ '}' :: '}' :: rest) = some inner := by
  induction inner with
  | nil => rfl
  | cons c inner ih =>
    rw [List.cons_append, List.infix_cons_iff, not_or] at h
    rw [List.cons_append]
    unfold beforeBraces?
    split
    · next heq =>
      obtain ⟨rfl, hrest⟩ := List.cons.inj heq
      refine absurd (List.cons_prefix_cons.2 ⟨rfl, ?_⟩) h.1
      cases inner with
      | nil => exact List.prefix_refl _
      | cons d inner =>
        exact List.cons_prefix_cons.2 ⟨(List.cons.inj hrest).1.symm, List.nil_prefix⟩
    · next heq =>
      obtain ⟨rfl, rfl⟩ := List.cons.inj heq
      rw [ih h.2]
      rfl
    · next heq => cases heq

theorem Text.trim_trim (cs : List Char) : trim (trim cs) = trim cs := by
  apply trim_of_ends
  · rw [head?_trim]
    exact head?_trimLeft cs
  · exact getLast?_trimRight (trimLeft cs)

namespace Lexeme

/-! ### What scanning gives -/

/-- A lexeme that can be scanned. An interpolation is trimmed and holds no braces that close it. -/
def Readable : Lexeme → Prop
  | .interpolation raw =>
    Text.trim raw.toList = raw.toList ∧ ¬ ['}', '}'] <:+: raw.toList ∧ '\n' ∉ raw.toList
  | l => l.isPlain = true ∧ l.WellFormed

theorem scan_interpolation {c : Char} {cs : List Char} {raw : String} {width : Nat}
    (h : scan c cs = .ok (.interpolation raw, width)) :
    ∃ inner, interpolation? cs = some inner ∧ raw = String.ofList (Text.trim inner) := by
  unfold scan at h
  split at h
  · next inner hinner =>
    cases h
    split at hinner
    · exact ⟨inner, hinner, rfl⟩
    · cases hinner
  · split at h
    · split at h
      · unfold ofString at h
        split at h <;> cases h
      · cases h
    · split at h
      · cases h
      · split at h
        · split at h <;> cases h
        · split at h
          · unfold ofWord at h
            dsimp only at h
            split at h <;> cases h
          · split at h <;> cases h

theorem scan_readable {c : Char} {cs : List Char} {l : Lexeme} {width : Nat} (hn : '\n' ∉ c :: cs)
    (h : scan c cs = .ok (l, width)) : l.Readable := by
  have hsolid := scan_isSolid h
  obtain ⟨text, rest, -, -, -, hspells⟩ := scan_spells hn h
  cases l with
  | interpolation raw =>
    obtain ⟨inner, hinner, rfl⟩ := scan_interpolation h
    obtain ⟨more, rfl⟩ := interpolation?_eq_some hinner
    obtain ⟨front, back, hparts, -⟩ := Text.trim_append inner
    have hin : Text.trim inner <:+: inner := ⟨front, back, hparts.symm⟩
    rw [Readable, String.toList_ofList]
    refine ⟨Text.trim_trim inner, fun hbraces => ?_, fun hfeed => hn ?_⟩
    · exact beforeBraces?_closed hinner ((hbraces.trans hin).trans (List.prefix_append _ _).isInfix)
    · simp [hin.subset hfeed]
  | indent | dedent | newline | eof => cases hsolid
  | _ => exact ⟨rfl, hspells.wellFormed⟩

/-! ### Scanning a text again -/

/-- An interpolation whose braces close it one character too early. -/
def EndsInBrace (l : Lexeme) : Prop := l.kind = .interpolation ∧ l.value.toList.getLast? = some '}'

theorem toList_text_interpolation (raw : String) :
    (Lexeme.interpolation raw).text.toList = '{' :: ('{' :: raw.toList ++ ['}', '}']) := by
  simp [text, String.toList_append]

theorem Readable.clean_text {l : Lexeme} (h : l.Readable) : Clean l.text.toList := by
  cases l with
  | interpolation raw =>
    rw [toList_text_interpolation]
    refine ⟨⟨'{', _, rfl, by decide, by decide⟩,
      ⟨'{' :: '{' :: raw.toList ++ ['}'], '}', by simp, by decide⟩, ?_⟩
    simpa using h.2.2
  | _ => exact Lexeme.clean_text h.1 h.2

theorem Readable.lexes {l : Lexeme} (h : l.Readable) (hend : ¬ l.EndsInBrace) (source : String)
    (line column : Nat) :
    ∃ span, Token.Lexes source line column Loose l.text.toList [⟨l, span⟩] := by
  cases l with
  | interpolation raw =>
    have hclosed : ¬ ['}', '}'] <:+: raw.toList ++ ['}'] := by
      intro hin
      rcases List.infix_concat_iff.1 hin with hsuffix | hin
      · obtain ⟨front, hfront⟩ := hsuffix
        refine hend ⟨rfl, ?_⟩
        have hraw : front ++ ['}'] = raw.toList :=
          List.append_cancel_right ((List.append_assoc front ['}'] ['}']).trans hfront)
        rw [value, ← hraw, List.getLast?_concat]
      · exact h.2.1 hin
    have hclean := h.clean_text
    rw [toList_text_interpolation] at hclean ⊢
    refine ⟨_, .of_scan hclean fun rest _ => ?_⟩
    have hinner : interpolation? ('{' :: raw.toList ++ ['}', '}'] ++ rest) = some raw.toList := by
      simpa [interpolation?] using beforeBraces?_append hclosed rest
    rw [scan, if_pos rfl, hinner]
    simp [h.1]
  | _ => exact ⟨_, .token h.1 h.2 fun rest hrest => hrest.stopsAt _⟩

theorem Readable.scan_endsInBrace {l : Lexeme} (h : l.Readable) (hend : l.EndsInBrace) :
    ∃ cs, l.text.toList = '{' :: cs ∧
      ∀ rest, ∃ raw width, scan '{' (cs ++ rest) = .ok (.interpolation raw, width) ∧
      raw ≠ l.value := by
  obtain ⟨hkind, hlast⟩ := hend
  obtain ⟨raw, rfl⟩ := exists_of_kind_interpolation hkind
  obtain ⟨inner, hraw⟩ := List.getLast?_eq_some_iff.1 hlast
  have hclosed : ¬ ['}', '}'] <:+: inner ++ ['}'] := by
    rw [← hraw]
    exact h.2.1
  refine ⟨_, toList_text_interpolation raw,
    fun rest => ⟨String.ofList (Text.trim inner), inner.length + 4, ?_, ?_⟩⟩
  · have hinner : interpolation? ('{' :: raw.toList ++ ['}', '}'] ++ rest) = some inner := by
      rw [show raw.toList = inner ++ ['}'] from hraw]
      simpa [interpolation?] using beforeBraces?_append hclosed ('}' :: rest)
    rw [scan, if_pos rfl, hinner]
  · intro heq
    have hlength := congrArg (fun s : String => s.toList.length) heq
    obtain ⟨front, back, hparts, -⟩ := Text.trim_append inner
    have hshort : (Text.trim inner).length ≤ inner.length :=
      (show Text.trim inner <:+: inner from ⟨front, back, hparts.symm⟩).length_le
    rw [hraw] at hlength
    simp only [String.toList_ofList, List.length_append, List.length_singleton] at hlength
    omega

end Lexeme

namespace Token

/-! ### Lines of texts -/

/-- What is said about a token when its place does not matter. -/
def said (t : Token) : TokenKind × String := (t.kind, t.lexeme.value)

def solid (tokens : List Token) : List Token := tokens.filter fun t => t.lexeme.isSolid

def spaced (ls : List Lexeme) : List Char := [' '].intercalate (ls.map fun l => l.text.toList)

@[simp] theorem spaced_cons_cons (l l' : Lexeme) (ls : List Lexeme) :
    spaced (l :: l' :: ls) = l.text.toList ++ ' ' :: spaced (l' :: ls) := by
  rw [spaced, List.map_cons, List.map_cons, List.intercalate_cons_cons, List.append_assoc]
  rfl

@[simp] theorem spaced_singleton (l : Lexeme) : spaced [l] = l.text.toList := by
  simp [spaced]

theorem clean_spaced {ls : List Lexeme} (hne : ls ≠ []) (h : ∀ l ∈ ls, l.Readable) :
    Clean (spaced ls) := by
  induction ls with
  | nil => exact absurd rfl hne
  | cons l ls ih =>
    obtain ⟨hl, hls⟩ := List.forall_mem_cons.1 h
    cases ls with
    | nil =>
      simpa using hl.clean_text
    | cons l' ls =>
      simpa using hl.clean_text.append [' '] (by decide) (ih (List.cons_ne_nil _ _) hls)

variable {source : String} {line column : Nat}

theorem exists_lexes {ls : List Lexeme} (hne : ls ≠ []) (h : ∀ l ∈ ls, l.Readable)
    (hend : ∀ l ∈ ls, ¬ l.EndsInBrace) (source : String) (line column : Nat) :
    ∃ ts, Lexes source line column Loose (spaced ls) ts ∧ ts.map Token.lexeme = ls := by
  induction ls generalizing column with
  | nil => exact absurd rfl hne
  | cons l ls ih =>
    obtain ⟨hl, hls⟩ := List.forall_mem_cons.1 h
    obtain ⟨hlend, hlsend⟩ := List.forall_mem_cons.1 hend
    obtain ⟨span, hlexes⟩ := hl.lexes hlend source line column
    cases ls with
    | nil =>
      rw [spaced_singleton]
      exact ⟨_, hlexes, rfl⟩
    | cons l' ls =>
      obtain ⟨ts, hts, hsame⟩ :=
        ih (List.cons_ne_nil _ _) hls hlsend (column + l.text.toList.length + 1)
      rw [spaced_cons_cons]
      exact ⟨_, hlexes.append_blank hts Loose.blank, congrArg (l :: ·) hsame⟩

/-- The first lexeme that ends in a brace is scanned as another one. -/
theorem said_ne_of_endsInBrace {ls : List Lexeme} (h : ∀ l ∈ ls, l.Readable) {l : Lexeme}
    (hmem : l ∈ ls) (hend : l.EndsInBrace) {tokens : List Token}
    (hok : ofChars source line column 0 (spaced ls) = .ok tokens)
    (more : List (TokenKind × String)) :
    tokens.map said ≠ ls.map (fun l => (l.kind, l.value)) ++ more := by
  induction ls generalizing column tokens with
  | nil => exact absurd hmem List.not_mem_nil
  | cons first ls ih =>
    obtain ⟨hfirst, hls⟩ := List.forall_mem_cons.1 h
    by_cases hbad : first.EndsInBrace
    · obtain ⟨cs, htext, hscan⟩ := hfirst.scan_endsInBrace hbad
      obtain ⟨rest, hspaced⟩ : ∃ rest, spaced (first :: ls) = '{' :: (cs ++ rest) := by
        cases ls with
        | nil => exact ⟨[], by simp [htext]⟩
        | cons l' ls => exact ⟨' ' :: spaced (l' :: ls), by simp [htext]⟩
      obtain ⟨raw, width, hraw, hne⟩ := hscan rest
      rw [hspaced, ofChars, if_neg (by decide), hraw] at hok
      dsimp only at hok
      split at hok
      · cases hok
      · cases hok
        intro heq
        exact hne (Prod.mk.inj (List.cons.inj heq).1).2
    · have hmem : l ∈ ls := by
        rcases List.mem_cons.1 hmem with rfl | hmem
        · exact absurd hend hbad
        · exact hmem
      obtain ⟨l', ls, rfl⟩ := List.exists_cons_of_ne_nil (List.ne_nil_of_mem hmem)
      obtain ⟨span, hlexes⟩ := hfirst.lexes hbad source line column
      rw [spaced_cons_cons, hlexes.run _ (Loose.blank _), ofChars, if_pos (by decide)] at hok
      cases hrest : ofChars source line (column + first.text.toList.length + 1) 0
        (spaced (l' :: ls)) with
      | error e =>
        rw [hrest] at hok
        cases hok
      | ok tokens' =>
        rw [hrest] at hok
        cases hok
        intro heq
        exact ih hls hmem hrest (List.cons.inj heq).2

/-! ### Whole texts -/

theorem ofText_clean {cs : List Char} (h : Clean cs) (source : String) :
    ∃ last, ofText source cs = (ofChars source 1 1 0 cs).map (· ++ [⟨.eof, last⟩]) := by
  have hindented : Text.indented 0 cs = cs := rfl
  have hskip : isSkipped cs = false := hindented ▸ isSkipped_indented h
  have hreturn : Text.dropReturn cs = cs := hindented ▸ dropReturn_indented h
  have hwidth : (cs.takeWhile Text.isBlank).length = 0 := by
    obtain ⟨c, ds, rfl, hblank, -⟩ := h.head
    rw [List.takeWhile_cons_of_neg (by simp [hblank]), List.length_nil]
  refine ⟨.onLine source 1 1 1, ?_⟩
  rw [ofText, Text.lines, Text.split_of_not_mem h.line, ofLines, ofLine, if_neg (by simp [hskip])]
  simp only [hreturn, hwidth]
  cases ofChars source 1 1 0 cs <;> rfl

theorem ofChars_readable {covered : Nat} {cs : List Char} {tokens : List Token} (hn : '\n' ∉ cs)
    (h : ofChars source line column covered cs = .ok tokens) :
    ∀ t ∈ tokens, t.lexeme.isSolid = true → t.lexeme.Readable := by
  fun_induction ofChars source line column covered cs generalizing tokens with
  | case1 column covered =>
    cases h
    exact List.forall_mem_singleton.2 fun hsolid => by cases hsolid
  | case2 column covered c cs ih => exact ih (fun hm => hn (List.mem_cons_of_mem _ hm)) h
  | case3 column c cs hb ih => exact ih (fun hm => hn (List.mem_cons_of_mem _ hm)) h
  | case4 column c cs hb cause hs => cases h
  | case5 column c cs hb l width hs e he ih => cases h
  | case6 column c cs hb l width hs rest hr ih =>
    cases h
    exact List.forall_mem_cons.2 ⟨fun _ => Lexeme.scan_readable hn hs,
      ih (fun hm => hn (List.mem_cons_of_mem _ hm)) hr⟩

theorem ofText_readable {cs : List Char} (hn : '\n' ∉ cs) {tokens : List Token}
    (h : ofText source cs = .ok tokens) :
    ∀ t ∈ tokens, t.lexeme.isSolid = true → t.lexeme.Readable := by
  rw [ofText, Text.lines, Text.split_of_not_mem hn] at h
  cases hline : ofLine source 1 .initial cs with
  | error e => simp only [ofLines, hline, reduceCtorEq] at h
  | ok r =>
    obtain ⟨ts, levels⟩ := r
    rw [ofLines_cons hline] at h
    cases h
    have hrest : ∀ t ∈ List.replicate (levels.size - 1) (Token.mk .dedent (.onLine source 1 1 1)) ++
        [⟨.eof, .onLine source 1 1 1⟩], t.lexeme.isSolid = true → t.lexeme.Readable := by
      intro t ht hsolid
      rcases List.mem_append.1 ht with ht | ht
      · rw [List.eq_of_mem_replicate ht] at hsolid
        cases hsolid
      · rw [List.mem_singleton.1 ht] at hsolid
        cases hsolid
    refine List.forall_mem_append.2 ⟨?_, hrest⟩
    rcases ofLine_cases hline with ⟨-, rfl, -⟩ | ⟨-, layout, ts, span, hmove, hchars, rfl⟩
    · exact List.forall_mem_singleton.2 fun hsolid => by cases hsolid
    · obtain ⟨tail, hcs, -⟩ := Text.dropReturn_append cs
      have hkept : '\n' ∉ Text.dropReturn cs :=
        fun hmem => hn (by rw [hcs]; exact List.mem_append_left _ hmem)
      refine List.forall_mem_append.2 ⟨fun t ht hsolid => ?_, ofChars_readable hkept hchars⟩
      obtain ⟨l, hl, rfl⟩ := List.mem_map.1 ht
      rcases move?_layout hmove with rfl | ⟨n, rfl⟩
      · rw [List.mem_singleton.1 hl] at hsolid
        cases hsolid
      · rw [List.eq_of_mem_replicate hl] at hsolid
        cases hsolid

theorem solid_of_ofChars {covered : Nat} {cs : List Char} {tokens : List Token}
    (h : ofChars source line column covered cs = .ok tokens) (last : Span) :
    ∃ t, tokens = solid (tokens ++ [⟨.eof, last⟩]) ++ [t] := by
  obtain ⟨ts, t, rfl, ht, hsolid⟩ := ofChars_tokens h
  refine ⟨t, congrArg (· ++ [t]) ?_⟩
  have hts : ts.filter (fun t => t.lexeme.isSolid) = ts := List.filter_eq_self.2 hsolid
  rw [solid, List.filter_append, List.filter_append, hts,
    List.filter_cons_of_neg (by rw [ht]; decide)]
  simp [Lexeme.isSolid, Lexeme.kind, TokenKind.isLayout]

theorem ofText_spaced_iff {ls : List Lexeme} (h : ∀ l ∈ ls, l.Readable) (source : String) :
    (∃ tokens, ofText source (spaced ls) = .ok tokens ∧
      (solid tokens).map said = ls.map fun l => (l.kind, l.value)) ↔ ∀ l ∈ ls, ¬ l.EndsInBrace := by
  by_cases hne : ls = []
  · subst hne
    exact ⟨fun _ l hl => absurd hl List.not_mem_nil, fun _ => ⟨_, rfl, rfl⟩⟩
  · obtain ⟨last, htext⟩ := ofText_clean (clean_spaced hne h) source
    rw [htext]
    constructor
    · rintro ⟨tokens, hok, hsaid⟩ l hl hend
      cases hchars : ofChars source 1 1 0 (spaced ls) with
      | error e =>
        rw [hchars] at hok
        cases hok
      | ok ts =>
        rw [hchars] at hok
        cases hok
        obtain ⟨t, hts⟩ := solid_of_ofChars hchars last
        have hmap := congrArg (List.map said) hts
        rw [List.map_append] at hmap
        exact said_ne_of_endsInBrace h hl hend hchars [said t]
          (hmap.trans (congrArg (· ++ [said t]) hsaid))
    · intro hend
      obtain ⟨ts, hlexes, rfl⟩ := exists_lexes hne h hend source 1 1
      have hrun := hlexes.run [] Loose.nil
      rw [List.append_nil] at hrun
      obtain ⟨t, hts⟩ := solid_of_ofChars hrun last
      refine ⟨_, by rw [hrun]; rfl, ?_⟩
      rw [← (List.append_inj' hts rfl).1, List.map_map]
      rfl

/-- The line of bytes need not be well formed. The texts of its tokens, joined by single blanks, are
read as tokens of the same kinds with the same values in the same order, exactly if no interpolation
has a value that ends in a brace. -/
theorem texts_lex_back {bytes : List UInt8} (hline : 0x0a ∉ bytes) {source : String}
    {tokens : List Token} (h : ofText source (Text.Utf8.decode bytes) = .ok tokens)
    (source' : String) :
    (∃ tokens', ofText source' (Text.Utf8.decode (Text.Utf8.encode
        ([' '].intercalate ((solid tokens).map fun t => t.text.toList)))) = .ok tokens' ∧
      (solid tokens').map said = (solid tokens).map said) ↔
    ∀ t ∈ tokens, t.kind = .interpolation → t.lexeme.value.toList.getLast? ≠ some '}' := by
  have hfeed : '\n' ∉ Text.Utf8.decode bytes := fun hmem =>
    hline ((Text.Utf8.reads_decode bytes).mem_of_ascii (by decide) hmem)
  have hreadable : ∀ l ∈ (solid tokens).map Token.lexeme, l.Readable := by
    intro l hl
    obtain ⟨t, ht, rfl⟩ := List.mem_map.1 hl
    obtain ⟨hmem, hsolid⟩ := List.mem_filter.1 ht
    exact ofText_readable hfeed h t hmem hsolid
  have hiff := ofText_spaced_iff hreadable source'
  rw [spaced, List.map_map, List.map_map] at hiff
  rw [Text.Utf8.decode_encode]
  refine hiff.trans ⟨fun hend t ht hkind hlast => ?_, fun hlast l hl hend => ?_⟩
  · have hsolid : t.lexeme.isSolid = true := by
      rw [Lexeme.isSolid, show t.lexeme.kind = .interpolation from hkind]
      rfl
    exact hend t.lexeme (List.mem_map_of_mem (List.mem_filter.2 ⟨ht, hsolid⟩)) ⟨hkind, hlast⟩
  · obtain ⟨t, ht, rfl⟩ := List.mem_map.1 hl
    exact hlast t (List.mem_filter.1 ht).1 hend.1 hend.2

/-- Signs, numbers and names without blanks, braces that open nothing, strings that hold braces and
slots, a stray byte and a carriage return. -/
def crowdedLine : List UInt8 :=
  Text.Utf8.encode "\t1.5.x== =@if\x7b\x7b \x7by \x7d\x7d\"\x7d\x7d #\x7bz\x7d\"\"".toList ++
    [0xff] ++
    Text.Utf8.encode "\"\x7b\x7b\r".toList

def crowdedTexts : List Char :=
  "1.5 . x == = @if \x7b\x7b\x7by\x7d\x7d \"\x7d\x7d #\x7bz\x7d\" \"\ufffd\" \x7b \x7b".toList

def bracedLine : List UInt8 := Text.Utf8.encode "\x7b\x7ba\x7d \x7d\x7d".toList

theorem texts_lex_back_crowdedLine :
    (∃ tokens, ofText "m" (Text.Utf8.decode crowdedLine) = .ok tokens ∧
      ∃ tokens', ofText "n" (Text.Utf8.decode (Text.Utf8.encode crowdedTexts)) = .ok tokens' ∧
        (solid tokens').map said = (solid tokens).map said) ∧
    ∃ tokens, ofText "m" (Text.Utf8.decode bracedLine) = .ok tokens ∧
      ¬ ∃ tokens', ofText "n" (Text.Utf8.decode (Text.Utf8.encode
          ([' '].intercalate ((solid tokens).map fun t => t.text.toList)))) = .ok tokens' ∧
        (solid tokens').map said = (solid tokens).map said := by
  constructor
  · obtain ⟨tokens, htokens, htest⟩ : ∃ tokens,
        ofText "m" (Text.Utf8.decode crowdedLine) = .ok tokens ∧
        ([' '].intercalate ((solid tokens).map fun t => t.text.toList) == crowdedTexts && tokens.all
          fun t => t.kind != .interpolation || t.lexeme.value.toList.getLast? != some '}') = true :=
      exists_ok_of_any (by decide +kernel)
    rw [Bool.and_eq_true, beq_iff_eq, List.all_eq_true] at htest
    obtain ⟨htexts, hbraces⟩ := htest
    refine ⟨tokens, htokens, ?_⟩
    rw [← htexts]
    refine (texts_lex_back (by decide +kernel) htokens "n").2 fun t ht hkind => ?_
    simpa [hkind] using hbraces t ht
  · obtain ⟨tokens, htokens, htest⟩ : ∃ tokens,
        ofText "m" (Text.Utf8.decode bracedLine) = .ok tokens ∧
        (tokens.any fun t => t.kind == .interpolation && t.lexeme.value.toList.getLast? == some '}')
          = true :=
      exists_ok_of_any (by decide +kernel)
    obtain ⟨t, ht, htest⟩ := List.any_eq_true.1 htest
    rw [Bool.and_eq_true, beq_iff_eq, beq_iff_eq] at htest
    exact ⟨tokens, htokens, fun hback =>
      (texts_lex_back (by decide +kernel) htokens "n").1 hback t ht htest.1 htest.2⟩

end Token

end LayoutScript

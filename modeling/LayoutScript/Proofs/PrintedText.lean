import LayoutScript.Proofs.CleanUp
import LayoutScript.Proofs.Receiver
import LayoutScript.Proofs.StringLiterals
import LayoutScript.Proofs.Utf8Reading

/-! A text from the source to the script. Whatever bytes stand between the quotes of a string that
is printed, the script prints the text that they spell. -/
namespace LayoutScript

theorem infix_of_opensSlot {cs : List Char} (h : opensSlot cs = true) : ['#', '{'] <:+: cs := by
  induction cs with
  | nil => cases h
  | cons c cs ih =>
    unfold opensSlot at h
    split at h
    · next ds heq => exact heq ▸ (List.prefix_append ['#', '{'] ds).isInfix
    · next heq =>
      cases heq
      exact (ih h).trans (List.suffix_cons c cs).isInfix
    · next heq => cases heq

theorem Expr.eq_string_of_bare {e : Expr} {raw : String} {span : Span}
    (h : e.bare = (string raw span).bare) : ∃ t, e = .string raw t := by
  cases e <;> simp only [bare, mapSpan, reduceCtorEq, string.injEq] at h
  exact ⟨_, by rw [h.1]⟩

namespace Script

theorem ofRows_eq_intercalate {texts : List String} (hne : texts ≠ []) :
    Text.ofRows (texts.map String.toList) = ("\n".intercalate texts ++ "\n").toList := by
  induction texts with
  | nil => exact absurd rfl hne
  | cons text texts ih =>
    cases texts with
    | nil => simp [Text.ofRows]
    | cons next texts =>
      rw [List.map_cons, Text.ofRows_cons, ih (List.cons_ne_nil _ _), String.intercalate_cons_cons]
      simp

theorem ofRows_preludeRows (options : Options) : Text.ofRows (preludeRows options) =
    ((if options.banner then banner ++ "\n\n" else "") ++ helpers ++ "\n").toList := by
  have hhelpers : Text.ofRows (helperLines.map String.toList) = helpers.toList :=
    ofRows_eq_intercalate (List.cons_ne_nil _ _)
  have hrows : (helperLines.map (⟨0, ·⟩)).map Line.row = helperLines.map String.toList := by
    simp [Line.row, Function.comp_def]
  have hbanner :
      Text.ofRows ((if options.banner then [⟨0, banner⟩, Line.blank] else []).map Line.row) =
      (if options.banner then banner ++ "\n\n" else "").toList := by
    cases options.banner with
    | false => rfl
    | true => simp [Text.ofRows, Line.row, Line.blank]
  have hblank : Text.ofRows ([Line.blank].map Line.row) = "\n".toList := rfl
  rw [preludeRows, preludeLines, List.map_append, List.map_append, Text.ofRows_append,
    Text.ofRows_append, String.toList_append, String.toList_append, hbanner, hrows,
    hhelpers, hblank]

theorem text_of_line (options : Options) {s : Statement} {text : String}
    (hs : s.lines 0 = [⟨0, text⟩]) (hne : text.toList ≠ []) (hrow : Text.IsRow text.toList) :
    Module.text options ⟨.nothing, [.statement s]⟩ =
      (if options.banner then banner ++ "\n\n" else "") ++ helpers ++ "\n" ++ text ++ "\n" := by
  have hitems : ∀ item ∈ [Item.statement s], ∀ line ∈ item.lines, Text.IsRow line.row := by
    simpa [Item.lines, hs, Line.row] using hrow
  have hrows : (Module.lines options ⟨.nothing, [.statement s]⟩).map Line.row =
      preludeRows options ++ [text.toList] := by
    simp [Module.lines, Import.lines, Item.lines, hs, preludeRows, Line.row]
  apply String.toList_injective
  rw [Module.toList_text options _ hitems, hrows,
    (spaced_preludeRows options).mergeBlank_append hne, Text.mergeBlank,
    Text.dropBlankEnd_of_nonblank _ hne]
  simp [ofRows_preludeRows]

end Script

theorem check_print {text : List Char} (hquote : '"' ∉ text) (hfeed : '\n' ∉ text)
    (hslot : opensSlot text = false) (source : String) :
    ∃ t t', check source ("print \"".toList ++ text ++ ['"']) =
      .ok ⟨[.print (.string (String.ofList text) t) t']⟩ := by
  have hstring : (Lexeme.string (String.ofList text)).WellFormed := by
    simpa [Lexeme.WellFormed] using ⟨hquote, hfeed, hslot⟩
  have hvalue : Expr.Canonical .whole (.string (String.ofList text) .origin) :=
    .operand (.atom (l := .string _) rfl hstring)
  have hline : Stmt.lines 0 (.print (.string (String.ofList text) .origin) .origin) =
      ["print \"".toList ++ text ++ ['"']] := by
    simp [Stmt.lines, Expr.text, Dialect.source, Text.indented]
  have hprint : Stmt.Canonical (.print (.string (String.ofList text) .origin) .origin) :=
    .print hvalue
  -- Whatever the string, the line has two words.
  have hreach : Token.InReach source ("print \"".toList ++ text ++ ['"']) := by
    have hword : Token.Lexes source 1 1 Loose (Lexeme.keyword .print).text.toList _ :=
      .lone rfl trivial
    have hlex := hword.append_blank (.lone rfl hstring) Loose.blank
    simpa [Lexeme.text, Lexeme.value, Keyword.text] using
      hlex.inReach_iff.2 (show 2 + 2 ≤ UInt32.size by decide)
  obtain ⟨s, hcheck, hsame⟩ := hprint.check_line hline hreach
  obtain ⟨value, t', rfl, hvalue⟩ := Stmt.eq_print_of_bare hsame
  obtain ⟨t, rfl⟩ := Expr.eq_string_of_bare hvalue
  exact ⟨t, t', hcheck⟩

theorem generate_print (raw : String) (t t' : Span) (options : Script.Options) :
    Program.generate options ⟨[.print (.string raw t) t']⟩ =
      .ok ((if options.banner then Script.banner ++ "\n\n" else "") ++ Script.helpers ++ "\n" ++
        "print(" ++ Script.quote raw ++ ");\n") := by
  have hlower : Program.lower ⟨[.print (.string raw t) t']⟩ =
      .ok ⟨.nothing, [.statement (.eval ("print(" ++ Script.quote raw ++ ")"))]⟩ := rfl
  have hrow : Text.IsRow ("print(" ++ Script.quote raw ++ ")" ++ ";").toList := by
    constructor
    · intro hfeed
      have hquote : '\n' ∈ (Script.quote raw).toList := by simpa using hfeed
      exact absurd (List.all_eq_true.1 (Script.staysOnLine_quote raw) '\n' hquote) (by decide)
    · rw [String.toList_append, List.getLast?_append]
      simp
  have htext := Script.text_of_line options (s := .eval ("print(" ++ Script.quote raw ++ ")")) rfl
    (by simp) hrow
  rw [Program.generate, hlower]
  simp only [htext]
  simp only [String.append_assoc]
  rw [show ")" ++ (";" ++ "\n") = ");\n" from rfl]

/-- Printing a string, for every sequence of bytes that one string on a line can hold. The script is
the prelude, a blank line and one call; its literal stays on its line, and it is read as a text
exactly if the bytes are. -/
theorem print_compiles_faithfully {bytes : List UInt8} (hquote : 0x22 ∉ bytes)
    (hfeed : 0x0a ∉ bytes) (hslot : ¬ [0x23, 0x7b] <:+: bytes) (options : Script.Options)
    (source : String) :
    ∃ compiled literal, compile options source
        (Text.Utf8.decode (Text.Utf8.encode "print \"".toList ++ bytes ++ Text.Utf8.encode ['"'])) =
          .ok compiled ∧
      compiled.script = (if options.banner then Script.banner ++ "\n\n" else "") ++
        Script.helpers ++ "\n" ++
        "print(" ++ literal ++ ");\n" ∧
      (∀ c ∈ literal.toList, 0x20 ≤ c.toNat ∧ c.toNat ≠ 0x2028 ∧ c.toNat ≠ 0x2029) ∧
      ∀ text, Script.readLiteral? literal.toList = some text ↔ Text.Utf8.Reads bytes text := by
  obtain ⟨text, hreads⟩ : ∃ text, Text.Utf8.Reads bytes text := ⟨_, Text.Utf8.reads_decode bytes⟩
  have hcode : Text.Utf8.decode
      (Text.Utf8.encode "print \"".toList ++ bytes ++ Text.Utf8.encode ['"']) =
        "print \"".toList ++ text ++ ['"'] := by
    have hclose : Text.Utf8.Reads [0x22] ['"'] := Text.Utf8.reads_iff.2 (by decide)
    rw [List.append_assoc, List.append_assoc, ← Text.Utf8.reads_iff]
    exact (hreads.append (by decide) hclose).encode_append "print \"".toList
  have hnoQuote : '"' ∉ text := fun h => hquote (hreads.mem_of_ascii (by decide) h)
  have hnoFeed : '\n' ∉ text := fun h => hfeed (hreads.mem_of_ascii (by decide) h)
  have hnoSlot : opensSlot text = false := by
    rw [← Bool.not_eq_true]
    exact fun h => hslot (hreads.infix_of_ascii (by simp) (infix_of_opensSlot h))
  obtain ⟨t, t', hcheck⟩ := check_print hnoQuote hnoFeed hnoSlot source
  refine ⟨⟨source, ⟨[.print (.string (String.ofList text) t) t']⟩, _⟩,
    Script.quote (String.ofList text), ?_, rfl, ?_, ?_⟩
  · rw [hcode, compile, hcheck]
    simp only [generate_print]
  · intro c hc
    have hstays := List.all_eq_true.1 (Script.staysOnLine_quote _) c hc
    simpa [Script.staysOnLine, and_assoc] using hstays
  · intro text'
    rw [Script.readLiteral?_quote, String.toList_ofList, Text.Utf8.reads_iff, Option.some.injEq,
      Text.Utf8.reads_iff.1 hreads]

/-- A backslash, a carriage return, a stray byte, a line separator and a byte that is cut off. -/
theorem print_compiles_faithfully_hardBytes :
    ∃ compiled literal, compile .standard "m"
        (Text.Utf8.decode (Text.Utf8.encode "print \"".toList ++
          [0x5c, 0x0d, 0x80, 0x7d, 0x7d, 0xe2, 0x80, 0xa8, 0xc3] ++ Text.Utf8.encode ['"'])) =
            .ok compiled ∧
      compiled.script = Script.banner ++ "\n\n" ++ Script.helpers ++ "\n" ++ "print(" ++ literal ++
        ");\n" ∧
      Script.readLiteral? literal.toList =
        some ['\\', '\r', Char.ofNat 0xfffd, '}', '}', Char.ofNat 0x2028,
        Char.ofNat 0xfffd] := by
  obtain ⟨compiled, literal, hcompile, hscript, -, hread⟩ := @print_compiles_faithfully
    [0x5c, 0x0d, 0x80, 0x7d, 0x7d, 0xe2, 0x80, 0xa8, 0xc3] (by decide) (by decide) (by decide)
    .standard "m"
  refine ⟨compiled, literal, hcompile, hscript, (hread _).2 (Text.Utf8.reads_iff.2 ?_)⟩
  decide +kernel

end LayoutScript

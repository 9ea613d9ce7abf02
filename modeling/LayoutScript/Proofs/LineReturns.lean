import LayoutScript.Compile
import LayoutScript.Proofs.LineTokens
import LayoutScript.Proofs.Utf8Reading

/-! Line ends of two characters. A scanner sees of a line only what is left of it without one
carriage return at its end, so a text has the same tokens, spans and faults whichever way its lines
end. -/
namespace LayoutScript

namespace Text

/-- Puts `extra` in front of every `mark`. -/
def precede [DecidableEq α] (extra mark : α) (xs : List α) : List α :=
  xs.flatMap fun x => if x = mark then [extra, x] else [x]

section Precede

variable [DecidableEq α] {extra mark : α}

@[simp] theorem precede_append (xs ys : List α) :
    precede extra mark (xs ++ ys) = precede extra mark xs ++ precede extra mark ys :=
  List.flatMap_append

theorem precede_mark (xs : List α) :
    precede extra mark (mark :: xs) = extra :: mark :: precede extra mark xs := by
  simp [precede]

theorem precede_cons {x : α} (h : x ≠ mark) (xs : List α) :
    precede extra mark (x :: xs) = x :: precede extra mark xs := by
  simp [precede, h]

theorem precede_of_not_mem {xs : List α} (h : mark ∉ xs) : precede extra mark xs = xs := by
  induction xs with
  | nil => rfl
  | cons x xs ih =>
    obtain ⟨hx, hxs⟩ := not_or.1 (mt List.mem_cons.2 h)
    rw [precede_cons (Ne.symm hx), ih hxs]

theorem prefix_of_prefix_precede {xs ys : List α} (h : ys <+: precede extra mark xs)
    (hextra : extra ∉ ys) : ys <+: xs := by
  induction ys generalizing xs with
  | nil => exact List.nil_prefix
  | cons y ys ih =>
    obtain ⟨hy, hys⟩ := not_or.1 (mt List.mem_cons.2 hextra)
    cases xs with
    | nil => exact h
    | cons x xs =>
      by_cases hx : x = mark
      · rw [hx, precede_mark, List.cons_prefix_cons] at h
        exact absurd h.1.symm hy
      · rw [precede_cons hx, List.cons_prefix_cons] at h
        exact List.cons_prefix_cons.2 ⟨h.1, ih h.2 hys⟩

end Precede

/-! ### Lines -/

theorem dropReturn_cons {c : Char} (h : c ≠ '\r') (line : List Char) :
    dropReturn (c :: line) = c :: dropReturn line := by
  cases line with
  | nil => simp [dropReturn, h]
  | cons d line =>
    rw [dropReturn, dropReturn, List.getLast?_cons_cons, List.dropLast_cons_cons]
    split <;> rfl

/-- The lines of a text with carriage returns are its lines, but for one return that is dropped. -/
theorem lines_precede {cs : List Char} (h : '\r' ∉ cs) :
    (lines (precede '\r' '\n' cs)).map dropReturn = (lines cs).map dropReturn := by
  induction cs with
  | nil => rfl
  | cons c cs ih =>
    obtain ⟨hc, hcs⟩ := not_or.1 (mt List.mem_cons.2 h)
    have hrest := ih hcs
    by_cases hfeed : c = '\n'
    · rw [hfeed, precede_mark, lines_feed, List.map_cons, ← hrest]
      obtain ⟨first, more, hlines, hlines'⟩ :=
        lines_cons (by decide : '\r' ≠ '\n') ('\n' :: precede '\r' '\n' cs)
      rw [lines_feed] at hlines
      cases hlines
      rw [hlines']
      rfl
    · rw [precede_cons hfeed]
      obtain ⟨line, more, hlines, hcons⟩ := lines_cons hfeed cs
      obtain ⟨line', more', hlines', hcons'⟩ := lines_cons hfeed (precede '\r' '\n' cs)
      rw [hlines, hlines', List.map_cons, List.map_cons] at hrest
      obtain ⟨hline, hmore⟩ := List.cons.inj hrest
      rw [hcons, hcons', List.map_cons, List.map_cons, dropReturn_cons (Ne.symm hc),
        dropReturn_cons (Ne.symm hc), hline, hmore]

theorem isSkipped_dropReturn (line : List Char) : isSkipped (dropReturn line) = isSkipped line := by
  obtain ⟨tail, hline, htail⟩ := dropReturn_append line
  have hblank : tail.dropWhile isBlank = [] :=
    (trimLeft_eq_nil_iff tail).2 (List.all_eq_true.2 htail)
  have htrim : trimLeft line =
      if (trimLeft (dropReturn line)).isEmpty then [] else trimLeft (dropReturn line) ++ tail := by
    conv => lhs; rw [hline]
    rw [trimLeft, List.dropWhile_append, hblank]
    rfl
  rw [isSkipped, isSkipped, htrim]
  cases trimLeft (dropReturn line) <;> rfl

/-! ### Bytes -/

namespace Utf8

theorem Reads.precede {bs : List UInt8} {cs : List Char} (h : Reads bs cs) :
    Reads (Text.precede 0x0d 0x0a bs) (Text.precede '\r' '\n' cs) := by
  have hfeed : String.utf8EncodeChar '\n' = [0x0a] := by decide
  have hreturn : String.utf8EncodeChar '\r' = [0x0d] := by decide
  induction h with
  | nil => exact .nil
  | @char c bs cs _ ih =>
    by_cases hc : c = '\n'
    · have hboth := Reads.char (c := '\r') (.char (c := '\n') ih)
      rw [hc, hfeed, precede_mark]
      rw [hreturn, hfeed] at hboth
      exact precede_mark bs ▸ hboth
    · have hnone : 0x0a ∉ String.utf8EncodeChar c :=
        fun hmem => hc (eq_of_mem_encode (by decide) hmem)
      rw [precede_append, precede_of_not_mem hnone, precede_cons hc]
      exact .char ih
  | @stray b bs cs hstray _ ih =>
    have hb : b ≠ 0x0a := by
      rintro rfl
      exact hstray '\n' ⟨bs, by rw [hfeed]; rfl⟩
    rw [precede_cons hb, precede_cons (by decide)]
    -- An encoding that runs past `b` goes on with high bytes, which were there before.
    refine .stray (fun c hc => ?_) ih
    obtain ⟨first, more, hmore⟩ :=
      List.exists_cons_of_ne_nil (String.utf8EncodeChar_ne_nil (c := c))
    rw [hmore, List.cons_prefix_cons] at hc
    have hhigh : 0x0d ∉ more := fun hmem => high_of_mem_encode hmore _ hmem (by decide)
    refine hstray c ?_
    rw [hmore, hc.1]
    exact List.cons_prefix_cons.2 ⟨rfl, prefix_of_prefix_precede hc.2 hhigh⟩

end Utf8

end Text

/-! ### Tokens -/

namespace Token

variable (source : String)

theorem ofLine_congr {line line' : List Char} (h : Text.dropReturn line = Text.dropReturn line')
    (number : Nat) (levels : Levels) :
    ofLine source number levels line = ofLine source number levels line' := by
  have hskip : isSkipped line = isSkipped line' := by
    rw [← Text.isSkipped_dropReturn, h, Text.isSkipped_dropReturn]
  rw [ofLine, ofLine, hskip, h]

theorem ofLines_congr {lines lines' : List (List Char)}
    (h : lines.map Text.dropReturn = lines'.map Text.dropReturn) (number : Nat) (levels : Levels) :
    ofLines source number levels lines = ofLines source number levels lines' := by
  induction lines generalizing lines' number levels with
  | nil =>
    obtain rfl := List.map_eq_nil_iff.1 h.symm
    rfl
  | cons line lines ih =>
    obtain ⟨line', rest, rfl, hline, hrest⟩ := List.map_eq_cons_iff.1 h.symm
    rw [ofLines, ofLines, ofLine_congr source hline.symm]
    simp only [ih hrest.symm]

theorem ofText_precede {code : List Char} (h : '\r' ∉ code) :
    ofText source (Text.precede '\r' '\n' code) = ofText source code :=
  ofLines_congr source (Text.lines_precede h) 1 .initial

end Token

theorem compile_congr {source : String} {code code' : List Char}
    (h : Token.ofText source code = Token.ofText source code') (options : Script.Options) :
    compile options source code = compile options source code' := by
  rw [compile, compile, check, check, h]

/-- A text without carriage returns, and the same text with one in front of every line feed, have
the same tokens or the same fault of the scanner, and the same script or the same fault. This holds
of characters and of bytes, which need not be well formed. -/
theorem compile_withReturns (source : String) :
    (∀ code : List Char, '\r' ∉ code →
      Token.ofText source (Text.precede '\r' '\n' code) = Token.ofText source code ∧
      ∀ options, compile options source (Text.precede '\r' '\n' code) =
        compile options source code) ∧
    ∀ bytes : List UInt8, 0x0d ∉ bytes →
      Token.ofText source (Text.Utf8.decode (Text.precede 0x0d 0x0a bytes)) =
        Token.ofText source (Text.Utf8.decode bytes) ∧
      ∀ options, compile options source (Text.Utf8.decode (Text.precede 0x0d 0x0a bytes)) =
        compile options source (Text.Utf8.decode bytes) := by
  have htext (code : List Char) (h : '\r' ∉ code) :
      Token.ofText source (Text.precede '\r' '\n' code) = Token.ofText source code ∧
      ∀ options, compile options source (Text.precede '\r' '\n' code) =
        compile options source code :=
    ⟨Token.ofText_precede source h, compile_congr (Token.ofText_precede source h)⟩
  refine ⟨htext, fun bytes h => ?_⟩
  have hreads := Text.Utf8.reads_decode bytes
  rw [Text.Utf8.reads_iff.1 hreads.precede]
  exact htext _ fun hmem => h (hreads.mem_of_ascii (by decide) hmem)

/-- A comment, a blank line and a level that closes. -/
def feedLines : List Char := "if x\n  # note\n\n  print \"é\"\nend".toList

/-- A string that the end of its line cuts off in the middle of a character. -/
def cutBytes : List UInt8 := [0x78, 0x0a, 0x22, 0xc3, 0x0a]

theorem compile_withReturns_cutOff :
    (∃ tokens, Token.ofText "m" "if x\r\n  # note\r\n\r\n  print \"é\"\r\nend".toList = .ok tokens ∧
      Token.ofText "m" feedLines = .ok tokens) ∧
    ∃ e, Token.ofText "m" (Text.Utf8.decode [0x78, 0x0d, 0x0a, 0x22, 0xc3, 0x0d, 0x0a]) = .error e ∧
      Token.ofText "m" (Text.Utf8.decode cutBytes) = .error e := by
  obtain ⟨htext, hbytes⟩ := compile_withReturns "m"
  have hlines := (htext feedLines (by decide)).1
  have hcut := (hbytes cutBytes (by decide)).1
  rw [show Text.precede '\r' '\n' feedLines =
    "if x\r\n  # note\r\n\r\n  print \"é\"\r\nend".toList by decide] at hlines
  rw [show Text.precede 0x0d 0x0a cutBytes = [0x78, 0x0d, 0x0a, 0x22, 0xc3, 0x0d, 0x0a] by decide]
    at hcut
  rw [hlines, hcut]
  have hok : (Token.ofText "m" feedLines).isOk = true := by decide +kernel
  have hfails : (Token.ofText "m" (Text.Utf8.decode cutBytes)).isOk = false := by decide +kernel
  constructor
  · cases h : Token.ofText "m" feedLines with
    | error e =>
      rw [h] at hok
      cases hok
    | ok tokens => exact ⟨tokens, rfl, rfl⟩
  · cases h : Token.ofText "m" (Text.Utf8.decode cutBytes) with
    | error e => exact ⟨e, rfl, rfl⟩
    | ok tokens =>
      rw [h] at hfails
      cases hfails

end LayoutScript

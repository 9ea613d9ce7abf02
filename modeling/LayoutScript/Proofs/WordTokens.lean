import LayoutScript.Proofs.TokenTexts

/-! Words by themselves. A text is a word exactly if scanning it gives that word and nothing else,
and the kinds of literal lexemes are those that scanning gives to words. -/
namespace LayoutScript

/-! ### Words and signs -/

theorem Keyword.isWord_text (k : Keyword) : isWord k.text = true := by cases k <;> decide

theorem Punct.ofText?_of_isWord {s : String} (h : isWord s = true) : ofText? s = none := by
  refine List.find?_eq_none.2 fun p _ hp => ?_
  rw [← beq_iff_eq.1 hp] at h
  revert h
  cases p <;> decide

theorem TokenKind.ofText_of_isWord {s : String} (h : isWord s = true) :
    ofText s = if (Keyword.ofText? s).isSome then .keyword else .identifier := by
  rw [ofText, Punct.ofText?_of_isWord h]

namespace Lexeme

theorem kind_ofWord {s : String} (h : isWord s = true) :
    (ofWord s.toList).kind = TokenKind.ofText s := by
  rw [ofWord, String.ofList_toList, TokenKind.ofText_of_isWord h]
  cases Keyword.ofText? s <;> rfl

theorem value_ofWord (s : String) : (ofWord s.toList).value = s := by
  rw [ofWord, String.ofList_toList]
  cases hk : Keyword.ofText? s with
  | some k => exact Keyword.text_of_ofText? hk
  | none => rfl

theorem isWord_value {l : Lexeme} (h : l.WellFormed)
    (hkind : l.kind = .identifier ∨ l.kind = .keyword) :
    isWord l.value = true := by
  cases l with
  | keyword k => exact k.isWord_text
  | identifier name => exact h.1
  | punct p =>
    rw [kind, TokenKind.ofPunct] at hkind
    split at hkind <;> simp at hkind
  | _ => simp [kind] at hkind

end Lexeme

/-! ### The tokens of a word -/

namespace Token

variable {source : String} {bytes : List UInt8}

/-- The bytes are scanned as one token, with only the end of its line and the end of the text behind
it. -/
def ScannedAlone (source : String) (bytes : List UInt8) (t : Token) : Prop :=
  ∃ newline eof, ofText source (Text.Utf8.decode bytes) = .ok [t, newline, eof] ∧
    newline.kind = .newline ∧ eof.kind = .eof

theorem ScannedAlone.unique {t t' : Token} (h : ScannedAlone source bytes t)
    (h' : ScannedAlone source bytes t') : t = t' := by
  obtain ⟨_, _, hscan, -⟩ := h
  obtain ⟨_, _, hscan', -⟩ := h'
  rw [hscan] at hscan'
  exact (List.cons.inj (Except.ok.inj hscan')).1

theorem scannedAlone_of_isWord {s : String} (h : isWord s = true)
    (hs : Text.Utf8.decode bytes = s.toList) (source : String) :
    ∃ span, ScannedAlone source bytes ⟨.ofWord s.toList, span⟩ := by
  have hclean := Clean.of_word h
  obtain ⟨c, cs, hcs, hscan⟩ := @Lexeme.scan_word s [] h (by simp)
  rw [List.append_nil] at hscan
  have hlexes : Lexes source 1 1 (· = []) s.toList
      [⟨.ofWord s.toList, .ofWidth source 1 1 s.toList.length⟩] := by
    rw [hcs] at hclean ⊢
    refine .of_scan hclean fun rest hrest => ?_
    rw [hrest, List.append_nil, hscan]
  have hrun := hlexes.run [] rfl
  obtain ⟨last, htext⟩ := ofText_clean hclean source
  rw [List.append_nil] at hrun
  rw [hrun] at htext
  exact ⟨_, ⟨.newline, _⟩, ⟨.eof, last⟩, (congrArg (ofText source) hs).trans htext, rfl, rfl⟩

/-- A text of any bytes is a word exactly if scanning gives one identifier or keyword whose value is
the whole text. That token is a keyword exactly if the text is reserved, and has the kind of the
text as a literal. -/
theorem word_iff_scanned_alone (source : String) (bytes : List UInt8) :
    (isWord (String.ofList (Text.Utf8.decode bytes)) = true ↔
      ∃ t, ScannedAlone source bytes t ∧ (t.kind = .identifier ∨ t.kind = .keyword) ∧
        Text.Utf8.encode t.lexeme.value.toList = bytes) ∧
    (isWord (String.ofList (Text.Utf8.decode bytes)) = true → ∀ t, ScannedAlone source bytes t →
      (t.kind = .keyword ↔ (Keyword.ofText? (String.ofList (Text.Utf8.decode bytes))).isSome = true)
        ∧
      TokenKind.ofText (String.ofList (Text.Utf8.decode bytes)) = t.kind) := by
  generalize hs : String.ofList (Text.Utf8.decode bytes) = s
  have hdecode : Text.Utf8.decode bytes = s.toList := by rw [← hs, String.toList_ofList]
  refine ⟨⟨fun h => ?_, ?_⟩, fun h t ht => ?_⟩
  · obtain ⟨span, halone⟩ := scannedAlone_of_isWord h hdecode source
    refine ⟨_, halone, ?_, ?_⟩
    · rw [kind, Lexeme.kind_ofWord h, TokenKind.ofText_of_isWord h]
      split
      · exact .inr rfl
      · exact .inl rfl
    · -- A word has no character that may stand for a stray byte.
      rw [Lexeme.value_ofWord, ← hdecode]
      refine (Text.Utf8.reads_decode bytes).encode_eq fun hmem => ?_
      rw [hdecode] at hmem
      exact absurd (Script.Template.isWordChar_of_mem h hmem) (by decide)
  · rintro ⟨t, ⟨_, _, hscan, -⟩, hkind, hvalue⟩
    have hvalue : t.lexeme.value = s := by
      rw [← String.toList_inj, ← hdecode, ← hvalue, Text.Utf8.decode_encode]
    rw [← hvalue]
    exact Lexeme.isWord_value (ofText_wellFormed hscan t List.mem_cons_self) hkind
  · obtain ⟨span, halone⟩ := scannedAlone_of_isWord h hdecode source
    rw [ht.unique halone, kind, Lexeme.kind_ofWord h, TokenKind.ofText_of_isWord h]
    split <;> simp_all

/-- A reserved word, another word, then words with a blank, a return or a stray byte at an end, and
an empty text. -/
theorem word_iff_scanned_alone_edges :
    (∃ t, ScannedAlone "m" [0x65, 0x6e, 0x64] t ∧ t.kind = .keyword) ∧
    (∃ t, ScannedAlone "m" [0x5f, 0x61, 0x39] t ∧ t.kind = .identifier) ∧
    ∀ bytes ∈ [[0x61, 0x20], [0x20, 0x61], [0x61, 0x0d], [0x61, 0xff], []],
      ¬ ∃ t, ScannedAlone "m" bytes t ∧ (t.kind = .identifier ∨ t.kind = .keyword) ∧
        Text.Utf8.encode t.lexeme.value.toList = bytes := by
  refine ⟨?_, ?_, ?_⟩
  · obtain ⟨t, ht, -⟩ := (word_iff_scanned_alone "m" [0x65, 0x6e, 0x64]).1.1 (by decide +kernel)
    obtain ⟨-, hkind⟩ := (word_iff_scanned_alone "m" [0x65, 0x6e, 0x64]).2 (by decide +kernel) t ht
    exact ⟨t, ht, hkind.symm.trans (by decide +kernel)⟩
  · obtain ⟨t, ht, -⟩ := (word_iff_scanned_alone "m" [0x5f, 0x61, 0x39]).1.1 (by decide +kernel)
    obtain ⟨-, hkind⟩ := (word_iff_scanned_alone "m" [0x5f, 0x61, 0x39]).2 (by decide +kernel) t ht
    exact ⟨t, ht, hkind.symm.trans (by decide +kernel)⟩
  · have hwords : [[0x61, 0x20], [0x20, 0x61], [0x61, 0x0d], [0x61, 0xff], []].all (fun bytes =>
        !isWord (String.ofList (Text.Utf8.decode bytes))) = true := by decide +kernel
    intro bytes hbytes hscanned
    have hword := (word_iff_scanned_alone "m" bytes).1.2 hscanned
    have hnone := List.all_eq_true.1 hwords bytes hbytes
    rw [hword] at hnone
    cases hnone

end Token

end LayoutScript

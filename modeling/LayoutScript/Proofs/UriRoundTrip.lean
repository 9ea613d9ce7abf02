import Mathlib.Data.List.TakeWhile
import LayoutScript.Proofs.Utf8Reading
import LayoutScript.Uri

/-! From a path to its URI and back. The URI spells every byte of a path that needs it as an escape,
and reading the URI replaces these escapes. After that the escapes that the path itself spells are
replaced once more, so a path comes back exactly if it has no percent sign. -/
namespace LayoutScript.Uri

/-! ### Escapes -/

def isEscapedByte (b : UInt8) : Bool := isPathByte b || b == byteOf '%'

theorem forall_byte {test : UInt8 → Bool} (h : ∀ n < 256, test (UInt8.ofNat n) = true) (b : UInt8) :
    test b = true := by
  have hb := h b.toNat b.toNat_lt_size
  rwa [UInt8.ofNat_toNat] at hb

theorem hexByte_upper : ∀ n < 16, isPathByte (byteOf (Text.hexDigitUpper n)) = true ∧
    isHexByte (byteOf (Text.hexDigitUpper n)) = true ∧
    Text.hexValue (charOf (byteOf (Text.hexDigitUpper n))) = n := by
  decide

theorem isEscapedByte_of_mem {bs : List UInt8} : ∀ b ∈ encodePath bs, isEscapedByte b = true := by
  intro b hb
  obtain ⟨a, -, hb⟩ := List.mem_flatMap.1 hb
  have hword := a.toNat_lt_size
  split at hb
  · next ha =>
    rw [List.mem_singleton.1 hb, isEscapedByte, ha]
    rfl
  · have hdigit {n : Nat} (hn : n < 16) : isEscapedByte (byteOf (Text.hexDigitUpper n)) = true := by
      rw [isEscapedByte, (hexByte_upper n hn).1]
      rfl
    have hescape : ∀ x ∈ escape a, isEscapedByte x = true := by
      refine List.forall_mem_cons.2 ⟨rfl, List.forall_mem_cons.2 ⟨hdigit ?_, ?_⟩⟩
      · simp only [UInt8.size] at hword
        omega
      · exact List.forall_mem_singleton.2 (hdigit (by omega))
    exact hescape b hb

theorem decode_plain {b : UInt8} (h : b ≠ byteOf '%') (bs : List UInt8) :
    decode .path (b :: bs) = (decode .path bs).map (b :: ·) := by
  rw [decode.eq_def]
  simp only [if_neg h, if_pos (show Part.path.mayHold b = true from rfl)]
  cases decode .path bs <;> rfl

theorem decode_append {front : List UInt8} (h : byteOf '%' ∉ front) (bs : List UInt8) :
    decode .path (front ++ bs) = (decode .path bs).map (front ++ ·) := by
  induction front with
  | nil =>
    rw [List.nil_append]
    cases decode .path bs <;> rfl
  | cons b front ih =>
    obtain ⟨hb, hfront⟩ := not_or.1 (mt List.mem_cons.2 h)
    rw [List.cons_append, decode_plain (Ne.symm hb), ih hfront]
    cases decode .path bs <;> rfl

theorem decode_escape (b : UInt8) (bs : List UInt8) :
    decode .path (escape b ++ bs) = (decode .path bs).map (b :: ·) := by
  have hword := b.toNat_lt_size
  simp only [UInt8.size] at hword
  obtain ⟨-, hhigh, hhighValue⟩ := hexByte_upper (b.toNat / 16) (by omega)
  obtain ⟨-, hlow, hlowValue⟩ := hexByte_upper (b.toNat % 16) (by omega)
  have hvalue : UInt8.ofNat (Text.hexNumber [charOf (byteOf (Text.hexDigitUpper (b.toNat / 16))),
      charOf (byteOf (Text.hexDigitUpper (b.toNat % 16)))]) = b := by
    simp only [Text.hexNumber, List.foldl, hhighValue, hlowValue]
    rw [show (0 * 16 + b.toNat / 16) * 16 + b.toNat % 16 = b.toNat by omega, UInt8.ofNat_toNat]
  simp only [escape, List.cons_append, List.nil_append, decode, hhigh, hlow, hvalue, Part.mayEscape]
  cases decode .path bs <;> rfl

theorem decode_encodePath (bs : List UInt8) : decode .path (encodePath bs) = .ok bs := by
  induction bs with
  | nil => rfl
  | cons b bs ih =>
    rw [encodePath, List.flatMap_cons, ← encodePath]
    split
    · next hb =>
      have hne : b ≠ byteOf '%' := by
        rintro rfl
        exact absurd hb (by decide)
      rw [List.singleton_append, decode_plain hne, ih]
      rfl
    · rw [decode_escape, ih]
      rfl

/-! ### Reading the URI of a path -/

theorem escapedByte_facts {b : UInt8} (h : isEscapedByte b = true) :
    b < 0x80 ∧ isControl b = false ∧ b ≠ byteOf '#' ∧ b ≠ byteOf '?' := by
  have hall := @forall_byte (fun b => !isEscapedByte b ||
    (b < 0x80 && !isControl b && b != byteOf '#' && b != byteOf '?')) (by decide +kernel) b
  simpa [h, and_assoc] using hall

theorem cut_of_not_mem {divider : Char} {bs : List UInt8} (h : byteOf divider ∉ bs) :
    cut divider bs = (bs, none) := by
  have hdrop : bs.dropWhile (· != byteOf divider) = [] := by
    rw [List.dropWhile_eq_nil_iff]
    exact fun b hb => bne_iff_ne.2 fun heq => h (heq ▸ hb)
  rw [cut, hdrop]

def fileStart : List UInt8 := "file://".toList.map byteOf

theorem readScheme_file (bs : List UInt8) :
    readScheme (fileStart ++ bs) = .ok ("file".toList.map byteOf, slashes 2 ++ bs) := rfl

/-- A path that starts with a slash leaves nothing to the host. -/
theorem readWhole_file {bs : List UInt8} (hslash : bs.head? = some (byteOf '/'))
    (hescaped : ∀ b ∈ bs, isEscapedByte b = true) :
    readWhole (fileStart ++ bs) = (decode .path bs).map (⟨"file".toList.map byteOf, ·⟩) := by
  obtain ⟨rest, rfl⟩ := List.head?_eq_some_iff.1 hslash
  have hcontrol : (fileStart ++ byteOf '/' :: rest).any isControl = false := by
    rw [List.any_append, Bool.or_eq_false_iff]
    refine ⟨by decide, List.any_eq_false.2 fun b hb => ?_⟩
    rw [(escapedByte_facts (hescaped b hb)).2.1]
    exact Bool.false_ne_true
  have hquery : byteOf '?' ∉ slashes 2 ++ byteOf '/' :: rest := by
    rw [List.mem_append, not_or]
    exact ⟨by decide, fun hmem => (escapedByte_facts (hescaped _ hmem)).2.2.2 rfl⟩
  have hpath : ((slashes 2 ++ byteOf '/' :: rest).drop 2).dropWhile (· != byteOf '/') =
      byteOf '/' :: rest := rfl
  simp only [readWhole, hcontrol, readScheme_file, bind, Except.bind, cut_of_not_mem hquery, hpath]
  cases decode .path (byteOf '/' :: rest) <;> rfl

theorem read_file {bs : List UInt8} (hslash : bs.head? = some (byteOf '/'))
    (hescaped : ∀ b ∈ bs, isEscapedByte b = true) {path : List UInt8}
    (hpath : decode .path bs = .ok path) :
    read (fileStart ++ bs) = .ok ⟨"file".toList.map byteOf, path⟩ := by
  have hfragment : byteOf '#' ∉ fileStart ++ bs := by
    rw [List.mem_append, not_or]
    exact ⟨by decide, fun hmem => (escapedByte_facts (hescaped _ hmem)).2.2.1 rfl⟩
  rw [read, cut_of_not_mem hfragment]
  simp only [readWhole_file hslash hescaped, hpath]
  rfl

theorem encode_map_charOf {bs : List UInt8} (h : ∀ b ∈ bs, b < 0x80) :
    Text.Utf8.encode (bs.map charOf) = bs := by
  induction bs with
  | nil => rfl
  | cons b bs ih =>
    obtain ⟨hb, hbs⟩ := List.forall_mem_cons.1 h
    rw [List.map_cons, Text.Utf8.encode_cons, ih hbs, charOf,
      Text.Utf8.encode_one (UInt8.lt_iff_toNat_lt.1 hb)]
    rfl

theorem encode_ofPath {p : Path} (h : p.isAbsolute = true) :
    Text.Utf8.encode (ofPath p).toList = fileStart ++ encodePath (Text.Utf8.encode p) := by
  obtain ⟨rest, rfl⟩ := List.head?_eq_some_iff.1 (beq_iff_eq.1 h)
  have hascii : ∀ b ∈ encodePath (Text.Utf8.encode ('/' :: rest)), b < 0x80 :=
    fun b hb => (escapedByte_facts (isEscapedByte_of_mem b hb)).1
  have hstar : ¬ '/' :: rest = ['*'] := by simp
  rw [ofPath, if_neg (by simp)]
  simp only [if_neg hstar, String.toList_append, String.toList_ofList]
  rw [Text.Utf8.encode_append, encode_map_charOf hascii]
  rfl

/-- Reading the URI of a path back replaces the escapes that the path itself spells. -/
theorem toPath_ofPath {p : Path} (h : p.isAbsolute = true) : toPath (ofPath p) =
    ((decode .path (Text.Utf8.encode p)).map Text.Utf8.decode).mapError .path := by
  have hslash : (encodePath (Text.Utf8.encode p)).head? = some (byteOf '/') := by
    obtain ⟨rest, rfl⟩ := List.head?_eq_some_iff.1 (beq_iff_eq.1 h)
    rfl
  have hread := read_file hslash isEscapedByte_of_mem (decode_encodePath (Text.Utf8.encode p))
  rw [toPath, encode_ofPath h, hread]
  simp only [ne_eq, not_true_eq_false, if_false]
  cases decode .path (Text.Utf8.encode p) <;> rfl

/-! ### Paths that come back -/

theorem hexByte_facts {b : UInt8} (h : isHexByte b = true) :
    b < 0x80 ∧ Char.ofNat b.toNat ≠ '%' := by
  have hall := @forall_byte (fun b => !isHexByte b || (b < 0x80 && Char.ofNat b.toNat != '%'))
    (by decide +kernel) b
  simpa [h] using hall

theorem exists_of_decode_percent {bs decoded : List UInt8}
    (h : decode .path (byteOf '%' :: bs) = .ok decoded) :
    ∃ high low rest value tail, bs = high :: low :: rest ∧ isHexByte high = true ∧
      isHexByte low = true ∧ decode .path rest = .ok tail ∧ decoded = value :: tail := by
  rw [decode.eq_def] at h
  simp only [if_true] at h
  split at h
  · next high low rest =>
    split at h
    · next hhex =>
      simp only [Bool.and_eq_true] at hhex
      split at h
      · next tail htail =>
        cases h
        exact ⟨high, low, rest, _, tail, rfl, hhex.1.1, hhex.1.2, htail, rfl⟩
      · cases h
    · cases h
  · cases h

theorem length_decode_le {cs : List Char} {bytes : List UInt8}
    (h : decode .path (Text.Utf8.encode cs) = .ok bytes) :
    (Text.Utf8.decode bytes).length + 2 * cs.count '%' ≤ cs.length := by
  induction hn : cs.length using Nat.strongRecOn generalizing cs bytes with
  | ind n ih =>
    cases cs with
    | nil =>
      cases h
      exact Nat.zero_le _
    | cons c cs =>
      rw [Text.Utf8.encode_cons] at h
      rw [List.length_cons] at hn
      by_cases hc : c = '%'
      · subst hc
        have hpercent : decode .path (byteOf '%' :: Text.Utf8.encode cs) = .ok bytes := h
        obtain ⟨high, low, rest, value, tail, hrest, hhigh, hlow, htail, rfl⟩ :=
          exists_of_decode_percent hpercent
        obtain ⟨hhighAscii, hhighNe⟩ := hexByte_facts hhigh
        obtain ⟨hlowAscii, hlowNe⟩ := hexByte_facts hlow
        obtain ⟨more, rfl, hmore⟩ := Text.Utf8.exists_of_encode_eq_cons hrest hhighAscii
        obtain ⟨more, rfl, rfl⟩ := Text.Utf8.exists_of_encode_eq_cons hmore hlowAscii
        rw [List.length_cons, List.length_cons] at hn
        have hshort := ih more.length (by omega) htail rfl
        have hone := Text.Utf8.length_decode_cons_le value tail
        rw [List.count_cons_self, List.count_cons_of_ne hhighNe, List.count_cons_of_ne hlowNe]
        omega
      · have hplain : byteOf '%' ∉ String.utf8EncodeChar c :=
          fun hmem => hc (Text.Utf8.eq_of_mem_encode (by decide) hmem)
        rw [decode_append hplain] at h
        cases htail : decode .path (Text.Utf8.encode cs) with
        | error e =>
          rw [htail] at h
          cases h
        | ok tail =>
          rw [htail] at h
          cases h
          have hshort := ih cs.length (by omega) htail rfl
          rw [Text.Utf8.decode_encode_append, List.length_cons, List.count_cons_of_ne hc]
          omega

/-- A file's URI leads back to its path exactly if the path has no percent sign. Otherwise the
escapes that the path spells are replaced, or it spells something that is none. -/
theorem toPath_ofPath_iff {p : Path} (h : p.isAbsolute = true) :
    toPath (ofPath p) = ((decode .path (Text.Utf8.encode p)).map Text.Utf8.decode).mapError .path ∧
    (toPath (ofPath p) = .ok p ↔ '%' ∉ p) := by
  refine ⟨toPath_ofPath h, ?_⟩
  rw [toPath_ofPath h]
  constructor
  · intro hback hmem
    cases hbytes : decode .path (Text.Utf8.encode p) with
    | error cause =>
      rw [hbytes] at hback
      cases hback
    | ok bytes =>
      rw [hbytes] at hback
      have hp : Text.Utf8.decode bytes = p := Except.ok.inj hback
      have hshort := length_decode_le hbytes
      have hcount := List.count_pos_iff.2 hmem
      rw [hp] at hshort
      omega
  · intro hnone
    have hplain : byteOf '%' ∉ Text.Utf8.encode p := by
      intro hmem
      obtain ⟨c, hc, hb⟩ := List.mem_flatMap.1 hmem
      obtain rfl := Text.Utf8.eq_of_mem_encode (by decide) hb
      exact hnone hc
    have hsame := decode_append hplain []
    rw [List.append_nil] at hsame
    rw [hsame]
    show Except.ok (Text.Utf8.decode (Text.Utf8.encode p ++ [])) = .ok p
    rw [List.append_nil, Text.Utf8.decode_encode]

theorem toPath_ofPath_iff_spaced :
    toPath (ofPath "//tmp/my project/a?b#c/é:*".toList) = .ok "//tmp/my project/a?b#c/é:*".toList :=
  (toPath_ofPath_iff (by decide)).2.2 (by decide)

/-- A path that spells an escape leads to another path. -/
theorem escape_in_path_lost :
    Path.isAbsolute "/a%20b".toList = true ∧ toPath (ofPath "/a%20b".toList) = .ok "/a b".toList ∧
      toPath (ofPath "/a%20b".toList) ≠ .ok "/a%20b".toList := by
  decide +kernel

end LayoutScript.Uri

import LayoutScript.Text.Utf8

/-! What decoding reads. Every sequence of bytes is read in one way: the encoding of a character as
that character, and a byte that begins no such encoding as the replacement character. -/
namespace LayoutScript.Text.Utf8

/-- Bytes and the characters that they stand for. -/
inductive Reads : List UInt8 → List Char → Prop
  | nil : Reads [] []
  | char {c bs cs} : Reads bs cs → Reads (String.utf8EncodeChar c ++ bs) (c :: cs)
  | stray {b bs cs} : (∀ c, ¬ String.utf8EncodeChar c <+: b :: bs) → Reads bs cs →
    Reads (b :: bs) (replacement :: cs)

/-! ### Sequences of one character -/

theorem isTail_iff {b : UInt8} : isTail b = true ↔ 0x80 ≤ b.toNat ∧ b.toNat ≤ 0xbf := by
  simp [isTail, UInt8.le_iff_toNat_le]

theorem isSecond_iff {lead b : UInt8} : isSecond lead b = true ↔
    0x80 ≤ b.toNat ∧ b.toNat ≤ 0xbf ∧ (lead.toNat = 0xe0 → 0xa0 ≤ b.toNat) ∧
      (lead.toNat = 0xed → b.toNat ≤ 0x9f) ∧ (lead.toNat = 0xf0 → 0x90 ≤ b.toNat) ∧
      (lead.toNat = 0xf4 → b.toNat ≤ 0x8f) := by
  unfold isSecond
  simp only [← UInt8.toNat_inj, UInt8.toNat_ofNat]
  split
  · simp [UInt8.le_iff_toNat_le]; omega
  · split
    · simp [UInt8.le_iff_toNat_le]; omega
    · split
      · simp [UInt8.le_iff_toNat_le]; omega
      · split
        · simp [UInt8.le_iff_toNat_le]; omega
        · rw [isTail_iff]; omega

theorem toNat_ofNat {n : Nat} (h : n < 0xd800 ∨ 0xdfff < n ∧ n < 0x110000) :
    (Char.ofNat n).toNat = n := by
  rw [Char.ofNat, dif_pos h]
  rfl

theorem encode_one {b : UInt8} (hb : b.toNat < 0x80) :
    String.utf8EncodeChar (Char.ofNat b.toNat) = [b] := by
  have hn : (Char.ofNat b.toNat).val.toNat = b.toNat := toNat_ofNat (by omega)
  rw [String.utf8EncodeChar]
  simp only [hn]
  rw [if_pos (by omega), UInt8.ofNat_toNat]

theorem encode_two {b b₁ : UInt8} (hb : 0xc2 ≤ b.toNat ∧ b.toNat ≤ 0xdf) (h₁ : isTail b₁ = true) :
    String.utf8EncodeChar (spell (b.toNat - 0xc0) [b₁]) = [b, b₁] := by
  rw [isTail_iff] at h₁
  have hn : (spell (b.toNat - 0xc0) [b₁]).val.toNat = (b.toNat - 0xc0) * 64 + (b₁.toNat - 0x80) :=
    toNat_ofNat (by simp only [List.foldl]; omega)
  rw [String.utf8EncodeChar]
  simp only [hn]
  rw [if_neg (by omega), if_pos (by omega)]
  simp only [List.cons.injEq, ← UInt8.toNat_inj, UInt8.toNat_ofNat', and_true]
  omega

theorem encode_three {b b₁ b₂ : UInt8} (hb : 0xe0 ≤ b.toNat ∧ b.toNat ≤ 0xef)
    (h₁ : isSecond b b₁ = true) (h₂ : isTail b₂ = true) :
    String.utf8EncodeChar (spell (b.toNat - 0xe0) [b₁, b₂]) = [b, b₁, b₂] := by
  rw [isSecond_iff] at h₁
  rw [isTail_iff] at h₂
  have hn : (spell (b.toNat - 0xe0) [b₁, b₂]).val.toNat =
      ((b.toNat - 0xe0) * 64 + (b₁.toNat - 0x80)) * 64 + (b₂.toNat - 0x80) :=
    toNat_ofNat (by simp only [List.foldl]; omega)
  rw [String.utf8EncodeChar]
  simp only [hn]
  rw [if_neg (by omega), if_neg (by omega), if_pos (by omega)]
  simp only [List.cons.injEq, ← UInt8.toNat_inj, UInt8.toNat_ofNat', and_true]
  omega

theorem encode_four {b b₁ b₂ b₃ : UInt8} (hb : 0xf0 ≤ b.toNat ∧ b.toNat ≤ 0xf4)
    (h₁ : isSecond b b₁ = true) (h₂ : isTail b₂ = true) (h₃ : isTail b₃ = true) :
    String.utf8EncodeChar (spell (b.toNat - 0xf0) [b₁, b₂, b₃]) = [b, b₁, b₂, b₃] := by
  rw [isSecond_iff] at h₁
  rw [isTail_iff] at h₂ h₃
  have hn : (spell (b.toNat - 0xf0) [b₁, b₂, b₃]).val.toNat =
      (((b.toNat - 0xf0) * 64 + (b₁.toNat - 0x80)) * 64 + (b₂.toNat - 0x80)) * 64 +
        (b₃.toNat - 0x80) :=
    toNat_ofNat (by simp only [List.foldl]; omega)
  rw [String.utf8EncodeChar]
  simp only [hn]
  rw [if_neg (by omega), if_neg (by omega), if_neg (by omega)]
  simp only [List.cons.injEq, ← UInt8.toNat_inj, UInt8.toNat_ofNat', and_true]
  omega

def spellsTwo (b : UInt8) : List UInt8 → Bool
  | b₁ :: _ => 0xc2 ≤ b && b ≤ 0xdf && isTail b₁
  | _ => false

def spellsThree (b : UInt8) : List UInt8 → Bool
  | b₁ :: b₂ :: _ => 0xe0 ≤ b && b ≤ 0xef && isSecond b b₁ && isTail b₂
  | _ => false

def spellsFour (b : UInt8) : List UInt8 → Bool
  | b₁ :: b₂ :: b₃ :: _ => 0xf0 ≤ b && b ≤ 0xf4 && isSecond b b₁ && isTail b₂ && isTail b₃
  | _ => false

theorem leading_eq (b : UInt8) (bs : List UInt8) : leading b bs =
    if b < 0x80 then (.char (Char.ofNat b.toNat), 1)
    else if spellsTwo b bs then (.char (spell (b.toNat - 0xc0) (bs.take 1)), 2)
    else if spellsThree b bs then (.char (spell (b.toNat - 0xe0) (bs.take 2)), 3)
    else if spellsFour b bs then (.char (spell (b.toNat - 0xf0) (bs.take 3)), 4)
    else (.stray b, 1) := by
  rcases bs with _ | ⟨b₁, _ | ⟨b₂, _ | ⟨b₃, rest⟩⟩⟩ <;> rfl

theorem spellsTwo_iff {b : UInt8} {bs : List UInt8} : spellsTwo b bs = true ↔
    ∃ b₁ rest, bs = b₁ :: rest ∧ (0xc2 ≤ b.toNat ∧ b.toNat ≤ 0xdf) ∧ isTail b₁ = true := by
  rcases bs with _ | ⟨b₁, rest⟩ <;> simp [spellsTwo, UInt8.le_iff_toNat_le]

theorem spellsThree_iff {b : UInt8} {bs : List UInt8} : spellsThree b bs = true ↔
    ∃ b₁ b₂ rest, bs = b₁ :: b₂ :: rest ∧ (0xe0 ≤ b.toNat ∧ b.toNat ≤ 0xef) ∧ isSecond b b₁ = true ∧
      isTail b₂ = true := by
  rcases bs with _ | ⟨b₁, _ | ⟨b₂, rest⟩⟩ <;> simp [spellsThree, UInt8.le_iff_toNat_le, and_assoc]

theorem spellsFour_iff {b : UInt8} {bs : List UInt8} : spellsFour b bs = true ↔
    ∃ b₁ b₂ b₃ rest, bs = b₁ :: b₂ :: b₃ :: rest ∧ (0xf0 ≤ b.toNat ∧ b.toNat ≤ 0xf4) ∧
      isSecond b b₁ = true ∧ isTail b₂ = true ∧ isTail b₃ = true := by
  rcases bs with _ | ⟨b₁, _ | ⟨b₂, _ | ⟨b₃, rest⟩⟩⟩ <;>
    simp [spellsFour, UInt8.le_iff_toNat_le, and_assoc]

theorem encode_of_leading {b : UInt8} {bs : List UInt8} {c : Char} {width : Nat}
    (h : leading b bs = (.char c, width)) :
    ∃ more rest, bs = more ++ rest ∧ String.utf8EncodeChar c = b :: more ∧
      width = more.length + 1 := by
  rw [leading_eq] at h
  split at h
  · next hb =>
    obtain ⟨rfl, rfl⟩ : Char.ofNat b.toNat = c ∧ 1 = width := by simpa using h
    exact ⟨[], bs, rfl, encode_one (UInt8.lt_iff_toNat_lt.1 hb), rfl⟩
  split at h
  · next hlead =>
    obtain ⟨b₁, rest, rfl, hb, h₁⟩ := spellsTwo_iff.1 hlead
    simp only [Prod.mk.injEq, Piece.char.injEq] at h
    obtain ⟨rfl, rfl⟩ := h
    exact ⟨[b₁], rest, rfl, encode_two hb h₁, rfl⟩
  split at h
  · next hlead =>
    obtain ⟨b₁, b₂, rest, rfl, hb, h₁, h₂⟩ := spellsThree_iff.1 hlead
    simp only [Prod.mk.injEq, Piece.char.injEq] at h
    obtain ⟨rfl, rfl⟩ := h
    exact ⟨[b₁, b₂], rest, rfl, encode_three hb h₁ h₂, rfl⟩
  split at h
  · next hlead =>
    obtain ⟨b₁, b₂, b₃, rest, rfl, hb, h₁, h₂, h₃⟩ := spellsFour_iff.1 hlead
    simp only [Prod.mk.injEq, Piece.char.injEq] at h
    obtain ⟨rfl, rfl⟩ := h
    exact ⟨[b₁, b₂, b₃], rest, rfl, encode_four hb h₁ h₂ h₃, rfl⟩
  · cases h

/-! The lead byte tells how long a sequence is. -/

theorem not_ascii {b : UInt8} (h : 0x80 ≤ b.toNat) : ¬ b < 0x80 := by
  rw [UInt8.lt_iff_toNat_lt]
  exact Nat.not_lt.2 h

theorem leading_two {b : UInt8} {bs : List UInt8} (h : spellsTwo b bs = true) :
    leading b bs = (.char (spell (b.toNat - 0xc0) (bs.take 1)), 2) := by
  obtain ⟨_, _, -, hb, -⟩ := spellsTwo_iff.1 h
  rw [leading_eq, if_neg (not_ascii (by omega)), if_pos h]

theorem leading_three {b : UInt8} {bs : List UInt8} (h : spellsThree b bs = true) :
    leading b bs = (.char (spell (b.toNat - 0xe0) (bs.take 2)), 3) := by
  obtain ⟨_, _, _, -, hb, -⟩ := spellsThree_iff.1 h
  rw [leading_eq, if_neg (not_ascii (by omega)), if_neg, if_pos h]
  rw [spellsTwo_iff]
  rintro ⟨_, _, -, hb', -⟩
  omega

theorem leading_four {b : UInt8} {bs : List UInt8} (h : spellsFour b bs = true) :
    leading b bs = (.char (spell (b.toNat - 0xf0) (bs.take 3)), 4) := by
  obtain ⟨_, _, _, _, -, hb, -⟩ := spellsFour_iff.1 h
  rw [leading_eq, if_neg (not_ascii (by omega)), if_neg, if_neg, if_pos h]
  · rw [spellsThree_iff]
    rintro ⟨_, _, _, -, hb', -⟩
    omega
  · rw [spellsTwo_iff]
    rintro ⟨_, _, -, hb', -⟩
    omega

theorem leading_encode {c : Char} {b : UInt8} {more : List UInt8}
    (h : String.utf8EncodeChar c = b :: more) (rest : List UInt8) :
    leading b (more ++ rest) = (.char c, more.length + 1) := by
  have hvalid : c.val.toNat < 0xd800 ∨ 0xdfff < c.val.toNat ∧ c.val.toNat < 0x110000 := c.valid
  have hc : Char.ofNat c.val.toNat = c := Char.ofNat_toNat c
  rw [String.utf8EncodeChar] at h
  generalize c.val.toNat = n at h hvalid hc
  have hbyte {m : Nat} (hm : m < 256) : (UInt8.ofNat m).toNat = m := by
    rw [UInt8.toNat_ofNat', Nat.mod_eq_of_lt hm]
  have htail (m : Nat) : (UInt8.ofNat (m % 64 + 0x80)).toNat = m % 64 + 0x80 := hbyte (by omega)
  have hisTail (m : Nat) : isTail (UInt8.ofNat (m % 64 + 0x80)) = true := by
    rw [isTail_iff, htail]
    omega
  have hspell {high : Nat} {tail : List UInt8}
      (heq : tail.foldl (fun m b => m * 64 + (b.toNat - 0x80)) high = n) : spell high tail = c := by
    rw [spell, heq, hc]
  split at h
  · next hn =>
    obtain ⟨rfl, rfl⟩ := List.cons.inj h
    have hb := hbyte (show n < 256 by omega)
    have hascii : UInt8.ofNat n < 0x80 := by
      rw [UInt8.lt_iff_toNat_lt, hb]
      exact Nat.lt_succ_of_le hn
    rw [leading_eq, if_pos hascii, hb, hc]
    rfl
  split at h
  · obtain ⟨rfl, rfl⟩ := List.cons.inj h
    have hb := hbyte (show n / 64 % 32 + 0xc0 < 256 by omega)
    rw [leading_two, hspell]
    · rfl
    · simp only [List.cons_append, List.take, List.foldl, hb, htail]
      omega
    · exact spellsTwo_iff.2 ⟨_, _, rfl, by omega, hisTail n⟩
  split at h
  · obtain ⟨rfl, rfl⟩ := List.cons.inj h
    have hb := hbyte (show n / 4096 % 16 + 0xe0 < 256 by omega)
    rw [leading_three, hspell]
    · rfl
    · simp only [List.cons_append, List.take, List.foldl, hb, htail]
      omega
    · refine spellsThree_iff.2 ⟨_, _, _, rfl, by omega, isSecond_iff.2 ?_, hisTail n⟩
      rw [hb, htail]
      omega
  · obtain ⟨rfl, rfl⟩ := List.cons.inj h
    have hb := hbyte (show n / 262144 % 8 + 0xf0 < 256 by omega)
    rw [leading_four, hspell]
    · rfl
    · simp only [List.cons_append, List.take, List.foldl, hb, htail]
      omega
    · refine spellsFour_iff.2 ⟨_, _, _, _, rfl, by omega, isSecond_iff.2 ?_, hisTail _, hisTail n⟩
      rw [hb, htail]
      omega

theorem eq_of_leading_stray {b b' : UInt8} {bs : List UInt8} {width : Nat}
    (h : leading b bs = (.stray b', width)) : b' = b ∧ width = 1 := by
  rw [leading_eq] at h
  repeat (split at h; · cases h)
  cases h
  exact ⟨rfl, rfl⟩

theorem leading_stray {b : UInt8} {bs : List UInt8}
    (h : ∀ c, ¬ String.utf8EncodeChar c <+: b :: bs) :
    leading b bs = (.stray b, 1) := by
  rcases hlead : leading b bs with ⟨_ | _, width⟩
  · obtain ⟨more, rest, rfl, hc, -⟩ := encode_of_leading hlead
    exact absurd ⟨rest, by rw [hc]; rfl⟩ (h _)
  · obtain ⟨rfl, rfl⟩ := eq_of_leading_stray hlead
    rfl

/-! ### All bytes -/

theorem piecesFrom_eq_drop (covered : Nat) (bs : List UInt8) :
    piecesFrom covered bs = pieces (bs.drop covered) := by
  induction bs generalizing covered with
  | nil => cases covered <;> rfl
  | cons b bs ih =>
    cases covered with
    | zero => rfl
    | succ covered => exact ih covered

theorem decode_cons {b : UInt8} {bs : List UInt8} {piece : Piece} {width : Nat}
    (h : leading b bs = (piece, width)) :
    decode (b :: bs) = piece.toChar :: decode (bs.drop (width - 1)) := by
  have hpieces : pieces (b :: bs) = piece :: pieces (bs.drop (width - 1)) := by
    rw [← piecesFrom_eq_drop, pieces, piecesFrom, h]
  rw [decode, hpieces, List.map_cons]
  rfl

@[simp] theorem encode_cons (c : Char) (cs : List Char) :
    encode (c :: cs) = String.utf8EncodeChar c ++ encode cs :=
  List.flatMap_cons

@[simp] theorem encode_append (cs ds : List Char) : encode (cs ++ ds) = encode cs ++ encode ds :=
  List.flatMap_append

@[simp] theorem decode_encode_append (c : Char) (bs : List UInt8) :
    decode (String.utf8EncodeChar c ++ bs) = c :: decode bs := by
  obtain ⟨b, more, hc⟩ := List.exists_cons_of_ne_nil (String.utf8EncodeChar_ne_nil (c := c))
  rw [hc, List.cons_append, decode_cons (leading_encode hc bs), Nat.add_sub_cancel, List.drop_left]
  rfl

theorem decode_encode (cs : List Char) : decode (encode cs) = cs := by
  induction cs with
  | nil => rfl
  | cons c cs ih => rw [encode_cons, decode_encode_append, ih]

theorem decode_toByteArray (s : String) : decode s.toByteArray.data.toList = s.toList := by
  rw [← String.utf8Encode_toList, List.utf8Encode, List.data_toByteArray]
  exact decode_encode s.toList

theorem decode_stray {b : UInt8} {bs : List UInt8}
    (h : ∀ c, ¬ String.utf8EncodeChar c <+: b :: bs) :
    decode (b :: bs) = replacement :: decode bs :=
  decode_cons (leading_stray h)

theorem reads_decode (bs : List UInt8) : Reads bs (decode bs) := by
  induction hn : bs.length using Nat.strongRecOn generalizing bs with
  | ind n ih =>
    cases bs with
    | nil => exact .nil
    | cons b bs =>
      rcases hlead : leading b bs with ⟨c | b', width⟩
      · obtain ⟨more, rest, rfl, hc, -⟩ := encode_of_leading hlead
        rw [List.length_cons, List.length_append] at hn
        have hrest := Reads.char (c := c) (ih _ (by omega) rest rfl)
        rwa [← decode_encode_append, hc] at hrest
      · have hstray : ∀ c, ¬ String.utf8EncodeChar c <+: b :: bs := by
          rintro c ⟨rest, heq⟩
          obtain ⟨b₀, more, hc⟩ :=
            List.exists_cons_of_ne_nil (String.utf8EncodeChar_ne_nil (c := c))
          rw [hc] at heq
          obtain ⟨rfl, rfl⟩ := List.cons.inj heq
          cases (leading_encode hc rest).symm.trans hlead
        rw [decode_stray hstray]
        exact .stray hstray (ih _ (by simp [← hn]) bs rfl)

/-- Bytes are read in one way, and that is how they are decoded. -/
theorem reads_iff {bs : List UInt8} {cs : List Char} : Reads bs cs ↔ decode bs = cs := by
  constructor
  · intro h
    induction h with
    | nil => rfl
    | char _ ih => rw [decode_encode_append, ih]
    | stray hstray _ ih => rw [decode_stray hstray, ih]
  · rintro rfl
    exact reads_decode bs

/-! ### Characters of one byte -/

def byteOf (c : Char) : UInt8 := UInt8.ofNat c.toNat

theorem encode_ascii {c : Char} (h : c.toNat < 0x80) : String.utf8EncodeChar c = [byteOf c] := by
  rw [String.utf8EncodeChar]
  exact if_pos (Nat.le_of_lt_succ h)

theorem isTail_of_mem_encode {c : Char} {b : UInt8} {more : List UInt8}
    (h : String.utf8EncodeChar c = b :: more) : ∀ x ∈ more, isTail x = true := by
  have htail (m : Nat) : isTail (UInt8.ofNat (m % 64 + 0x80)) = true := by
    rw [isTail_iff, UInt8.toNat_ofNat']
    omega
  rw [String.utf8EncodeChar] at h
  split at h
  · cases h
    simp
  split at h
  · cases h
    exact List.forall_mem_singleton.2 (htail _)
  split at h
  · cases h
    exact List.forall_mem_cons.2 ⟨htail _, List.forall_mem_singleton.2 (htail _)⟩
  · cases h
    refine List.forall_mem_cons.2 ⟨htail _, ?_⟩
    exact List.forall_mem_cons.2 ⟨htail _, List.forall_mem_singleton.2 (htail _)⟩

theorem high_of_mem_encode {c : Char} {b : UInt8} {more : List UInt8}
    (h : String.utf8EncodeChar c = b :: more) : ∀ x ∈ more, ¬ x < 0x80 :=
  fun x hx => not_ascii (isTail_iff.1 (isTail_of_mem_encode h x hx)).1

theorem eq_of_mem_encode {c : Char} {b : UInt8} (hb : b < 0x80) (h : b ∈ String.utf8EncodeChar c) :
    c = Char.ofNat b.toNat := by
  obtain ⟨first, more, hc⟩ := List.exists_cons_of_ne_nil (String.utf8EncodeChar_ne_nil (c := c))
  rw [hc, List.mem_cons] at h
  rcases h with rfl | h
  · have hone : leading b more = (.char (Char.ofNat b.toNat), 1) := if_pos hb
    have hdecode : decode (b :: more) = [c] := by
      rw [← hc, ← List.append_nil (String.utf8EncodeChar c), decode_encode_append]
      rfl
    rw [decode_cons hone] at hdecode
    exact (List.cons.inj hdecode).1.symm
  · exact absurd hb (high_of_mem_encode hc b h)

theorem exists_of_encode_eq_cons {cs : List Char} {b : UInt8} {bs : List UInt8}
    (h : encode cs = b :: bs) (hb : b < 0x80) :
    ∃ more, cs = Char.ofNat b.toNat :: more ∧ encode more = bs := by
  cases cs with
  | nil => cases h
  | cons c cs =>
    rw [encode_cons] at h
    obtain ⟨first, more, hc⟩ := List.exists_cons_of_ne_nil (String.utf8EncodeChar_ne_nil (c := c))
    rw [hc, List.cons_append] at h
    obtain ⟨rfl, hrest⟩ := List.cons.inj h
    obtain rfl := eq_of_mem_encode hb (by rw [hc]; exact List.mem_cons_self)
    rw [encode_one (UInt8.lt_iff_toNat_lt.1 hb)] at hc
    cases hc
    exact ⟨cs, rfl, hrest⟩

theorem length_decode_tails {tails : List UInt8} (h : ∀ x ∈ tails, isTail x = true)
    (bs : List UInt8) :
    (decode (tails ++ bs)).length = tails.length + (decode bs).length := by
  induction tails with
  | nil => simp
  | cons b tails ih =>
    obtain ⟨hb, htails⟩ := List.forall_mem_cons.1 h
    have hrange := isTail_iff.1 hb
    have hstray : leading b (tails ++ bs) = (.stray b, 1) := by
      rw [leading_eq, if_neg (not_ascii hrange.1), if_neg, if_neg, if_neg]
      · rw [spellsFour_iff]
        rintro ⟨_, _, _, _, -, hlead, -⟩
        omega
      · rw [spellsThree_iff]
        rintro ⟨_, _, _, -, hlead, -⟩
        omega
      · rw [spellsTwo_iff]
        rintro ⟨_, _, -, hlead, -⟩
        omega
    rw [List.cons_append, decode_cons hstray, List.length_cons, List.length_cons]
    have hrest := ih htails
    rw [Nat.sub_self, List.drop_zero]
    omega

theorem length_decode_cons_le (b : UInt8) (bs : List UInt8) :
    (decode (b :: bs)).length ≤ (decode bs).length + 1 := by
  rcases hlead : leading b bs with ⟨c | b', width⟩
  · obtain ⟨more, rest, rfl, hc, rfl⟩ := encode_of_leading hlead
    have htails := length_decode_tails (isTail_of_mem_encode hc) rest
    rw [decode_cons hlead, List.length_cons, Nat.add_sub_cancel, List.drop_left]
    omega
  · obtain ⟨-, rfl⟩ := eq_of_leading_stray hlead
    exact Nat.le_of_eq (congrArg List.length (decode_cons hlead))

namespace Reads

variable {bs bs' : List UInt8} {cs cs' : List Char}

/-- What follows does not change how bytes are read, if it starts with a character of one byte. -/
theorem append (h : Reads bs cs) {a : UInt8} (ha : a < 0x80) (h' : Reads (a :: bs') cs') :
    Reads (bs ++ a :: bs') (cs ++ cs') := by
  induction h with
  | nil => exact h'
  | @char c bs cs _ ih =>
    rw [List.append_assoc, List.cons_append]
    exact .char ih
  | @stray b bs cs hstray _ ih =>
    refine .stray (fun c (hc : _ <+: (b :: bs) ++ a :: bs') => ?_) ih
    rcases List.prefix_or_prefix_of_prefix hc (List.prefix_append (b :: bs) (a :: bs')) with
      hshort | ⟨t, ht⟩
    · exact hstray c hshort
    · cases t with
      | nil => exact hstray c ⟨[], by rw [← ht, List.append_nil, List.append_nil]⟩
      | cons x t =>
        rw [← ht, List.prefix_append_right_inj, List.cons_prefix_cons] at hc
        obtain ⟨rfl, -⟩ := hc
        exact high_of_mem_encode ht.symm x (by simp) ha

theorem exists_append {c : Char} (h : Reads bs (c :: cs)) : ∃ front rest, bs = front ++ rest ∧
    Reads rest cs ∧ (c.toNat < 0x80 → front = [byteOf c]) := by
  generalize hall : c :: cs = all at h
  cases h with
  | nil => cases hall
  | char hrest =>
    cases hall
    exact ⟨_, _, rfl, hrest, encode_ascii⟩
  | @stray b bs _ _ hrest =>
    cases hall
    exact ⟨[b], bs, rfl, hrest, fun hc => absurd hc (by decide)⟩

/-- The first character of some bytes. It stays the first one if bytes are cut off behind those that
it takes. -/
theorem exists_leading? {c : Char} (h : Reads bs (c :: cs)) : ∃ piece more, bs = piece ++ more ∧
    leading? bs = some (c, piece.length) ∧ Reads more cs ∧
      ∀ {us ds}, us <+: more → Reads us ds → Reads (piece ++ us) (c :: ds) := by
  generalize hall : c :: cs = all at h
  cases h with
  | nil => cases hall
  | @char _ more _ hmore =>
    cases hall
    refine ⟨_, more, rfl, ?_, hmore, fun _ => .char⟩
    obtain ⟨b, tail, hc⟩ := List.exists_cons_of_ne_nil (String.utf8EncodeChar_ne_nil (c := c))
    rw [hc, List.cons_append, leading?, leading_encode hc more]
    rfl
  | @stray b more _ hstray hmore =>
    cases hall
    refine ⟨[b], more, rfl, ?_, hmore, fun hus => .stray fun c hc => hstray c ?_⟩
    · rw [leading?, leading_stray hstray]
      rfl
    · exact hc.trans ((List.prefix_cons_inj b).2 hus)

/-- ASCII characters stand for their bytes, wherever they stand. -/
theorem infix_of_ascii {mid : List Char} (h : Reads bs cs) (hmid : ∀ c ∈ mid, c.toNat < 0x80)
    (hin : mid <:+: cs) : mid.map byteOf <:+: bs := by
  obtain ⟨before, after, rfl⟩ := hin
  rw [List.append_assoc] at h
  induction before generalizing bs with
  | nil =>
    rw [List.nil_append] at h
    refine List.IsPrefix.isInfix ?_
    induction mid generalizing bs with
    | nil => exact List.nil_prefix
    | cons c mid ih =>
      obtain ⟨hc, hmid⟩ := List.forall_mem_cons.1 hmid
      obtain ⟨_, rest, rfl, hrest, hfront⟩ := exists_append h
      rw [hfront hc, List.map_cons]
      exact (List.prefix_cons_inj _).2 (ih hmid hrest)
  | cons c before ih =>
    obtain ⟨front, rest, rfl, hrest, -⟩ := exists_append h
    exact (ih hrest).trans (List.suffix_append front rest).isInfix

theorem mem_of_ascii (h : Reads bs cs) {c : Char} (hc : c.toNat < 0x80) (hmem : c ∈ cs) :
    byteOf c ∈ bs := by
  obtain ⟨before, after, rfl⟩ := List.append_of_mem hmem
  have hin : [c].map byteOf <:+: bs := by
    refine h.infix_of_ascii (List.forall_mem_singleton.2 hc) ⟨before, after, ?_⟩
    rw [List.append_assoc, List.singleton_append]
  exact hin.subset List.mem_cons_self

@[simp] theorem encode_append (h : Reads bs cs) (ds : List Char) :
    Reads (encode ds ++ bs) (ds ++ cs) := by
  induction ds with
  | nil => exact h
  | cons d ds ih =>
    rw [encode_cons, List.append_assoc, List.cons_append]
    exact .char ih

/-- Only a replacement character may stand for other bytes than its own. -/
theorem encode_eq (h : Reads bs cs) (hcs : replacement ∉ cs) : encode cs = bs := by
  induction h with
  | nil => rfl
  | char _ ih => rw [encode_cons, ih (List.not_mem_of_not_mem_cons hcs)]
  | stray _ _ _ => exact absurd List.mem_cons_self hcs

end Reads

end LayoutScript.Text.Utf8

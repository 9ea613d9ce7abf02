import Mathlib.Data.Option.Basic
import LayoutScript.Manifest
import LayoutScript.Proofs.Spelling
import LayoutScript.Proofs.StringLiterals

/-! The manifest of a new project, read back. A string is written on one line whatever it holds,
since what would end it or stand nowhere in a text is escaped; so a text of keys and strings has
these and no other entries. -/
namespace LayoutScript

namespace Toml

/-! ### Strings -/

def isPrinted (c : Char) : Bool := 0x20 ≤ c.toNat && c.toNat != 0x7f

theorem isPrinted_of_isHexDigit {c : Char} (h : Text.isHexDigit c = true) : isPrinted c = true := by
  have hbounds : 0x30 ≤ c.toNat ∧ c.toNat ≤ 0x66 := by
    simp only [Text.isHexDigit, Bool.or_eq_true, Bool.and_eq_true, isDigit_iff, decide_eq_true_eq,
      Char.le_def, UInt32.le_iff_toNat_le] at h
    rcases h with (h | h) | h
    · omega
    · exact ⟨Nat.le_trans (by decide) h.1, h.2⟩
    · exact ⟨Nat.le_trans (by decide) h.1, Nat.le_trans h.2 (by decide)⟩
  simp only [isPrinted, Bool.and_eq_true, decide_eq_true_eq, bne_iff_ne]
  omega

theorem spelled?_hex {c : Char} (h : c.toNat < 0x10000) (rest : List Char) :
    spelled? 4 (Text.hex 4 c.toNat ++ rest) = some c := by
  have hlength := Text.length_hex 4 c.toNat
  have hall : (Text.hex 4 c.toNat).all Text.isHexDigit = true :=
    List.all_eq_true.2 fun _ hd => Text.isHexDigit_of_mem_hex hd
  have hnumber : Text.hexNumber (Text.hex 4 c.toNat) = c.toNat := Text.hexNumber_hex (by omega)
  have hvalid : c.toNat.isValidChar := c.valid
  simp only [spelled?, List.take_left' hlength, hlength, hall, hnumber, hvalid, true_and, if_true,
    Char.ofNat_toNat]

def escapeLetters : List (Char × Char) :=
  [('"', '"'), ('\\', '\\'), ('\x08', 'b'), ('\t', 't'), ('\n', 'n'), ('\x0c', 'f'), ('\r', 'r')]

theorem escapeLetters_facts :
    ∀ e ∈ escapeLetters, writeEscape e.1 = ['\\', e.2] ∧ isPrinted e.2 = true ∧
      e.2 ≠ 'u' ∧ e.2 ≠ 'U' ∧ letterEscape? e.2 = some e.1 := by decide

/-- A character is written as an escape that is read as it, or stands for itself. -/
theorem writeEscape_cases (c : Char) :
    (∃ escape, writeEscape c = '\\' :: escape ∧ (∀ d ∈ escape, isPrinted d = true) ∧
      ∀ rest, escape? (escape ++ rest) = some (c, escape.length)) ∨
    (writeEscape c = [c] ∧ isPrinted c = true ∧ c ≠ '"' ∧ c ≠ '\\') := by
  by_cases hletter : c ∈ escapeLetters.map Prod.fst
  · obtain ⟨e, he, rfl⟩ := List.mem_map.1 hletter
    obtain ⟨hwrite, hprinted, hshort, hlong, hread⟩ := escapeLetters_facts e he
    refine .inl ⟨[e.2], hwrite, List.forall_mem_singleton.2 hprinted, fun rest => ?_⟩
    rw [List.singleton_append, escape?, if_neg hshort, if_neg hlong, hread]
    rfl
  · have hne : c ≠ '"' ∧ c ≠ '\\' ∧ c ≠ '\x08' ∧ c ≠ '\t' ∧ c ≠ '\n' ∧ c ≠ '\x0c' ∧ c ≠ '\r' := by
      simpa [escapeLetters] using hletter
    obtain ⟨hquote, hslash, hb, ht, hn, hf, hr⟩ := hne
    simp only [writeEscape, hquote, hslash, hb, ht, hn, hf, hr, decide_false, Bool.or_self,
      Bool.false_eq_true, if_false]
    split
    · next hcontrol =>
      rw [Bool.or_eq_true, decide_eq_true_eq, decide_eq_true_eq] at hcontrol
      refine .inl ⟨_, rfl, List.forall_mem_cons.2 ⟨rfl, fun d hd => ?_⟩, fun rest => ?_⟩
      · exact isPrinted_of_isHexDigit (Text.isHexDigit_of_mem_hex hd)
      · rw [List.cons_append, escape?, if_pos rfl, spelled?_hex (by omega), List.length_cons,
          Text.length_hex]
        rfl
    · next hplain =>
      refine .inr ⟨rfl, ?_, hquote, hslash⟩
      simp only [isPrinted, Bool.and_eq_true, decide_eq_true_eq, bne_iff_ne]
      simp only [Bool.or_eq_true, decide_eq_true_eq, not_or] at hplain
      omega

theorem isPrinted_of_mem_writeEscape {c d : Char} (h : d ∈ writeEscape c) : isPrinted d = true := by
  rcases writeEscape_cases c with ⟨escape, hwrite, hprinted, -⟩ | ⟨hwrite, hprinted, -⟩
  · rw [hwrite] at h
    rcases List.mem_cons.1 h with rfl | h
    · rfl
    · exact hprinted d h
  · rw [hwrite, List.mem_singleton] at h
    rwa [h]

theorem basicFrom_covered (cs rest : List Char) :
    basicFrom cs.length (cs ++ rest) = basicFrom 0 rest := by
  induction cs with
  | nil => rfl
  | cons c cs ih => exact ih

theorem basicFrom_write (cs rest : List Char) :
    basicFrom 0 (cs.flatMap writeEscape ++ '"' :: rest) = some (cs, rest) := by
  induction cs with
  | nil => rfl
  | cons c cs ih =>
    rw [List.flatMap_cons, List.append_assoc]
    rcases writeEscape_cases c with ⟨escape, hwrite, -, hread⟩ | ⟨hwrite, hprinted, hquote, hslash⟩
    · rw [hwrite, List.cons_append, basicFrom, if_neg (by decide), if_neg (by decide),
        if_pos rfl, hread]
      simp only [basicFrom_covered, ih]
      rfl
    · have hend : isLineEnd c = false := by
        rw [isLineEnd, Bool.or_eq_false_iff, beq_eq_false_iff_ne, beq_eq_false_iff_ne]
        constructor <;> rintro rfl <;> cases hprinted
      rw [hwrite, List.singleton_append, basicFrom, if_neg hquote, hend, if_neg Bool.false_ne_true,
        if_neg hslash, ih]
      rfl

theorem string?_write (cs : List Char) {rest : List Char} (hrest : rest.head? ≠ some '"') :
    string? (write cs ++ rest) = some (cs, rest) := by
  have hread := basicFrom_write cs rest
  have hwrite : write cs ++ rest = '"' :: (cs.flatMap writeEscape ++ '"' :: rest) := by simp [write]
  rw [hwrite]
  unfold string?
  split
  · next more heq =>
    -- Three quotes at the front would be the two of an empty string and one after it.
    obtain ⟨-, heq⟩ := List.cons.inj heq
    cases cs with
    | nil =>
      obtain ⟨-, hmore⟩ := List.cons.inj heq
      rw [hmore] at hrest
      exact absurd rfl hrest
    | cons c cs =>
      rw [List.flatMap_cons, List.append_assoc] at heq
      rcases writeEscape_cases c with ⟨escape, hescape, -⟩ | ⟨hescape, -, hquote, -⟩
      · rw [hescape] at heq
        cases heq
      · rw [hescape] at heq
        exact absurd (List.cons.inj heq).1 hquote
  · next heq => cases heq
  · exact hread

/-! ### Entries -/

theorem ne_of_isBare {c d : Char} (hc : isBare c = true) (hd : isBare d = false) : c ≠ d := by
  rintro rfl
  rw [hc] at hd
  cases hd

theorem isPrinted_of_isBare {c : Char} (h : isBare c = true) : isPrinted c = true := by
  have hbounds : 0x2d ≤ c.toNat ∧ c.toNat ≤ 0x7a := by
    delta isBare Char.isAlphanum Char.isAlpha Char.isUpper Char.isLower Char.isDigit at h
    simp only [Bool.or_eq_true, Bool.and_eq_true, decide_eq_true_eq, beq_iff_eq, ge_iff_le,
      UInt32.le_iff_toNat_le] at h
    rcases h with (((h | h) | h) | rfl) | rfl
    · exact ⟨Nat.le_trans (by decide) h.1, Nat.le_trans h.2 (by decide)⟩
    · exact ⟨Nat.le_trans (by decide) h.1, Nat.le_trans h.2 (by decide)⟩
    · exact ⟨Nat.le_trans (by decide) h.1, Nat.le_trans h.2 (by decide)⟩
    · decide
    · decide
  simp only [isPrinted, Bool.and_eq_true, decide_eq_true_eq, bne_iff_ne]
  omega

/-- A key that needs no quotes. -/
structure IsBareKey (key : String) : Prop where
  ne_nil : key.toList ≠ []
  bare : ∀ c ∈ key.toList, isBare c = true

theorem IsBareKey.exists_cons {key : String} (h : IsBareKey key) :
    ∃ c cs, key.toList = c :: cs ∧ isBare c = true := by
  obtain ⟨c, cs, hcs⟩ := List.exists_cons_of_ne_nil h.ne_nil
  exact ⟨c, cs, hcs, h.bare c (by rw [hcs]; exact List.mem_cons_self)⟩

theorem name?_bare {key : String} (h : IsBareKey key) {rest : List Char}
    (hrest : ∀ c ∈ rest.head?, isBare c = false) :
    name? (key.toList ++ rest) = some (key, rest) := by
  obtain ⟨c, cs, hcs, hc⟩ := h.exists_cons
  have hstring : lineString? (key.toList ++ rest) = none := by
    rw [hcs, List.cons_append]
    unfold lineString?
    split
    · next heq => exact absurd (List.cons.inj heq).1 (ne_of_isBare hc rfl)
    · next heq => exact absurd (List.cons.inj heq).1 (ne_of_isBare hc rfl)
    · rfl
  simp only [name?, hstring, takeWhile_append_of_head h.bare hrest,
    dropWhile_append_of_head h.bare hrest, String.ofList_toList]
  rw [if_neg (by simp [hcs])]

theorem key?_bare {key : String} (h : IsBareKey key) (rest : List Char) :
    key? (key.toList ++ ' ' :: '=' :: rest) = some (⟨[], key⟩, '=' :: rest) := by
  obtain ⟨c, cs, hcs, hc⟩ := h.exists_cons
  have hname : name? (key.toList ++ ' ' :: '=' :: rest) = some (key, ' ' :: '=' :: rest) :=
    name?_bare h fun d hd => by cases hd; rfl
  have hspace : isSpace c = false := by
    simp [isSpace, ne_of_isBare hc (rfl : isBare ' ' = false),
      ne_of_isBare hc (rfl : isBare '\t' = false)]
  have hskip : skipSpaces (key.toList ++ ' ' :: '=' :: rest) =
      key.toList ++ ' ' :: '=' :: rest := by
    rw [hcs, List.cons_append, skipSpaces, List.dropWhile_cons_of_neg (by simp [hspace])]
  have hlength : (key.toList ++ ' ' :: '=' :: rest).length =
      (cs ++ ' ' :: '=' :: rest).length + 1 := by
    rw [hcs]
    rfl
  rw [key?, hlength, keyWithin, hskip, hname]
  rfl

def pairLine (key value : String) : List Char :=
  key.toList ++ " = ".toList ++ write value.toList ++ ['\n']

theorem item?_pairLine {key : String} (h : IsBareKey key) (value : String) (rest : List Char) :
    item? (pairLine key value ++ rest) = some (.pair ⟨[], key⟩ (.string value), '\n' :: rest) := by
  have hline : pairLine key value ++ rest =
      key.toList ++ ' ' :: '=' :: ' ' :: (write value.toList ++ '\n' :: rest) := by
    simp [pairLine]
  have hstring : string? (write value.toList ++ '\n' :: rest) = some (value.toList, '\n' :: rest) :=
    string?_write _ (by simp)
  have hvalue : value? (write value.toList ++ '\n' :: rest) =
      some (.string value, '\n' :: rest) := by
    have hscalar : scalar? (write value.toList ++ '\n' :: rest) =
        some (.string value, '\n' :: rest) := by
      rw [scalar?, hstring]
      simp
    rw [← hscalar, write, value?]
    rfl
  obtain ⟨c, cs, hcs, hc⟩ := h.exists_cons
  have hkey := key?_bare h (' ' :: (write value.toList ++ '\n' :: rest))
  rw [hline]
  unfold item?
  split
  · next heq =>
    rw [hcs] at heq
    exact absurd (List.cons.inj heq).1 (ne_of_isBare hc rfl)
  · next heq =>
    rw [hcs] at heq
    exact absurd (List.cons.inj heq).1 (ne_of_isBare hc rfl)
  · have hskip : skipSpaces (' ' :: (write value.toList ++ '\n' :: rest)) =
        write value.toList ++ '\n' :: rest := rfl
    simp only [hkey, expect?, Option.bind_eq_bind, Option.bind_some, if_true, hskip, hvalue,
      Option.pure_def]

/-! ### Texts of keys and strings -/

def pairLines (pairs : List (String × String)) : List Char :=
  pairs.flatMap fun p => pairLine p.1 p.2

def pairItem (p : String × String) : Item := .pair ⟨[], p.1⟩ (.string p.2)

variable {pairs : List (String × String)}

theorem skipLines_pairLine {key : String} (h : IsBareKey key) (value : String) (rest : List Char) :
    skipLines (pairLine key value ++ rest) = pairLine key value ++ rest := by
  obtain ⟨c, cs, hcs, hc⟩ := h.exists_cons
  have hne {d : Char} (hd : isBare d = false) : c ≠ d := ne_of_isBare hc hd
  have hskipped : (isSpace c || isLineEnd c) = false := by
    simp [isSpace, isLineEnd, hne (d := ' ') rfl, hne (d := '\t') rfl, hne (d := '\n') rfl,
      hne (d := '\r') rfl]
  rw [pairLine, hcs]
  simp only [List.cons_append, skipLines, skipFrom, hskipped, hne (d := '#') rfl,
    Bool.false_eq_true, if_false]

theorem entriesWithin_feed (fuel : Nat) (cs : List Char) :
    entriesWithin fuel ('\n' :: cs) = entriesWithin fuel cs := by
  cases fuel with
  | zero => rfl
  | succ fuel => rfl

theorem entriesWithin_item {fuel : Nat} {cs rest : List Char} {item : Item}
    (hskip : skipLines cs = cs) (hitem : item? cs = some (item, rest))
    (hend : endsLine rest = true) :
    entriesWithin (fuel + 1) cs = (entriesWithin fuel rest).map (item :: ·) := by
  cases cs with
  | nil => cases hitem
  | cons c cs =>
    have hguard : (guard (endsLine rest = true) : Option Unit) = some () := if_pos hend
    rw [entriesWithin, hskip]
    change (item? (c :: cs)).bind _ = _
    rw [hitem]
    change (guard (endsLine rest = true) : Option Unit).bind _ = _
    rw [hguard]
    cases entriesWithin fuel rest <;> rfl

theorem entriesWithin_pairLines (h : ∀ p ∈ pairs, IsBareKey p.1) {fuel : Nat}
    (hfuel : pairs.length < fuel) :
    entriesWithin fuel (pairLines pairs) = some (pairs.map pairItem) := by
  induction pairs generalizing fuel with
  | nil =>
    obtain ⟨fuel, rfl⟩ := Nat.exists_eq_add_one.2 hfuel
    rfl
  | cons p pairs ih =>
    obtain ⟨hp, hpairs⟩ := List.forall_mem_cons.1 h
    obtain ⟨fuel, rfl⟩ := Nat.exists_eq_add_one.2 (Nat.zero_lt_of_lt hfuel)
    have hitem := item?_pairLine hp p.2 (pairLines pairs)
    rw [pairLines, List.flatMap_cons, ← pairLines,
      entriesWithin_item (skipLines_pairLine hp _ _) hitem rfl, entriesWithin_feed,
      ih hpairs (Nat.lt_of_succ_lt_succ hfuel)]
    rfl

theorem hasControl_eq_false {cs : List Char} (h : ∀ c ∈ cs, isPrinted c = true ∨ c = '\n') :
    hasControl cs = false := by
  induction cs with
  | nil => rfl
  | cons c cs ih =>
    obtain ⟨hc, hcs⟩ := List.forall_mem_cons.1 h
    rw [hasControl, ih hcs, Bool.or_false]
    rcases hc with hc | rfl
    · simp only [isPrinted, Bool.and_eq_true, decide_eq_true_eq, bne_iff_ne] at hc
      simp [hc.2, Nat.not_lt.2 hc.1]
    · simp

theorem hasControl_pairLines (h : ∀ p ∈ pairs, IsBareKey p.1) :
    hasControl (pairLines pairs) = false := by
  apply hasControl_eq_false
  intro c hc
  obtain ⟨p, hp, hc⟩ := List.mem_flatMap.1 hc
  have hline : pairLine p.1 p.2 =
      p.1.toList ++ [' ', '=', ' ', '"'] ++ p.2.toList.flatMap writeEscape ++ ['"', '\n'] := by
    simp [pairLine, write]
  have hsigns : ∀ c ∈ [' ', '=', ' ', '"'] ++ ['"', '\n'], isPrinted c = true ∨ c = '\n' := by
    have hall : ([' ', '=', ' ', '"', '"', '\n'].all fun c => isPrinted c || c == '\n') = true := by
      decide
    intro c hc
    simpa using List.all_eq_true.1 hall c hc
  rw [hline, List.mem_append, List.mem_append, List.mem_append] at hc
  rcases hc with ((hc | hc) | hc) | hc
  · exact .inl (isPrinted_of_isBare ((h p hp).bare c hc))
  · exact hsigns c (List.mem_append_left _ hc)
  · obtain ⟨d, -, hd⟩ := List.mem_flatMap.1 hc
    exact .inl (isPrinted_of_mem_writeEscape hd)
  · exact hsigns c (List.mem_append_right _ hc)

theorem head?_pairLines (h : ∀ p ∈ pairs, IsBareKey p.1) :
    ∀ c ∈ (pairLines pairs).head?, isBare c = true := by
  cases pairs with
  | nil => exact fun c hc => by cases hc
  | cons p pairs =>
    obtain ⟨c, cs, hcs, hc⟩ := (h p List.mem_cons_self).exists_cons
    intro d hd
    rw [pairLines, List.flatMap_cons, pairLine, hcs] at hd
    cases hd
    exact hc

theorem length_pairLines (pairs : List (String × String)) :
    pairs.length ≤ (pairLines pairs).length := by
  induction pairs with
  | nil => exact Nat.le_refl 0
  | cons p pairs ih =>
    have hline : 1 ≤ (pairLine p.1 p.2).length := by
      rw [pairLine, List.length_append]
      exact Nat.le_add_left 1 _
    rw [pairLines] at ih
    rw [pairLines, List.flatMap_cons, List.length_append, List.length_cons]
    omega

theorem items?_pairLines (h : ∀ p ∈ pairs, IsBareKey p.1) :
    items? (pairLines pairs) = some (pairs.map pairItem) := by
  have hmark : (pairLines pairs).head? ≠ some '\ufeff' := fun hhead =>
    ne_of_isBare (head?_pairLines h _ hhead) (rfl : isBare '\ufeff' = false) rfl
  simp only [items?, if_neg hmark, hasControl_pairLines h, Bool.false_eq_true, if_false]
  exact entriesWithin_pairLines h (Nat.lt_succ_of_le (length_pairLines pairs))

/-! ### Tables of strings -/

def stringEntry (p : String × String) : String × Value := (p.1, .string p.2)

theorem Document.add_pairItem {root : Table} {p : String × String} (h : p.1 ∉ root.map Prod.fst) :
    Document.add [] ⟨root, [], []⟩ (pairItem p) = some ([], ⟨root ++ [stringEntry p], [], []⟩) := by
  have hlookup : root.lookup p.1 = none := by
    rw [List.lookup_eq_none_iff]
    intro e he
    rw [bne_iff_ne]
    rintro heq
    exact h (heq ▸ List.mem_map_of_mem he)
  have hany : root.any (·.1 == p.1) = false := by
    rw [List.any_eq_false]
    intro e he heq
    exact h ((beq_iff_eq.1 heq) ▸ List.mem_map_of_mem he)
  simp [add, pairItem, evalPairs, openParents, eval, put, Table.find?, Table.modify, Table.set,
    Table.insert?, note, hlookup, hany, stringEntry, Literal.isArray]

theorem Document.addAll_pairItems {root : Table}
    (h : (root.map Prod.fst ++ pairs.map Prod.fst).Nodup) :
    Document.addAll [] ⟨root, [], []⟩ (pairs.map pairItem) =
      some ⟨root ++ pairs.map stringEntry, [], []⟩ := by
  induction pairs generalizing root with
  | nil => rw [List.map_nil, List.map_nil, List.append_nil, addAll]
  | cons p pairs ih =>
    have hnew : p.1 ∉ root.map Prod.fst := fun hmem =>
      (List.nodup_append.1 h).2.2 _ hmem _ List.mem_cons_self rfl
    have hrest := @ih (root ++ [stringEntry p]) (by simpa [stringEntry] using h)
    rw [List.map_cons, addAll, add_pairItem hnew]
    simpa using hrest

theorem table?_pairLines (h : ∀ p ∈ pairs, IsBareKey p.1) (hkeys : (pairs.map Prod.fst).Nodup) :
    table? (pairLines pairs) = some (pairs.map stringEntry) := by
  have hall := @Document.addAll_pairItems pairs [] (by simpa using hkeys)
  simp only [table?, items?_pairLines h, Document.empty, Option.bind_eq_bind, Option.bind_some,
    hall, List.nil_append, Option.pure_def]

end Toml

namespace Manifest

def newEntries (name : String) : List (String × String) := [("name", name), ("version", "0.1.0")]

theorem newText_eq (name : String) : newText name = Toml.pairLines (newEntries name) := by
  have hname : "name = ".toList = "name".toList ++ " = ".toList := by decide +kernel
  have hversion : "version = ".toList = "version".toList ++ " = ".toList := by decide +kernel
  unfold newText
  rw [newEntries, Toml.pairLines, List.flatMap_cons, List.flatMap_cons, List.flatMap_nil,
    Toml.pairLine, Toml.pairLine, hname, hversion]
  generalize " = ".toList = sign
  simp only [List.append_assoc, List.append_nil, List.cons_append, List.nil_append]

theorem ofTable_newEntries (name : String) :
    ofTable ((newEntries name).map Toml.stringEntry) = .ok ⟨name, "0.1.0", "", "", none⟩ := by
  have hsame : ∀ field ∈ ["name", "version", "src", "out", "banner"], ∀ key ∈ ["name", "version"],
      sameName field key = (field == key) := by decide +kernel
  simp [ofTable, field?, newEntries, Toml.stringEntry, hsame, string?, bind, Except.bind]
  rfl

theorem ofText_newText (name : String) :
    ofText (newText name) = if name = "" then .error (.invalid [.name])
      else .ok ⟨name, "0.1.0", "src", "out", none⟩ := by
  have hkeys : ∀ p ∈ newEntries name, Toml.IsBareKey p.1 := by
    have hkey {key : String} (h : (key.toList.all Toml.isBare && !key.toList.isEmpty) = true) :
        Toml.IsBareKey key := by
      rw [Bool.and_eq_true, List.all_eq_true, Bool.not_eq_true'] at h
      exact ⟨fun hnil => by simp [hnil] at h, h.1⟩
    simp only [newEntries, List.forall_mem_cons]
    exact ⟨hkey (by decide +kernel), hkey (by decide +kernel), by simp⟩
  have htable := Toml.table?_pairLines hkeys (show ["name", "version"].Nodup by decide)
  rw [ofText, newText_eq, htable]
  simp only [ofTable_newEntries]
  by_cases hname : name = ""
  · subst hname
    rw [if_pos rfl]
    rfl
  · have hproblems : problems ⟨name, "0.1.0", "", "", none⟩ = [] := by
      simp [problems, hname, hasWildcard]
    simp only [hproblems, bind, Except.bind]
    rw [if_neg hname]
    rfl

/-- The manifest of a new project is read back, whatever its name holds: it has that name, the first
version, the usual directories and no word about the banner, which is emitted. Only the empty name
is refused. -/
theorem new_manifest_loads (name : String) :
    (name ≠ "" → ∃ m, ofText (newText name) = .ok m ∧ m.name = name ∧ m.version = "0.1.0" ∧
      m.src = "src" ∧
      m.out = "out" ∧ m.banner = none ∧ m.emitsBanner = true) ∧
    (name = "" → ofText (newText name) = .error (.invalid [.name])) := by
  rw [ofText_newText]
  refine ⟨fun hname => ?_, fun hname => if_pos hname⟩
  rw [if_neg hname]
  exact ⟨_, rfl, rfl, rfl, rfl, rfl, rfl, rfl⟩

/-- Quotes, a backslash, control characters with and without a letter, and characters that are not
ASCII. -/
def hardName : String := "\"\"\"\\n\n\x00\x0c\x7f\u0085é😀"

theorem new_manifest_loads_hardName :
    newText hardName = ("name = \"\\\"\\\"\\\"\\\\n\\n\\u0000\\f\\u007f\u0085é😀\"\n" ++
      "version = \"0.1.0\"\n").toList ∧ hardName ≠ "" ∧
    ∃ m, ofText (newText hardName) = .ok m ∧ m.name = hardName ∧ m.version = "0.1.0" ∧
      m.src = "src" ∧
      m.out = "out" ∧ m.banner = none ∧ m.emitsBanner = true :=
  ⟨by decide +kernel, by decide, (new_manifest_loads hardName).1 (by decide)⟩

end Manifest

end LayoutScript

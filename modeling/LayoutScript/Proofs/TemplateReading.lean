import LayoutScript.Proofs.TemplateParts

/-! Reading template literals back. A literal that was emitted for a template reads as the
characters and the slots of the template, and no piece of text can open or close anything. -/
namespace LayoutScript.Script.Template

/-- What a template literal is made of: literal characters and slots with code. -/
inductive Piece where
  | char (c : Char)
  | slot (code : List Char)
  deriving DecidableEq, Repr

mutual

/-- Reads a literal up to the mark that ends it. A backslash makes the next character literal, and a
dollar sign with a brace opens a slot. -/
def readText : List Char → Option (List Piece × List Char)
  | [] => none
  | '\x60' :: cs => some ([], cs)
  | '\\' :: c :: cs => (readText cs).map fun r => (.char c :: r.1, r.2)
  | '$' :: '{' :: cs => (readSlot cs 0).map fun r => (.slot r.1 :: r.2.1, r.2.2)
  | c :: cs => (readText cs).map fun r => (.char c :: r.1, r.2)

/-- Reads code up to the brace that ends it, with `depth` braces open inside, and the literal from
there. -/
def readSlot : List Char → Nat → Option (List Char × List Piece × List Char)
  | [], _ => none
  | '{' :: cs, depth => (readSlot cs (depth + 1)).map fun r => ('{' :: r.1, r.2)
  | '}' :: cs, 0 => (readText cs).map fun r => ([], r)
  | '}' :: cs, depth + 1 => (readSlot cs depth).map fun r => ('}' :: r.1, r.2)
  | c :: cs, depth => (readSlot cs depth).map fun r => (c :: r.1, r.2)

end

def read : List Char → Option (List Piece × List Char)
  | '\x60' :: cs => readText cs
  | _ => none

theorem readText_char {c : Char} {cs : List Char} (hmark : c ≠ '\x60') (hslash : c ≠ '\\')
    (hopen : c = '$' → ∀ d ∈ cs.head?, d ≠ '{') :
    readText (c :: cs) = (readText cs).map fun r => (.char c :: r.1, r.2) := by
  rw [readText]
  · exact hmark
  · exact fun _ _ h => absurd h hslash
  · rintro ds rfl rfl
    exact hopen rfl '{' rfl rfl

theorem readSlot_char {c : Char} (ho : c ≠ '{') (hc : c ≠ '}') (cs : List Char) (depth : Nat) :
    readSlot (c :: cs) depth = (readSlot cs depth).map fun r => (c :: r.1, r.2) := by
  cases depth <;> simp [readSlot, hc]

theorem readSlot_append {depth : Nat} {code : List Char} (h : nesting depth code = some 0)
    (cs : List Char) :
    readSlot (code ++ '}' :: cs) depth = (readText cs).map fun r => (code, r) := by
  fun_induction nesting depth code with
  | case1 depth =>
    cases h
    rw [List.nil_append, readSlot]
  | case2 depth ds ih =>
    rw [List.cons_append, readSlot, ih h, Option.map_map]
    rfl
  | case3 ds => cases h
  | case4 depth ds ih =>
    rw [List.cons_append, readSlot, ih h, Option.map_map]
    rfl
  | case5 depth c ds ho hz hs ih =>
    have hc : c ≠ '}' := ne_close_of_cases hz hs
    rw [List.cons_append, readSlot_char ho hc, ih h, Option.map_map]
    rfl

theorem readText_slot {code : List Char} (h : Balanced code) (cs : List Char) :
    readText ('$' :: '{' :: code ++ '}' :: cs) =
      (readText cs).map fun r => (.slot code :: r.1, r.2) := by
  rw [List.cons_append, List.cons_append, readText, readSlot_append (h.nesting_eq 0),
    Option.map_map]
  rfl

/-! ### Escaped text -/

theorem head?_escapeText {cs rest : List Char} (hcs : ∀ d ∈ cs.head?, d ≠ '{')
    (hrest : cs = [] → ∀ d ∈ rest.head?, d ≠ '{') :
    ∀ d ∈ (escapeText cs ++ rest).head?, d ≠ '{' := by
  fun_cases escapeText cs with
  | case1 ds => simp
  | case2 c ds _ _ => simp
  | case3 c ds _ _ => exact hcs
  | case4 => exact hrest rfl

/-- Text can stand in front of something unless the two meet as an opening. -/
def Apart (cs rest : List Char) : Prop :=
  cs.getLast? = some '$' → ∀ d ∈ rest.head?, d ≠ '{'

theorem Apart.tail {c : Char} {cs rest : List Char} (h : Apart (c :: cs) rest) : Apart cs rest := by
  intro hlast
  apply h
  rw [List.getLast?_cons, hlast]
  rfl

theorem readText_escapeText {cs rest : List Char} (h : Apart cs rest) :
    readText (escapeText cs ++ rest) =
      (readText rest).map fun r => (cs.map .char ++ r.1, r.2) := by
  fun_induction escapeText cs with
  | case1 ds ih =>
    rw [List.cons_append, List.cons_append, readText, List.cons_append,
      readText_char (by decide) (by decide) (fun hc => absurd hc (by decide)), ih h.tail.tail,
      Option.map_map, Option.map_map]
    rfl
  | case2 c ds _ _ ih =>
    rw [List.cons_append, List.cons_append, readText, ih h.tail, Option.map_map]
    rfl
  | case3 c ds hopen hc ih =>
    obtain ⟨hslash, hmark⟩ : c ≠ '\\' ∧ c ≠ '\x60' := by simpa using hc
    have hhead : c = '$' → ∀ d ∈ (escapeText ds ++ rest).head?, d ≠ '{' := by
      rintro rfl
      apply head?_escapeText
      · rintro d hd rfl
        obtain ⟨es, rfl⟩ := List.head?_eq_some_iff.1 hd
        exact hopen es rfl rfl
      · rintro rfl
        exact h rfl
    rw [List.cons_append, readText_char hmark hslash hhead, ih h.tail, Option.map_map]
    rfl
  | case4 => simp

/-! ### Emitted templates -/

/-- How a segment is read back. A slot with an expression gives one slot, and everything else its
own characters. -/
inductive Segment.Reads (scope : Scope) : Segment → List Piece → Prop
  | char (c) : Segment.Reads scope (.char c) [.char c]
  | blank {inside} : Text.allBlank inside = true →
    Segment.Reads scope (.slot inside) ((Segment.slot inside).source.map .char)
  | slot {inside code} : Text.allBlank inside = false →
    Resolves scope.instanceVar (Text.trim inside) code →
    Segment.Reads scope (.slot inside) [.slot code]

inductive ReadsAll (scope : Scope) : List Segment → List Piece → Prop
  | nil : ReadsAll scope [] []
  | cons {segment segments pieces rest} :
    segment.Reads scope pieces → ReadsAll scope segments rest →
    ReadsAll scope (segment :: segments) (pieces ++ rest)

theorem Segment.Reads.unique {scope : Scope} {segment : Segment} {pieces pieces' : List Piece}
    (h : segment.Reads scope pieces) (h' : segment.Reads scope pieces') : pieces = pieces' := by
  cases h with
  | char c =>
    cases h'
    rfl
  | blank hblank =>
    cases h' with
    | blank _ => rfl
    | slot hne _ => rw [hblank] at hne; cases hne
  | slot hne hcode =>
    cases h' with
    | blank hblank => rw [hblank] at hne; cases hne
    | slot _ hcode' => rw [← resolves_iff.1 hcode, resolves_iff.1 hcode']

theorem ReadsAll.unique {scope : Scope} {segments : List Segment} {pieces pieces' : List Piece}
    (h : ReadsAll scope segments pieces) (h' : ReadsAll scope segments pieces') :
    pieces = pieces' := by
  induction h generalizing pieces' with
  | nil =>
    cases h'
    rfl
  | cons hone _ ih =>
    cases h' with
    | cons hone' hrest' => rw [hone.unique hone', ih hrest']

theorem ReadsAll.text (scope : Scope) (cs : List Char) {segments : List Segment}
    {pieces : List Piece} (h : ReadsAll scope segments pieces) :
    ReadsAll scope (cs.map .char ++ segments) (cs.map .char ++ pieces) := by
  induction cs with
  | nil => exact h
  | cons c cs ih =>
    have hall := ReadsAll.cons (.char c) ih
    exact hall

theorem braceless_instanceVar (scope : Scope) {name : String} (h : isWord name = true) :
    Braceless (scope.instanceVar name).toList := by
  unfold Scope.instanceVar
  split
  · exact braceless_of_isWord h
  · exact braceless_append (by decide) (braceless_of_isWord h)

theorem balanced_mapSigils {cs : List Char} (h : Balanced cs) (scope : Scope) :
    Balanced (mapSigils scope.instanceVar cs) := by
  rw [balanced_iff, (resolves_mapSigils _ cs).nesting_eq fun _ => braceless_instanceVar scope]
  exact h.nesting_eq 0

theorem readText_parts (scope : Scope) (cs : List Char) : ∃ segments pieces, Segments cs segments ∧
    ReadsAll scope segments pieces ∧ ∀ rest,
      readText ((parts cs).flatMap (Part.emit scope) ++ '\x60' :: rest) = some (pieces, rest) := by
  induction hn : cs.length using Nat.strongRecOn generalizing cs with
  | ind n ih =>
    subst hn
    cases hnext : nextSlot? cs with
    | none =>
      have hread := ReadsAll.text scope cs .nil
      rw [List.append_nil, List.append_nil] at hread
      refine ⟨cs.map .char, cs.map .char, segments_of_nextSlot?_none hnext, hread, fun rest => ?_⟩
      rw [parts_of_none hnext, List.flatMap_singleton, Part.emit, readText_escapeText, readText]
      · simp
      · intro _ d hd
        cases hd
        decide
    | some slot =>
      obtain ⟨before, inside, after⟩ := slot
      obtain ⟨hcs, hbalanced, hsegments⟩ := nextSlot?_eq_some hnext
      obtain ⟨segments, pieces, hafter, hreads, htext⟩ :=
        ih after.length (length_lt_of_nextSlot? hnext) after rfl
      cases hblank : Text.allBlank inside with
      | true =>
        refine ⟨_, _, hsegments segments hafter, .text scope before (.cons (.blank hblank) hreads),
          fun rest => ?_⟩
        rw [parts_of_blank hnext hblank, List.flatMap_cons, Part.emit, List.append_assoc,
          readText_escapeText, htext]
        · simp [Segment.source]
        · intro hlast
          rw [List.getLast?_concat] at hlast
          cases hlast
      | false =>
        refine ⟨_, _, hsegments segments hafter,
          .text scope before (.cons (.slot hblank (resolves_mapSigils _ _)) hreads), fun rest => ?_⟩
        rw [parts_of_slot hnext hblank, List.flatMap_cons, List.flatMap_cons, Part.emit, Part.emit,
          List.append_assoc, readText_escapeText]
        · rw [List.append_assoc, List.append_assoc, List.singleton_append,
            readText_slot (balanced_mapSigils hbalanced.trim scope), htext]
          rfl
        · intro _ d hd
          cases hd
          decide

/-- An emitted template is one whole literal, and it reads as the segments of the template. -/
theorem read_emit (scope : Scope) (raw : String) :
    (∃ pieces, read (emit scope raw).toList = some (pieces, [])) ∧
    ∀ pieces rest, read (emit scope raw).toList = some (pieces, rest) ↔
      rest = [] ∧ ∃ segments, Segments raw.toList segments ∧ ReadsAll scope segments pieces := by
  obtain ⟨segments, pieces, hsegments, hreads, htext⟩ := readText_parts scope raw.toList
  have hread : read (emit scope raw).toList = some (pieces, []) := by
    rw [emit, String.toList_ofList, List.cons_append, read]
    exact htext []
  refine ⟨⟨pieces, hread⟩, fun pieces' rest => ?_⟩
  rw [hread]
  constructor
  · intro h
    cases h
    exact ⟨rfl, segments, hsegments, hreads⟩
  · rintro ⟨rfl, segments', hsegments', hreads'⟩
    rw [hsegments'.unique hsegments] at hreads'
    rw [hreads'.unique hreads]

end LayoutScript.Script.Template

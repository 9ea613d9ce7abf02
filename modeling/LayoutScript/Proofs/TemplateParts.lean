import LayoutScript.Proofs.Spelling
import LayoutScript.Script.Template

/-! What a template is made of: characters and slots that close, and in the slots names after
sigils. The functions that find them are compared with rules that only say where they stand. -/
namespace LayoutScript

namespace Text

theorem trimLeft_append (cs : List Char) :
    ∃ front, cs = front ++ trimLeft cs ∧ allBlank front = true :=
  ⟨cs.takeWhile isBlank, List.takeWhile_append_dropWhile.symm, List.all_takeWhile⟩

theorem trimRight_append (cs : List Char) :
    ∃ back, cs = trimRight cs ++ back ∧ allBlank back = true := by
  obtain ⟨front, hcs, hfront⟩ := trimLeft_append cs.reverse
  refine ⟨front.reverse, ?_, ?_⟩
  · calc cs = cs.reverse.reverse := (List.reverse_reverse cs).symm
      _ = (front ++ trimLeft cs.reverse).reverse := by rw [← hcs]
      _ = trimRight cs ++ front.reverse := List.reverse_append
  · rw [allBlank, List.all_reverse]
    exact hfront

theorem trim_append (cs : List Char) :
    ∃ front back, cs = front ++ trim cs ++ back ∧ allBlank front = true ∧ allBlank back = true := by
  obtain ⟨front, hcs, hfront⟩ := trimLeft_append cs
  obtain ⟨back, hleft, hback⟩ := trimRight_append (trimLeft cs)
  refine ⟨front, back, ?_, hfront, hback⟩
  rw [List.append_assoc, trim, ← hleft]
  exact hcs

end Text

namespace Script.Template

/-! ### Braces -/

/-- Texts in which every brace has its partner. -/
inductive Balanced : List Char → Prop
  | nil : Balanced []
  | char {c cs} : c ≠ '{' → c ≠ '}' → Balanced cs → Balanced (c :: cs)
  | nest {cs ds} : Balanced cs → Balanced ds → Balanced ('{' :: cs ++ '}' :: ds)

/-- How many braces are open after a text, if it closes no more than are open. -/
def nesting : Nat → List Char → Option Nat
  | depth, [] => some depth
  | depth, '{' :: cs => nesting (depth + 1) cs
  | 0, '}' :: _ => none
  | depth + 1, '}' :: cs => nesting depth cs
  | depth, _ :: cs => nesting depth cs

theorem nesting_open (depth : Nat) (cs : List Char) :
    nesting depth ('{' :: cs) = nesting (depth + 1) cs := by
  cases depth <;> rfl

theorem nesting_char {c : Char} (ho : c ≠ '{') (hc : c ≠ '}') (depth : Nat) (cs : List Char) :
    nesting depth (c :: cs) = nesting depth cs := by
  cases depth <;> simp [nesting, hc]

theorem ne_close_of_cases {depth : Nat} {c : Char} (hz : depth = 0 → c = '}' → False)
    (hs : ∀ n, depth = n + 1 → c = '}' → False) : c ≠ '}' := by
  cases depth with
  | zero => exact hz rfl
  | succ depth => exact hs depth rfl

@[simp] theorem nesting_append (depth : Nat) (cs ds : List Char) :
    nesting depth (cs ++ ds) = (nesting depth cs).bind (nesting · ds) := by
  fun_induction nesting depth cs with
  | case1 depth => rfl
  | case2 depth cs ih => rw [List.cons_append, nesting_open, ih]
  | case3 cs => rfl
  | case4 depth cs ih => exact ih
  | case5 depth c cs ho hz hs ih =>
    have hc : c ≠ '}' := ne_close_of_cases hz hs
    rw [List.cons_append, nesting_char ho hc, ih]

def Braceless (cs : List Char) : Prop := ∀ c ∈ cs, c ≠ '{' ∧ c ≠ '}'

theorem nesting_braceless {cs : List Char} (h : Braceless cs) (depth : Nat) :
    nesting depth cs = some depth := by
  induction cs with
  | nil => cases depth <;> rfl
  | cons c cs ih =>
    obtain ⟨ho, hc⟩ := h c List.mem_cons_self
    rw [nesting_char ho hc, ih fun d hd => h d (List.mem_cons_of_mem _ hd)]

theorem Balanced.nesting_eq {cs : List Char} (h : Balanced cs) (depth : Nat) :
    nesting depth cs = some depth := by
  induction h generalizing depth with
  | nil => cases depth <;> rfl
  | char ho hc _ ih => rw [nesting_char ho hc, ih]
  | @nest cs ds _ _ ihc ihd =>
    rw [List.cons_append, nesting_open, nesting_append, ihc]
    exact ihd depth

/-- A text that closes `depth` braces: balanced ones with a closing brace after each but the
last. -/
def Closes : Nat → List Char → Prop
  | 0, cs => Balanced cs
  | depth + 1, cs => ∃ inner rest, cs = inner ++ '}' :: rest ∧ Balanced inner ∧ Closes depth rest

theorem Closes.char {depth : Nat} {c : Char} {cs : List Char} (ho : c ≠ '{') (hc : c ≠ '}')
    (h : Closes depth cs) : Closes depth (c :: cs) := by
  cases depth with
  | zero => exact Balanced.char ho hc h
  | succ depth =>
    obtain ⟨inner, rest, rfl, hinner, hrest⟩ := h
    exact ⟨c :: inner, rest, rfl, .char ho hc hinner, hrest⟩

theorem Closes.nest {depth : Nat} {cs : List Char} (h : Closes (depth + 1) cs) :
    Closes depth ('{' :: cs) := by
  obtain ⟨inner, rest, rfl, hinner, hrest⟩ := h
  cases depth with
  | zero => exact Balanced.nest hinner hrest
  | succ depth =>
    obtain ⟨inner', rest', rfl, hinner', hrest'⟩ := hrest
    exact ⟨'{' :: inner ++ '}' :: inner', rest', by simp, .nest hinner hinner', hrest'⟩

theorem closes_of_nesting {depth : Nat} {cs : List Char} (h : nesting depth cs = some 0) :
    Closes depth cs := by
  fun_induction nesting depth cs with
  | case1 depth =>
    cases h
    exact .nil
  | case2 depth cs ih => exact (ih h).nest
  | case3 cs => cases h
  | case4 depth cs ih => exact ⟨[], cs, rfl, .nil, ih h⟩
  | case5 depth c cs ho hz hs ih =>
    have hc : c ≠ '}' := ne_close_of_cases hz hs
    exact (ih h).char ho hc

theorem balanced_iff {cs : List Char} : Balanced cs ↔ nesting 0 cs = some 0 :=
  ⟨fun h => h.nesting_eq 0, closes_of_nesting⟩

theorem closing?_open (depth : Nat) (cs : List Char) : closing? depth ('{' :: cs) =
    (closing? (depth + 1) cs).map fun (inside, after) => ('{' :: inside, after) := rfl

theorem closing?_close (depth : Nat) (cs : List Char) : closing? (depth + 1) ('}' :: cs) =
    (closing? depth cs).map fun (inside, after) => ('}' :: inside, after) := rfl

theorem closing?_char {c : Char} (ho : c ≠ '{') (hc : c ≠ '}') (depth : Nat) (cs : List Char) :
    closing? depth (c :: cs) =
      (closing? depth cs).map fun (inside, after) => (c :: inside, after) := by
  cases depth <;> simp [closing?, ho, hc]

theorem closing?_append {depth : Nat} {inside : List Char} (h : nesting depth inside = some 0)
    (after : List Char) : closing? depth (inside ++ '}' :: after) = some (inside, after) := by
  fun_induction nesting depth inside with
  | case1 depth =>
    cases h
    rfl
  | case2 depth cs ih => rw [List.cons_append, closing?_open, ih h, Option.map_some]
  | case3 cs => cases h
  | case4 depth cs ih => rw [List.cons_append, closing?_close, ih h, Option.map_some]
  | case5 depth c cs ho hz hs ih =>
    have hc : c ≠ '}' := ne_close_of_cases hz hs
    rw [List.cons_append, closing?_char ho hc, ih h, Option.map_some]

theorem closing?_sound {depth : Nat} {cs inside after : List Char}
    (h : closing? depth cs = some (inside, after)) :
    cs = inside ++ '}' :: after ∧ nesting depth inside = some 0 := by
  induction cs generalizing depth inside with
  | nil => cases h
  | cons c cs ih =>
    by_cases ho : c = '{'
    · subst ho
      obtain ⟨⟨inside, after⟩, hrest, heq⟩ := Option.map_eq_some_iff.1 (closing?_open depth cs ▸ h)
      cases heq
      obtain ⟨rfl, hn⟩ := ih hrest
      exact ⟨rfl, (nesting_open depth inside).trans hn⟩
    · by_cases hc : c = '}'
      · subst hc
        cases depth with
        | zero =>
          cases h
          exact ⟨rfl, rfl⟩
        | succ depth =>
          obtain ⟨⟨inside, after⟩, hrest, heq⟩ :=
            Option.map_eq_some_iff.1 (closing?_close depth cs ▸ h)
          cases heq
          obtain ⟨rfl, hn⟩ := ih hrest
          exact ⟨rfl, hn⟩
      · rw [closing?_char ho hc] at h
        obtain ⟨⟨inside, after⟩, hrest, heq⟩ := Option.map_eq_some_iff.1 h
        cases heq
        obtain ⟨rfl, hn⟩ := ih hrest
        exact ⟨rfl, (nesting_char ho hc depth inside).trans hn⟩

theorem braceless_of_allBlank {cs : List Char} (h : Text.allBlank cs = true) : Braceless cs := by
  intro c hc
  have hblank : Text.isBlank c = true := List.all_eq_true.1 h c hc
  constructor <;> rintro rfl <;> exact absurd hblank (by decide)

theorem Balanced.trim {cs : List Char} (h : Balanced cs) : Balanced (Text.trim cs) := by
  obtain ⟨front, back, hcs, hfront, hback⟩ := Text.trim_append cs
  rw [balanced_iff, hcs, nesting_append, nesting_append,
    nesting_braceless (braceless_of_allBlank hfront), Option.bind_some] at h
  obtain ⟨depth, htrim, hdepth⟩ := Option.bind_eq_some_iff.1 h
  rw [nesting_braceless (braceless_of_allBlank hback)] at hdepth
  cases hdepth
  exact balanced_iff.2 htrim

/-- A slot ends at the brace that balances its opening one. -/
theorem closing?_eq_some_iff {cs inside after : List Char} :
    closing? 0 cs = some (inside, after) ↔ cs = inside ++ '}' :: after ∧ Balanced inside := by
  rw [balanced_iff]
  constructor
  · exact closing?_sound
  · rintro ⟨rfl, h⟩
    exact closing?_append h after

/-! ### Segments -/

/-- A character of a template, or a slot that closes with the text between its braces. -/
inductive Segment where
  | char (c : Char)
  | slot (inside : List Char)
  deriving DecidableEq, Repr

namespace Segment

def source : Segment → List Char
  | .char c => [c]
  | .slot inside => '#' :: '{' :: inside ++ ['}']

end Segment

/-- The segments of a template from left to right. A slot that never closes is text, with all that
follows. -/
inductive Segments : List Char → List Segment → Prop
  | nil : Segments [] []
  | slot {inside after segments} : Balanced inside → Segments after segments →
    Segments ('#' :: '{' :: inside ++ '}' :: after) (.slot inside :: segments)
  | unclosed {cs} : (∀ inside after, Balanced inside → cs ≠ inside ++ '}' :: after) →
    Segments ('#' :: '{' :: cs) (('#' :: '{' :: cs).map .char)
  | char {c cs segments} : (∀ ds, c :: cs ≠ '#' :: '{' :: ds) → Segments cs segments →
    Segments (c :: cs) (.char c :: segments)

theorem Segments.unique {cs : List Char} {segments segments' : List Segment}
    (h : Segments cs segments) (h' : Segments cs segments') : segments = segments' := by
  induction h generalizing segments' with
  | nil =>
    cases h'
    rfl
  | @slot inside after segments hb _ ih =>
    generalize hcs : '#' :: '{' :: inside ++ '}' :: after = cs at h'
    cases h' with
    | nil => cases hcs
    | @slot inside' after' _ hb' hrest =>
      have heq : inside ++ '}' :: after = inside' ++ '}' :: after' := by simpa using hcs
      have hclose := closing?_append (hb.nesting_eq 0) after
      rw [heq, closing?_append (hb'.nesting_eq 0) after'] at hclose
      cases hclose
      rw [ih hrest]
    | unclosed hopen =>
      have heq : inside ++ '}' :: after = _ := (List.cons.inj (List.cons.inj hcs).2).2
      exact absurd heq.symm (hopen inside after hb)
    | char hne _ => exact absurd hcs.symm (hne _)
  | @unclosed cs hopen =>
    generalize hcs : '#' :: '{' :: cs = ds at h'
    cases h' with
    | nil => cases hcs
    | @slot inside after _ hb _ =>
      exact absurd (List.cons.inj (List.cons.inj hcs).2).2 (hopen inside after hb)
    | unclosed _ =>
      cases hcs
      rfl
    | char hne _ => exact absurd hcs.symm (hne _)
  | @char c cs segments hne _ ih =>
    generalize hcs : c :: cs = ds at h'
    cases h' with
    | nil => cases hcs
    | slot _ _ => exact absurd hcs (hne _)
    | unclosed _ => exact absurd hcs (hne _)
    | char _ hrest =>
      cases hcs
      rw [ih hrest]

theorem nextSlot?_open (cs : List Char) : nextSlot? ('#' :: '{' :: cs) =
    (closing? 0 cs).map fun (inside, after) => ([], inside, after) := rfl

theorem nextSlot?_char {c : Char} {cs : List Char} (h : ∀ ds, c :: cs ≠ '#' :: '{' :: ds) :
    nextSlot? (c :: cs) =
      (nextSlot? cs).map fun (before, inside, after) => (c :: before, inside, after) := by
  rw [nextSlot?]
  rintro ds rfl rfl
  exact h ds rfl

theorem segments_of_nextSlot?_none {cs : List Char} (h : nextSlot? cs = none) :
    Segments cs (cs.map .char) := by
  induction cs with
  | nil => exact .nil
  | cons c cs ih =>
    by_cases hopen : ∃ ds, c :: cs = '#' :: '{' :: ds
    · obtain ⟨ds, heq⟩ := hopen
      cases heq
      rw [nextSlot?_open, Option.map_eq_none_iff] at h
      apply Segments.unclosed
      intro inside after hb hds
      rw [closing?_eq_some_iff.2 ⟨hds, hb⟩] at h
      cases h
    · have hchar : ∀ ds, c :: cs ≠ '#' :: '{' :: ds := fun ds hds => hopen ⟨ds, hds⟩
      rw [nextSlot?_char hchar, Option.map_eq_none_iff] at h
      exact .char hchar (ih h)

theorem nextSlot?_eq_some {cs before inside after : List Char}
    (h : nextSlot? cs = some (before, inside, after)) :
    cs = before ++ '#' :: '{' :: inside ++ '}' :: after ∧ Balanced inside ∧
      ∀ segments, Segments after segments →
        Segments cs (before.map .char ++ .slot inside :: segments) := by
  induction cs generalizing before with
  | nil => cases h
  | cons c cs ih =>
    by_cases hopen : ∃ ds, c :: cs = '#' :: '{' :: ds
    · obtain ⟨ds, heq⟩ := hopen
      cases heq
      rw [nextSlot?_open] at h
      obtain ⟨⟨inside, after⟩, hclose, heq⟩ := Option.map_eq_some_iff.1 h
      cases heq
      obtain ⟨rfl, hb⟩ := closing?_eq_some_iff.1 hclose
      exact ⟨rfl, hb, fun segments hrest => .slot hb hrest⟩
    · have hchar : ∀ ds, c :: cs ≠ '#' :: '{' :: ds := fun ds hds => hopen ⟨ds, hds⟩
      rw [nextSlot?_char hchar] at h
      obtain ⟨⟨before, inside, after⟩, hnext, heq⟩ := Option.map_eq_some_iff.1 h
      cases heq
      obtain ⟨hcs, hb, hsegments⟩ := ih hnext
      exact ⟨congrArg (c :: ·) hcs, hb,
        fun segments hrest => .char hchar (hsegments segments hrest)⟩

theorem length_lt_of_nextSlot? {cs before inside after : List Char}
    (h : nextSlot? cs = some (before, inside, after)) : after.length < cs.length := by
  rw [(nextSlot?_eq_some h).1]
  simp only [List.length_append, List.length_cons]
  omega

/-! ### Parts -/

theorem partsWithin_eq_parts {n : Nat} {cs : List Char} (h : cs.length ≤ n) :
    partsWithin n cs = parts cs := by
  suffices hsame : ∀ m n cs, cs.length ≤ m → cs.length ≤ n →
      partsWithin m cs = partsWithin n cs from
    hsame n cs.length cs h (Nat.le_refl _)
  intro m
  induction m with
  | zero =>
    intro n cs hm hn
    have hcs : cs = [] := List.length_eq_zero_iff.1 (Nat.le_zero.1 hm)
    subst hcs
    cases n <;> rfl
  | succ m ih =>
    intro n cs hm hn
    cases hnext : nextSlot? cs with
    | none => cases n <;> simp only [partsWithin, hnext]
    | some slot =>
      obtain ⟨before, inside, after⟩ := slot
      have hlt := length_lt_of_nextSlot? hnext
      cases n with
      | zero => omega
      | succ n => simp only [partsWithin, hnext, ih n after (by omega) (by omega)]

theorem parts_of_none {cs : List Char} (h : nextSlot? cs = none) : parts cs = [.text cs] := by
  rw [← partsWithin_eq_parts (Nat.le_succ cs.length), partsWithin, h]

theorem parts_of_blank {cs before inside after : List Char}
    (h : nextSlot? cs = some (before, inside, after)) (hblank : Text.allBlank inside = true) :
    parts cs = .text (before ++ '#' :: '{' :: inside ++ ['}']) :: parts after := by
  have hlt := length_lt_of_nextSlot? h
  rw [← partsWithin_eq_parts (Nat.le_succ cs.length), partsWithin, h]
  simp only [hblank, if_true, partsWithin_eq_parts (Nat.le_of_lt hlt)]

theorem parts_of_slot {cs before inside after : List Char}
    (h : nextSlot? cs = some (before, inside, after)) (hblank : Text.allBlank inside = false) :
    parts cs = .text before :: .slot (Text.trim inside) :: parts after := by
  have hlt := length_lt_of_nextSlot? h
  rw [← partsWithin_eq_parts (Nat.le_succ cs.length), partsWithin, h]
  simp only [hblank, Bool.false_eq_true, if_false, partsWithin_eq_parts (Nat.le_of_lt hlt)]

/-! ### Names after sigils -/

/-- A text and the text with `f` applied to every name after a sigil. The name is as long as it can
be, and a sigil without a name stays. -/
inductive Resolves (f : String → String) : List Char → List Char → Prop
  | nil : Resolves f [] []
  | name {name rest out} : isWord name = true → (∀ c ∈ rest.head?, isWordChar c = false) →
    Resolves f rest out → Resolves f ('@' :: name.toList ++ rest) ((f name).toList ++ out)
  | char {c cs out} : (c = '@' → ∀ d ∈ cs.head?, isWordStart d = false) → Resolves f cs out →
    Resolves f (c :: cs) (c :: out)

theorem mapSigilsFrom_eq_drop (f : String → String) (covered : Nat) (cs : List Char) :
    mapSigilsFrom f covered cs = mapSigils f (cs.drop covered) := by
  induction cs generalizing covered with
  | nil => cases covered <;> rfl
  | cons c cs ih =>
    cases covered with
    | zero => rfl
    | succ covered => exact ih covered

theorem mapSigils_name {f : String → String} {name : String} {rest : List Char}
    (hname : isWord name = true) (hrest : ∀ c ∈ rest.head?, isWordChar c = false) :
    mapSigils f ('@' :: name.toList ++ rest) = (f name).toList ++ mapSigils f rest := by
  have hleading := leadingName_append_of_head hname hrest
  have hne : name.toList ≠ [] := by
    intro hnil
    simp [isWord, hnil] at hname
  rw [List.cons_append, mapSigils, mapSigilsFrom, if_pos rfl, hleading]
  split
  · next hnil => exact absurd hnil hne
  · rw [String.ofList_toList, mapSigilsFrom_eq_drop, List.drop_left]

theorem leadingName_eq_nil_iff {cs : List Char} :
    leadingName cs = [] ↔ ∀ c ∈ cs.head?, isWordStart c = false := by
  cases cs with
  | nil => simp [leadingName]
  | cons c cs =>
    cases hc : isWordStart c <;> simp [leadingName, hc, isWordChar]

theorem mapSigils_char {f : String → String} {c : Char} {cs : List Char}
    (h : c = '@' → ∀ d ∈ cs.head?, isWordStart d = false) :
    mapSigils f (c :: cs) = c :: mapSigils f cs := by
  rw [mapSigils, mapSigilsFrom]
  split
  · next hc => rw [leadingName_eq_nil_iff.2 (h hc), mapSigils]
  · rfl

theorem exists_wordChars_append (cs : List Char) : ∃ more rest, cs = more ++ rest ∧
    (∀ c ∈ more, isWordChar c = true) ∧ ∀ c ∈ rest.head?, isWordChar c = false := by
  refine ⟨cs.takeWhile isWordChar, cs.dropWhile isWordChar, List.takeWhile_append_dropWhile.symm,
    List.all_eq_true.1 List.all_takeWhile, fun c hc => ?_⟩
  have hhead := List.head?_dropWhile_not isWordChar cs
  rw [Option.mem_def.1 hc] at hhead
  exact hhead

theorem exists_word_append {c : Char} (hc : isWordStart c = true) (cs : List Char) :
    ∃ name rest, c :: cs = name.toList ++ rest ∧ isWord name = true ∧
      (∀ d ∈ rest.head?, isWordChar d = false) ∧ rest.length ≤ cs.length := by
  obtain ⟨more, rest, rfl, hmore, hrest⟩ := exists_wordChars_append cs
  refine ⟨String.ofList (c :: more), rest, ?_, ?_, hrest, ?_⟩
  · rw [String.toList_ofList, List.cons_append]
  · rw [isWord, String.toList_ofList]
    simp only [hc, Bool.true_and]
    exact List.all_eq_true.2 hmore
  · rw [List.length_append]
    exact Nat.le_add_left _ _

theorem resolves_mapSigils (f : String → String) (cs : List Char) :
    Resolves f cs (mapSigils f cs) := by
  -- A name is taken whole, so the induction is on the length.
  induction hn : cs.length using Nat.strongRecOn generalizing cs with
  | ind n ih =>
    subst hn
    cases cs with
    | nil => exact .nil
    | cons c cs =>
      by_cases hname : c = '@' ∧ ∃ d ds, cs = d :: ds ∧ isWordStart d = true
      · obtain ⟨rfl, d, ds, rfl, hd⟩ := hname
        obtain ⟨name, rest, heq, hword, hrest, hlength⟩ := exists_word_append hd ds
        rw [heq, ← List.cons_append, mapSigils_name hword hrest]
        exact .name hword hrest (ih rest.length (by simp only [List.length_cons]; omega) rest rfl)
      · have hc : c = '@' → ∀ d ∈ cs.head?, isWordStart d = false := by
          intro hat d hd
          obtain ⟨ds, rfl⟩ := List.head?_eq_some_iff.1 hd
          rw [Bool.eq_false_iff]
          exact fun hstart => hname ⟨hat, d, ds, rfl, hstart⟩
        rw [mapSigils_char hc]
        exact .char hc (ih cs.length (Nat.lt_succ_self _) cs rfl)

theorem resolves_iff {f : String → String} {cs out : List Char} :
    Resolves f cs out ↔ mapSigils f cs = out := by
  constructor
  · intro h
    induction h with
    | nil => rfl
    | name hname hrest _ ih => rw [mapSigils_name hname hrest, ih]
    | char hc _ ih => rw [mapSigils_char hc, ih]
  · rintro rfl
    exact resolves_mapSigils f cs

theorem isWordChar_of_mem {name : String} {c : Char} (h : isWord name = true)
    (hc : c ∈ name.toList) : isWordChar c = true := by
  unfold isWord at h
  split at h
  · cases h
  · next d ds hname =>
    rw [Bool.and_eq_true, List.all_eq_true] at h
    rw [hname, List.mem_cons] at hc
    cases hc with
    | inl hcd => rw [hcd, isWordChar, h.1, Bool.or_true]
    | inr hds => exact h.2 c hds

theorem braceless_of_isWord {name : String} (h : isWord name = true) : Braceless name.toList := by
  intro c hc
  have hword : isWordChar c = true := isWordChar_of_mem h hc
  constructor <;> rintro rfl <;> exact absurd hword (by decide)

theorem braceless_append {s t : String} (hs : s.toList.all (fun c => c ≠ '{' && c ≠ '}') = true)
    (ht : Braceless t.toList) : Braceless (s ++ t).toList := by
  rw [String.toList_append]
  intro c hc
  cases List.mem_append.1 hc with
  | inl hc => simpa using List.all_eq_true.1 hs c hc
  | inr hc => exact ht c hc

/-- Names without braces leave the braces around them in place. -/
theorem Resolves.nesting_eq {f : String → String} {cs out : List Char} (h : Resolves f cs out)
    (hf : ∀ name, isWord name = true → Braceless (f name).toList) (depth : Nat) :
    nesting depth out = nesting depth cs := by
  induction h generalizing depth with
  | nil => rfl
  | @name name rest out hname _ _ ih =>
    rw [nesting_append, nesting_braceless (hf name hname), List.cons_append,
      nesting_char (by decide) (by decide), nesting_append,
      nesting_braceless (braceless_of_isWord hname)]
    exact ih depth
  | @char c cs out _ _ ih =>
    have hrest : (nesting · out) = (nesting · cs) := funext ih
    rw [← List.singleton_append, nesting_append, hrest, ← nesting_append, List.singleton_append]

end Script.Template

end LayoutScript

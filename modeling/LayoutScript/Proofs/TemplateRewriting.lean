import LayoutScript.Proofs.TemplateParts

/-! Templates of a component, written without its members. Inside the slots a member loses its
sigil; emitted where there is no component, the new template is the literal of the old one. -/
namespace LayoutScript

namespace Text

theorem head?_trimLeft (cs : List Char) : ∀ c ∈ (trimLeft cs).head?, isBlank c = false := by
  intro c hc
  have hhead := List.head?_dropWhile_not isBlank cs
  rw [trimLeft, Option.mem_def] at hc
  rw [hc] at hhead
  exact hhead

theorem getLast?_trimRight (cs : List Char) : ∀ c ∈ (trimRight cs).getLast?, isBlank c = false := by
  intro c hc
  rw [trimRight, List.getLast?_reverse] at hc
  exact head?_trimLeft cs.reverse c hc

theorem trimRight_of_getLast? {cs back : List Char} (h : ∀ c ∈ cs.getLast?, isBlank c = false)
    (hback : allBlank back = true) : trimRight (cs ++ back) = cs := by
  have hall : ∀ c ∈ back.reverse, isBlank c = true := by
    intro c hc
    exact List.all_eq_true.1 hback c (List.mem_reverse.1 hc)
  have hhead : ∀ c ∈ cs.reverse.head?, isBlank c = false := by
    rw [List.head?_reverse]
    exact h
  rw [trimRight, List.reverse_append, dropWhile_append_of_head hall hhead, List.reverse_reverse]

theorem trim_of_ends {cs : List Char} (hhead : ∀ c ∈ cs.head?, isBlank c = false)
    (hlast : ∀ c ∈ cs.getLast?, isBlank c = false) : trim cs = cs := by
  have hleft : trimLeft cs = cs := by
    cases cs with
    | nil => rfl
    | cons c cs => exact List.dropWhile_cons_of_neg (by simp [hhead c rfl])
  have hright := trimRight_of_getLast? hlast (rfl : allBlank [] = true)
  rwa [List.append_nil, ← hleft, ← trim, hleft] at hright

end Text

namespace Script

structure Members where
  state : List String
  methods : List String

def Members.declares (members : Members) (name : String) : Bool :=
  members.state.contains name || members.methods.contains name

/-- A member is a name of its own; any other name keeps its sigil. -/
def Members.unmark (members : Members) (name : String) : String :=
  if members.declares name then name else "@" ++ name

namespace Scope

def within (members : Members) (declared : List String) : Scope :=
  ⟨declared, members.state, members.methods, true⟩

def alone (declared : List String) : Scope := ⟨declared, [], [], false⟩

theorem instanceVar_within (members : Members) (declared : List String) (name : String) :
    (within members declared).instanceVar name =
      if members.declares name then name else "this." ++ name := rfl

theorem instanceVar_alone (declared : List String) (name : String) :
    (alone declared).instanceVar name = "this." ++ name := rfl

end Scope

namespace Template

/-! ### Segments, computed -/

def segmentsWithin : Nat → List Char → List Segment
  | 0, cs => cs.map .char
  | n + 1, cs => (nextSlot? cs).elim (cs.map .char) fun slot =>
    slot.1.map .char ++ .slot slot.2.1 :: segmentsWithin n slot.2.2

/-- The segments of a template. -/
def segments (cs : List Char) : List Segment := segmentsWithin cs.length cs

theorem segmentsWithin_sound {n : Nat} {cs : List Char} (h : cs.length ≤ n) :
    Segments cs (segmentsWithin n cs) := by
  induction n generalizing cs with
  | zero =>
    have hcs : cs = [] := List.length_eq_zero_iff.1 (Nat.le_zero.1 h)
    subst hcs
    exact .nil
  | succ n ih =>
    rw [segmentsWithin]
    cases hnext : nextSlot? cs with
    | none => exact segments_of_nextSlot?_none hnext
    | some slot =>
      obtain ⟨before, inside, after⟩ := slot
      have hlt := length_lt_of_nextSlot? hnext
      exact (nextSlot?_eq_some hnext).2.2 _ (ih (by omega))

theorem segments_sound (cs : List Char) : Segments cs (segments cs) :=
  segmentsWithin_sound (Nat.le_refl _)

theorem segments_of_none {cs : List Char} (h : nextSlot? cs = none) : segments cs = cs.map .char :=
  (segments_sound cs).unique (segments_of_nextSlot?_none h)

theorem segments_of_slot {cs before inside after : List Char}
    (h : nextSlot? cs = some (before, inside, after)) :
    segments cs = before.map .char ++ .slot inside :: segments after :=
  (segments_sound cs).unique ((nextSlot?_eq_some h).2.2 _ (segments_sound after))

def Segment.rewritten (f : String → String) : Segment → List Char
  | .char c => [c]
  | .slot inside => (Segment.slot (mapSigils f inside)).source

/-- A template with `f` applied to the names after sigils in its slots. -/
def mapSlots (f : String → String) (cs : List Char) : List Char :=
  (segments cs).flatMap (Segment.rewritten f)

theorem mapSlots_of_none {f : String → String} {cs : List Char} (h : nextSlot? cs = none) :
    mapSlots f cs = cs := by
  rw [mapSlots, segments_of_none h, List.flatMap_map]
  exact List.flatMap_singleton' cs

theorem mapSlots_of_slot {f : String → String} {cs before inside after : List Char}
    (h : nextSlot? cs = some (before, inside, after)) :
    mapSlots f cs = before ++ '#' :: '{' :: mapSigils f inside ++ '}' :: mapSlots f after := by
  have hbefore : (before.map Segment.char).flatMap (Segment.rewritten f) = before := by
    rw [List.flatMap_map]
    exact List.flatMap_singleton' before
  rw [mapSlots, segments_of_slot h, List.flatMap_append, List.flatMap_cons, hbefore]
  simp [Segment.rewritten, Segment.source, mapSlots]

/-- What stands before the first slot does not depend on the slot or on what follows. -/
theorem nextSlot?_replace {cs before inside after inside' : List Char}
    (h : nextSlot? cs = some (before, inside, after)) (hb : Balanced inside') (after' : List Char) :
    nextSlot? (before ++ '#' :: '{' :: inside' ++ '}' :: after') =
      some (before, inside', after') := by
  induction cs generalizing before with
  | nil => cases h
  | cons c cs ih =>
    by_cases hopen : ∃ ds, c :: cs = '#' :: '{' :: ds
    · obtain ⟨ds, heq⟩ := hopen
      cases heq
      rw [nextSlot?_open] at h
      obtain ⟨⟨inside, after⟩, hclose, heq⟩ := Option.map_eq_some_iff.1 h
      cases heq
      rw [List.nil_append, List.cons_append, List.cons_append, nextSlot?_open,
        closing?_eq_some_iff.2 ⟨rfl, hb⟩, Option.map_some]
    · rw [nextSlot?_char fun ds hds => hopen ⟨ds, hds⟩] at h
      obtain ⟨⟨before, inside, after⟩, hnext, heq⟩ := Option.map_eq_some_iff.1 h
      cases heq
      have hcs := (nextSlot?_eq_some hnext).1
      rw [List.cons_append, List.cons_append, nextSlot?_char, ih hnext, Option.map_some]
      intro ds hds
      -- The character after `c` stands before the slot, or it is the mark of the slot.
      cases before with
      | nil => cases hds
      | cons b before =>
        cases hds
        exact hopen ⟨_, congrArg ('#' :: ·) hcs⟩

/-! ### Names that are resolved twice -/

theorem mapSigils_append_of_head (f : String → String) (cs : List Char) {ds : List Char}
    (hds : ∀ d ∈ ds.head?, isWordChar d = false) :
    mapSigils f (cs ++ ds) = mapSigils f cs ++ mapSigils f ds := by
  have hstart : ∀ d ∈ ds.head?, isWordStart d = false := by
    intro d hd
    have hword := hds d hd
    rw [isWordChar, Bool.or_eq_false_iff] at hword
    exact hword.2
  -- The text in front keeps its names, since nothing that follows continues the last one.
  have h := resolves_mapSigils f cs
  generalize mapSigils f cs = out at h
  induction h with
  | nil => rfl
  | @name name rest out hname hrest _ ih =>
    rw [List.append_assoc, mapSigils_name hname, ih, List.append_assoc]
    intro c hc
    cases rest with
    | nil => exact hds c hc
    | cons d rest => exact hrest c hc
  | @char c cs out hc _ ih =>
    rw [List.cons_append, mapSigils_char, ih, List.cons_append]
    intro hat d hd
    cases cs with
    | nil => exact hstart d hd
    | cons e cs => exact hc hat d hd

theorem mapSigils_append_of_not_mem (f : String → String) {cs : List Char} (h : '@' ∉ cs)
    (ds : List Char) : mapSigils f (cs ++ ds) = cs ++ mapSigils f ds := by
  induction cs with
  | nil => rfl
  | cons c cs ih =>
    rw [List.mem_cons, not_or] at h
    rw [List.cons_append, mapSigils_char fun hc => absurd hc.symm h.1, ih h.2, List.cons_append]

theorem not_mem_of_isWord {name : String} (h : isWord name = true) : '@' ∉ name.toList :=
  fun hmem => absurd (isWordChar_of_mem h hmem) (by decide)

theorem isWord_append {name : String} {cs : List Char} (h : isWord name = true)
    (hcs : ∀ c ∈ cs, isWordChar c = true) : isWord (name ++ String.ofList cs) = true := by
  unfold isWord at h ⊢
  rw [String.toList_append, String.toList_ofList]
  cases hname : name.toList with
  | nil =>
    rw [hname] at h
    cases h
  | cons c ds =>
    rw [hname] at h
    simp only [Bool.and_eq_true] at h
    simp only [List.cons_append, List.all_append, Bool.and_eq_true]
    exact ⟨h.1, h.2, List.all_eq_true.2 hcs⟩

def adjacentSigils : List Char → Bool
  | '@' :: '@' :: _ => true
  | _ :: cs => adjacentSigils cs
  | [] => false

theorem adjacentSigils_of_cons {c : Char} {cs : List Char} (h : adjacentSigils (c :: cs) = false) :
    adjacentSigils cs = false ∧ (c = '@' → ∀ d ∈ cs.head?, d ≠ '@') := by
  cases cs with
  | nil => exact ⟨rfl, fun _ d hd => by cases hd⟩
  | cons d ds =>
    by_cases hc : c = '@' ∧ d = '@'
    · obtain ⟨rfl, rfl⟩ := hc
      cases h
    · refine ⟨?_, fun hat e he => ?_⟩
      · rwa [adjacentSigils] at h
        rintro es rfl heq
        cases heq
        exact hc ⟨rfl, rfl⟩
      · cases he
        exact fun hd => hc ⟨hat, hd⟩

theorem adjacentSigils_of_append {cs ds : List Char} (h : adjacentSigils (cs ++ ds) = false) :
    adjacentSigils ds = false := by
  induction cs with
  | nil => exact h
  | cons c cs ih => exact ih (adjacentSigils_of_cons h).1

section Twice

variable {members : Members} {declared : List String}

/-- A name that keeps its sigil may be continued by what follows, which changes nothing. -/
theorem mapSigils_field {name : String} (h : isWord name = true) (cs : List Char) :
    mapSigils (Scope.alone declared).instanceVar ('@' :: name.toList ++ cs) =
      "this.".toList ++ name.toList ++ mapSigils (Scope.alone declared).instanceVar cs := by
  obtain ⟨more, rest, rfl, hmore, hrest⟩ := exists_wordChars_append cs
  have hword : isWord (name ++ String.ofList more) = true := isWord_append h hmore
  have hname : '@' :: name.toList ++ (more ++ rest) =
      '@' :: (name ++ String.ofList more).toList ++ rest := by
    simp [String.toList_append]
  have hsigil : '@' ∉ more := fun hmem => absurd (hmore '@' hmem) (by decide)
  rw [hname, mapSigils_name hword hrest, Scope.instanceVar_alone,
    mapSigils_append_of_not_mem _ hsigil]
  simp [String.toList_append]

/-- Resolving the members first and the fields afterwards resolves both. -/
theorem mapSigils_unmark {cs : List Char} (h : adjacentSigils cs = false) :
    mapSigils (Scope.alone declared).instanceVar (mapSigils members.unmark cs) =
      mapSigils (Scope.within members declared).instanceVar cs := by
  have hres := resolves_mapSigils members.unmark cs
  generalize mapSigils members.unmark cs = out at hres ⊢
  induction hres with
  | nil => rfl
  | @name name rest out hname hrest _ ih =>
    rw [mapSigils_name hname hrest, Scope.instanceVar_within, Members.unmark,
      ← ih (adjacentSigils_of_append h)]
    split
    · rw [mapSigils_append_of_not_mem _ (not_mem_of_isWord hname)]
    · rw [String.toList_append, String.toList_append, ← mapSigils_field hname]
      rfl
  | @char c cs out hc hres ih =>
    obtain ⟨hrest, hnext⟩ := adjacentSigils_of_cons h
    rw [mapSigils_char hc, ← ih hrest, mapSigils_char]
    intro hat d hd
    -- A sigil without a name is not followed by one with a name, which would lose its sigil.
    cases hres with
    | nil => cases hd
    | name _ _ _ => exact absurd rfl (hnext hat '@' rfl)
    | char _ _ => exact hc hat d hd

end Twice

/-! ### Blanks around names -/

/-- Texts that trimming can neither empty nor shorten. -/
def Solid (cs : List Char) : Prop := cs ≠ [] ∧ ∀ c ∈ cs, Text.isBlank c = false

theorem not_mem_of_allBlank {cs : List Char} (h : Text.allBlank cs = true) : '@' ∉ cs :=
  fun hmem => absurd (List.all_eq_true.1 h '@' hmem) (by decide)

theorem mapSigils_of_allBlank (f : String → String) {cs : List Char}
    (h : Text.allBlank cs = true) : mapSigils f cs = cs := by
  have happend := mapSigils_append_of_not_mem f (not_mem_of_allBlank h) []
  rwa [List.append_nil, resolves_iff.1 .nil, List.append_nil] at happend

theorem solid_of_isWord {name : String} (h : isWord name = true) : Solid name.toList := by
  constructor
  · intro hnil
    simp [isWord, hnil] at h
  · exact fun c hc => isBlank_of_isWordChar (isWordChar_of_mem h hc)

theorem solid_append {s t : String} (hs : s.toList.all (!Text.isBlank ·) = true)
    (ht : Solid t.toList) : Solid (s ++ t).toList := by
  rw [String.toList_append]
  refine ⟨fun hnil => ht.1 (List.append_eq_nil_iff.1 hnil).2, fun c hc => ?_⟩
  cases List.mem_append.1 hc with
  | inl hc => simpa using List.all_eq_true.1 hs c hc
  | inr hc => exact ht.2 c hc

theorem solid_instanceVar (scope : Scope) (name : String) (h : isWord name = true) :
    Solid (scope.instanceVar name).toList := by
  unfold Scope.instanceVar
  split
  · exact solid_of_isWord h
  · exact solid_append (by decide) (solid_of_isWord h)

theorem solid_unmark (members : Members) (name : String) (h : isWord name = true) :
    Solid (members.unmark name).toList := by
  unfold Members.unmark
  split
  · exact solid_of_isWord h
  · exact solid_append (by decide) (solid_of_isWord h)

section Blanks

variable {f : String → String} (hf : ∀ name, isWord name = true → Solid (f name).toList)
include hf

theorem Resolves.eq_nil {cs : List Char} (h : Resolves f cs []) : cs = [] := by
  generalize hout : [] = out at h
  cases h with
  | nil => rfl
  | @name name _ _ hname _ _ =>
    exact absurd (List.append_eq_nil_iff.1 hout.symm).1 (hf name hname).1
  | char _ _ => cases hout

theorem allBlank_mapSigils (cs : List Char) :
    Text.allBlank (mapSigils f cs) = Text.allBlank cs := by
  have h := resolves_mapSigils f cs
  generalize mapSigils f cs = out at h
  induction h with
  | nil => rfl
  | @name name rest out hname _ _ _ =>
    obtain ⟨hne, hsolid⟩ := hf name hname
    obtain ⟨c, hc⟩ := List.exists_mem_of_ne_nil _ hne
    have hout : Text.allBlank ((f name).toList ++ out) = false :=
      List.all_eq_false.2 ⟨c, List.mem_append_left _ hc, by simp [hsolid c hc]⟩
    rw [hout]
    rfl
  | char _ _ ih => exact congrArg (Text.isBlank _ && ·) ih

theorem head?_mapSigils {cs : List Char} (h : ∀ c ∈ cs.head?, Text.isBlank c = false) :
    ∀ c ∈ (mapSigils f cs).head?, Text.isBlank c = false := by
  have hres := resolves_mapSigils f cs
  generalize mapSigils f cs = out at hres
  intro c hc
  cases hres with
  | nil => cases hc
  | @name name rest out hname _ _ =>
    obtain ⟨hne, hsolid⟩ := hf name hname
    obtain ⟨d, ds, hname⟩ := List.exists_cons_of_ne_nil hne
    rw [hname] at hc hsolid
    cases hc
    exact hsolid c List.mem_cons_self
  | char _ _ => exact h c hc

theorem getLast?_mapSigils {cs : List Char} (h : ∀ c ∈ cs.getLast?, Text.isBlank c = false) :
    ∀ c ∈ (mapSigils f cs).getLast?, Text.isBlank c = false := by
  have hres := resolves_mapSigils f cs
  generalize mapSigils f cs = out at hres
  induction hres with
  | nil => exact h
  | @name name rest out hname _ _ ih =>
    have hrest : ∀ c ∈ rest.getLast?, Text.isBlank c = false := by
      intro c hc
      apply h
      rw [List.getLast?_append, Option.mem_def.1 hc]
      rfl
    intro c hc
    rw [List.getLast?_append] at hc
    cases hout : out.getLast? with
    | none =>
      rw [hout] at hc
      exact (hf name hname).2 c (List.mem_of_getLast? hc)
    | some d =>
      rw [hout] at hc
      cases hc
      exact ih hrest c hout
  | @char c cs out _ hres ih =>
    have hrest : ∀ d ∈ cs.getLast?, Text.isBlank d = false := by
      intro d hd
      apply h
      rw [List.getLast?_cons, Option.mem_def.1 hd]
      rfl
    intro d hd
    rw [List.getLast?_cons] at hd
    cases hout : out.getLast? with
    | none =>
      rw [hout] at hd
      rw [List.getLast?_eq_none_iff] at hout
      subst hout
      have hcs := Resolves.eq_nil hf hres
      subst hcs
      exact h d hd
    | some e =>
      rw [hout] at hd
      cases hd
      exact ih hrest e hout

theorem trimLeft_mapSigils (cs : List Char) :
    Text.trimLeft (mapSigils f cs) = mapSigils f (Text.trimLeft cs) := by
  obtain ⟨front, hcs, hfront⟩ := Text.trimLeft_append cs
  have hmap : mapSigils f cs = front ++ mapSigils f (Text.trimLeft cs) := by
    rw [← mapSigils_append_of_not_mem f (not_mem_of_allBlank hfront), ← hcs]
  rw [hmap, Text.trimLeft]
  exact dropWhile_append_of_head (List.all_eq_true.1 hfront)
    (head?_mapSigils hf (Text.head?_trimLeft cs))

theorem trimRight_mapSigils (cs : List Char) :
    Text.trimRight (mapSigils f cs) = mapSigils f (Text.trimRight cs) := by
  obtain ⟨back, hcs, hback⟩ := Text.trimRight_append cs
  have hhead : ∀ c ∈ back.head?, isWordChar c = false := by
    intro c hc
    have hcblank : Text.isBlank c = true :=
      List.all_eq_true.1 hback c (List.mem_of_mem_head? hc)
    rw [Bool.eq_false_iff]
    intro hword
    rw [isBlank_of_isWordChar hword] at hcblank
    cases hcblank
  have hmap : mapSigils f cs = mapSigils f (Text.trimRight cs) ++ back :=
    calc mapSigils f cs = mapSigils f (Text.trimRight cs ++ back) := by rw [← hcs]
      _ = mapSigils f (Text.trimRight cs) ++ mapSigils f back := mapSigils_append_of_head f _ hhead
      _ = mapSigils f (Text.trimRight cs) ++ back := by rw [mapSigils_of_allBlank f hback]
  rw [hmap]
  exact Text.trimRight_of_getLast? (getLast?_mapSigils hf (Text.getLast?_trimRight cs)) hback

theorem trim_mapSigils (cs : List Char) :
    Text.trim (mapSigils f cs) = mapSigils f (Text.trim cs) := by
  rw [Text.trim, trimLeft_mapSigils hf, trimRight_mapSigils hf, Text.trim]

end Blanks

/-! ### Emitted templates -/

theorem braceless_unmark (members : Members) (name : String) (h : isWord name = true) :
    Braceless (members.unmark name).toList := by
  unfold Members.unmark
  split
  · exact braceless_of_isWord h
  · exact braceless_append (by decide) (braceless_of_isWord h)

theorem balanced_unmark {cs : List Char} (h : Balanced cs) (members : Members) :
    Balanced (mapSigils members.unmark cs) := by
  rw [balanced_iff, (resolves_mapSigils _ cs).nesting_eq (braceless_unmark members)]
  exact h.nesting_eq 0

section Emitted

variable {members : Members} {declared : List String}

theorem emit_slot_unmark {inside : List Char} (h : adjacentSigils inside = false) :
    Part.emit (.alone declared) (.slot (Text.trim (mapSigils members.unmark inside))) =
      Part.emit (.within members declared) (.slot (Text.trim inside)) := by
  have hcode : mapSigils (Scope.alone declared).instanceVar
        (Text.trim (mapSigils members.unmark inside)) =
      mapSigils (Scope.within members declared).instanceVar (Text.trim inside) := by
    rw [← trim_mapSigils (solid_instanceVar _), mapSigils_unmark h,
      trim_mapSigils (solid_instanceVar _)]
  rw [Part.emit, Part.emit, hcode]

theorem emit_parts_unmark {cs : List Char}
    (h : ∀ inside, .slot inside ∈ segments cs → adjacentSigils inside = false) :
    (parts (mapSlots members.unmark cs)).flatMap (Part.emit (.alone declared)) =
      (parts cs).flatMap (Part.emit (.within members declared)) := by
  induction hn : cs.length using Nat.strongRecOn generalizing cs with
  | ind n ih =>
    subst hn
    cases hnext : nextSlot? cs with
    | none =>
      rw [mapSlots_of_none hnext, parts_of_none hnext]
      rfl
    | some slot =>
      obtain ⟨before, inside, after⟩ := slot
      rw [segments_of_slot hnext] at h
      have hinside : adjacentSigils inside = false := h inside (by simp)
      have hafter := ih after.length (length_lt_of_nextSlot? hnext)
        (fun inside hmem => h inside (by simp [hmem])) rfl
      obtain ⟨_, hbalanced, _⟩ := nextSlot?_eq_some hnext
      have hnext' := nextSlot?_replace hnext (balanced_unmark hbalanced members)
        (mapSlots members.unmark after)
      have hblank' := allBlank_mapSigils (solid_unmark members) inside
      rw [mapSlots_of_slot hnext]
      cases hblank : Text.allBlank inside with
      | true =>
        rw [parts_of_blank hnext' (hblank'.trans hblank), parts_of_blank hnext hblank,
          mapSigils_of_allBlank _ hblank, List.flatMap_cons, List.flatMap_cons, hafter]
        rfl
      | false =>
        rw [parts_of_slot hnext' (hblank'.trans hblank), parts_of_slot hnext hblank]
        simp only [List.flatMap_cons, emit_slot_unmark hinside, hafter]
        rfl

/-- A template whose members have lost their sigils is the same literal without the component. -/
theorem emit_mapSlots_unmark {raw : String}
    (h : ∀ inside, .slot inside ∈ segments raw.toList → adjacentSigils inside = false) :
    emit (.alone declared) (String.ofList (mapSlots members.unmark raw.toList)) =
      emit (.within members declared) raw := by
  rw [emit, String.toList_ofList, emit_parts_unmark h, emit]

end Emitted

end Template

end Script

end LayoutScript

import LayoutScript.Proofs.RelativePath

/-! Clean paths. A clean path from the root is its names with slashes between them, so what is done
to the text of a path can be followed on its names. -/
namespace LayoutScript.Path

variable {names before : List Name} {name : Name}

/-! ### Names and text -/

instance (name : Name) : Decidable (IsName name) :=
  decidable_of_iff (name ≠ [] ∧ name ≠ here ∧ name ≠ up ∧ '/' ∉ name)
    ⟨fun h => ⟨h.1, h.2.1, h.2.2.1, h.2.2.2⟩, fun h => ⟨h.ne_nil, h.ne_here, h.ne_up, h.whole⟩⟩

theorem steps_absoluteOfNames (hne : names ≠ []) (h : ∀ n ∈ names, IsName n) :
    (absoluteOfNames names).steps = [] :: names := by
  rw [absoluteOfNames, steps, Text.split, if_pos rfl]
  exact congrArg ([] :: ·) (Text.split_intercalate hne fun n hn => (h n hn).whole)

theorem names_absoluteOfNames (h : ∀ n ∈ names, IsName n) :
    (absoluteOfNames names).names = names := by
  by_cases hne : names = []
  · rw [hne]
    rfl
  · have hroot : follow true [] [] = [] := rfl
    rw [Path.names, show isAbsolute (absoluteOfNames names) = true from rfl,
      steps_absoluteOfNames hne h, List.foldl_cons, hroot, foldl_follow_names h, List.append_nil,
      List.reverse_reverse]

theorem clean_of_isAbsolute {p : Path} (h : p.isAbsolute = true) :
    p.clean = absoluteOfNames p.names :=
  if_pos h

theorem clean_absoluteOfNames (h : ∀ n ∈ names, IsName n) :
    (absoluteOfNames names).clean = absoluteOfNames names := by
  rw [clean_of_isAbsolute rfl, names_absoluteOfNames h]

theorem intercalate_concat (hne : before ≠ []) (name : Name) :
    ['/'].intercalate (before ++ [name]) = ['/'].intercalate before ++ '/' :: name := by
  induction before with
  | nil => exact absurd rfl hne
  | cons first before ih =>
    cases before with
    | nil => simp [List.intercalate]
    | cons next before =>
      rw [List.cons_append, List.cons_append, List.intercalate_cons_cons, ← List.cons_append,
        ih (List.cons_ne_nil _ _), List.intercalate_cons_cons, List.append_assoc, List.append_assoc,
        List.append_assoc]

theorem relativeOfNames_of_ne_nil (hne : names ≠ []) :
    relativeOfNames names = ['/'].intercalate names := by
  rw [relativeOfNames, if_neg (by simpa using hne)]

theorem isPrefixOf_relativeOfNames (names : List Name) :
    up.isPrefixOf (relativeOfNames (up :: names)) = true := by
  rw [List.isPrefixOf_iff_prefix, relativeOfNames_of_ne_nil (List.cons_ne_nil _ _)]
  cases names with
  | nil => simp [List.intercalate]
  | cons name names =>
    rw [List.intercalate_cons_cons, List.append_assoc]
    exact List.prefix_append _ _

theorem relativeOfNames_concat (before : List Name) (name : Name) :
    relativeOfNames (before ++ [name]) = name ∧ before = [] ∨
      relativeOfNames (before ++ [name]) = relativeOfNames before ++ '/' :: name ∧ before ≠ [] := by
  rw [relativeOfNames_of_ne_nil (by simp)]
  by_cases hne : before = []
  · subst hne
    exact .inl ⟨by simp [List.intercalate], rfl⟩
  · rw [relativeOfNames_of_ne_nil hne]
    exact .inr ⟨intercalate_concat hne name, hne⟩

theorem absoluteOfNames_append (hne : names ≠ []) :
    ∃ front, absoluteOfNames (before ++ names) = front ++ '/' :: relativeOfNames names := by
  rw [relativeOfNames_of_ne_nil hne]
  induction before with
  | nil => exact ⟨[], rfl⟩
  | cons first before ih =>
    obtain ⟨front, hfront⟩ := ih
    obtain ⟨next, rest, hrest⟩ := List.exists_cons_of_ne_nil
      (show before ++ names ≠ [] from List.append_ne_nil_of_right_ne_nil _ hne)
    refine ⟨'/' :: first ++ front, ?_⟩
    rw [List.append_assoc, ← hfront, absoluteOfNames, absoluteOfNames, List.cons_append, hrest,
      List.intercalate_cons_cons]
    simp

theorem absoluteOfNames_injective {names' : List Name} (h : ∀ n ∈ names, IsName n)
    (h' : ∀ n ∈ names', IsName n) (heq : absoluteOfNames names = absoluteOfNames names') :
    names = names' := by
  rw [← names_absoluteOfNames h, heq, names_absoluteOfNames h']

theorem relativeOfNames_injective {names' : List Name} (hne : names ≠ []) (hne' : names' ≠ [])
    (h : ∀ n ∈ names, IsName n) (h' : ∀ n ∈ names', IsName n)
    (heq : relativeOfNames names = relativeOfNames names') : names = names' := by
  rw [relativeOfNames_of_ne_nil hne, relativeOfNames_of_ne_nil hne'] at heq
  rw [← Text.split_intercalate hne fun n hn => (h n hn).whole, heq,
    Text.split_intercalate hne' fun n hn => (h' n hn).whole]

theorem isAbsolute_join {dir : Path} (hdir : dir.isAbsolute = true) (p : Path) :
    (dir.join p).isAbsolute = true := by
  rw [join_eq hdir]
  rfl

theorem join_relativeOfNames {dir : Path} (hdir : dir.isAbsolute = true)
    (h : ∀ n ∈ names, IsName n) :
    dir.join (relativeOfNames names) = absoluteOfNames (dir.names ++ names) := by
  rw [join_eq hdir, foldl_steps_relativeOfNames (fun n hn => (h n hn).whole), foldl_follow_names h,
    List.reverse_append, List.reverse_reverse, List.reverse_reverse]

/-! ### The last name -/

theorem takeWhile_reverse (hname : '/' ∉ name) (front : List Char) :
    (front ++ name).reverse.takeWhile (· != '/') =
      name.reverse ++ front.reverse.takeWhile (· != '/') := by
  rw [List.reverse_append, List.takeWhile_append_of_pos]
  intro c hc
  rw [List.mem_reverse] at hc
  exact bne_iff_ne.2 fun heq => hname (heq ▸ hc)

theorem takeWhile_reverse_slash (hname : '/' ∉ name) (front : List Char) :
    (front ++ '/' :: name).reverse.takeWhile (· != '/') = name.reverse := by
  have hstop : (front ++ ['/']).reverse.takeWhile (· != '/') = [] := by simp
  have hfront := takeWhile_reverse hname (front ++ ['/'])
  rwa [hstop, List.append_nil, List.append_assoc, List.singleton_append] at hfront

theorem base_append (hne : name ≠ []) (hname : '/' ∉ name) (front : List Char) :
    base (front ++ '/' :: name) = name := by
  have hlast : (front ++ '/' :: name).reverse.dropWhile (· == '/') =
      (front ++ '/' :: name).reverse := by
    obtain ⟨c, cs, hc⟩ := List.exists_cons_of_ne_nil (List.reverse_ne_nil_iff.2 hne)
    have hslash : (c == '/') = false := by
      rw [beq_eq_false_iff_ne]
      rintro rfl
      exact hname (List.mem_reverse.1 (by rw [hc]; exact List.mem_cons_self))
    rw [List.reverse_append, List.reverse_cons, hc]
    simp [hslash]
  rw [base, if_neg (by simp), hlast, takeWhile_reverse_slash hname, List.reverse_reverse]
  exact if_neg (by simpa using hne)

/-! ### The extension -/

theorem suffix_of_suffix_slash {ending front path : List Char} (hslash : '/' ∉ ending)
    (h : ending <:+ front ++ '/' :: path) : ending <:+ path := by
  rcases List.suffix_or_suffix_of_suffix h (List.suffix_append front ('/' :: path)) with h | h
  · rcases List.suffix_cons_iff.1 h with rfl | h
    · exact absurd List.mem_cons_self hslash
    · exact h
  · exact absurd (h.subset List.mem_cons_self) hslash

theorem extension_append (hname : '/' ∉ name) (front : List Char) :
    extension (front ++ '/' :: name) = extension name := by
  have halone := takeWhile_reverse hname []
  rw [List.nil_append] at halone
  rw [extension, extension, takeWhile_reverse_slash hname, halone]
  simp

theorem takeWhile_dot {ending : List Char} (h : '.' ∉ ending) (more : List Char) :
    (ending ++ '.' :: more).takeWhile (· != '.') = ending := by
  rw [List.takeWhile_append_of_pos, List.takeWhile_cons_of_neg (by decide), List.append_nil]
  exact fun c hc => bne_iff_ne.2 fun heq => h (heq ▸ hc)

theorem exists_stem (p : Path) : ∃ stem, p = stem ++ p.extension := by
  unfold extension
  dsimp only
  split
  · next hdot =>
    obtain ⟨ending, more, hname, hend⟩ := List.eq_append_cons_of_mem (List.contains_iff_mem.1 hdot)
    rw [hname, takeWhile_dot hend]
    have hp : p.reverse = ending ++ '.' :: more ++ p.reverse.dropWhile (· != '/') := by
      rw [← hname, List.takeWhile_append_dropWhile]
    refine ⟨(more ++ p.reverse.dropWhile (· != '/')).reverse, ?_⟩
    conv => lhs; rw [← List.reverse_reverse p, hp]
    simp
  · exact ⟨p, (List.append_nil p).symm⟩

theorem extension_eq {ending : List Char} (hdot : '.' ∉ ending) (hslash : '/' ∉ ending)
    (front : List Char) : extension (front ++ '.' :: ending) = '.' :: ending := by
  have hname := @takeWhile_reverse ('.' :: ending) (by simpa using hslash) front
  rw [List.reverse_cons, List.append_assoc, List.singleton_append] at hname
  rw [extension, hname, takeWhile_dot (by simpa using hdot), List.reverse_reverse]
  exact if_pos (by simp)

theorem replaceExtension_eq {p stem : Path} (h : p = stem ++ p.extension) (ext : List Char) :
    p.replaceExtension ext = stem ++ ext := by
  have hlength := congrArg List.length h
  rw [List.length_append] at hlength
  rw [replaceExtension, hlength, Nat.add_sub_cancel]
  congr 1
  rw [h, List.take_left]

/-- The path below a directory whose last name has another extension. A path of no names stands for
the directory, whose sign is a dot and nothing else. -/
theorem exists_renamed (h : ∀ n ∈ names, IsName n) (ext : List Char) :
    ∃ before stem, (relativeOfNames names).replaceExtension ext =
      relativeOfNames (before ++ [stem ++ ext]) ∧
      (∀ n ∈ before, IsName n) ∧ '/' ∉ stem := by
  rcases List.eq_nil_or_concat names with rfl | ⟨before, name, rfl⟩
  · refine ⟨[], [], ?_, by simp, by simp⟩
    simp [relativeOfNames, here, replaceExtension, extension, List.intercalate]
  · rw [List.concat_eq_append] at h ⊢
    obtain ⟨hbefore, hname⟩ := List.forall_mem_append.1 h
    have hwhole := (hname name List.mem_cons_self).whole
    obtain ⟨stem, hstem⟩ := exists_stem name
    refine ⟨before, stem, ?_, hbefore,
      fun hmem => hwhole (by rw [hstem]; exact List.mem_append_left _ hmem)⟩
    have hold := relativeOfNames_concat before name
    have hnew := relativeOfNames_concat before (stem ++ ext)
    rcases hold with ⟨hold, hnil⟩ | ⟨hold, hne⟩
    · rw [hold, replaceExtension_eq hstem]
      exact ((hnew.resolve_right fun hnew => hnew.2 hnil).1).symm
    · have hrest : relativeOfNames before ++ '/' :: name =
          (relativeOfNames before ++ '/' :: stem) ++
            extension (relativeOfNames before ++ '/' :: name) := by
        rw [extension_append hwhole]
        conv => lhs; rw [hstem]
        simp
      rw [hold, replaceExtension_eq hrest, (hnew.resolve_left fun hnew => hne hnew.2).1]
      simp

/-! ### Places below a directory -/

/-- A clean path that leads from a directory down by at least one name. -/
structure Below (dir p : Path) : Prop where
  absolute : p.isAbsolute = true
  clean : p.clean = p
  inside : ∃ rest, rest ≠ [] ∧ p.names = dir.names ++ rest

theorem Below.eq_absoluteOfNames {dir p : Path} (h : Below dir p) :
    p = absoluteOfNames p.names := by
  rw [← clean_of_isAbsolute h.absolute, h.clean]

theorem below_absoluteOfNames {dir : Path} (h : ∀ n ∈ dir.names ++ names, IsName n)
    (hne : names ≠ []) :
    Below dir (absoluteOfNames (dir.names ++ names)) :=
  ⟨rfl, clean_absoluteOfNames h, names, hne, names_absoluteOfNames h⟩

end LayoutScript.Path

import LayoutScript.Compile.File
import LayoutScript.Proofs.CleanPaths

/-! Files on a disk. Nothing can be put below a file, and a directory is never made where a file
stands, so a file is lost only by a write to its own place. -/
namespace LayoutScript

theorem exists_of_bind_eq_ok {x : Except ε α} {f : α → Except ε β} {b : β} (h : x >>= f = .ok b) :
    ∃ a, x = .ok a ∧ f a = .ok b := by
  cases x with
  | error e => cases h
  | ok a => exact ⟨a, rfl, h⟩

/-! ### Trees -/

namespace FileTree

section Entries

variable {entries : List (Name × FileTree)} {name other : Name} {entry : FileTree}

theorem lookup_cons_of_ne {x : FileTree} (h : other ≠ name) :
    ((name, x) :: entries).lookup other = entries.lookup other := by
  rw [List.lookup_cons, beq_eq_false_iff_ne.2 h]

theorem lookup_replace (h : entries.any (·.1 == name) = true) :
    (entries.map fun e => (e.1, if e.1 == name then entry else e.2)).lookup name = some entry := by
  induction entries with
  | nil => cases h
  | cons first entries ih =>
    rw [List.map_cons]
    by_cases hname : first.1 = name
    · rw [if_pos (beq_iff_eq.2 hname), hname, List.lookup_cons_self]
    · rw [lookup_cons_of_ne (Ne.symm hname)]
      exact ih (by simpa [hname] using h)

theorem lookup_replace_of_ne (h : other ≠ name) :
    (entries.map fun e => (e.1, if e.1 == name then entry else e.2)).lookup other =
      entries.lookup other := by
  induction entries with
  | nil => rfl
  | cons first entries ih =>
    obtain ⟨n, old⟩ := first
    rw [List.map_cons]
    by_cases hfirst : other = n
    · subst hfirst
      rw [if_neg (mt beq_iff_eq.1 h), List.lookup_cons_self, List.lookup_cons_self]
    · rw [lookup_cons_of_ne hfirst, lookup_cons_of_ne hfirst, ih]

theorem lookup_eq_none_of_any (h : ¬ entries.any (·.1 == name) = true) :
    entries.lookup name = none := by
  rw [List.lookup_eq_none_iff]
  intro e he
  rw [bne_iff_ne]
  rintro rfl
  exact h (List.any_eq_true.2 ⟨e, he, beq_self_eq_true _⟩)

end Entries

variable {t entry : FileTree} {name other : Name} {place outer : List Name} {content : String}

@[simp] theorem child?_setChild_self : (t.setChild name entry).child? name = some entry := by
  cases t with
  | file content => simp [setChild, child?]
  | directory entries =>
    rw [setChild]
    split
    · next h => exact lookup_replace h
    · next h =>
      rw [child?, List.lookup_append, lookup_eq_none_of_any h, Option.none_or,
        List.lookup_cons_self]

theorem child?_setChild_of_ne (h : other ≠ name) :
    (t.setChild name entry).child? other = t.child? other := by
  cases t with
  | file content => simp [setChild, child?, h]
  | directory entries =>
    rw [setChild]
    split
    · exact lookup_replace_of_ne h
    · rw [child?, child?, List.lookup_append, lookup_cons_of_ne h, List.lookup_nil, Option.or_none]

@[simp] theorem find?_append (outer place : List Name) (t : FileTree) :
    find? (outer ++ place) t = (find? outer t).bind (find? place) := by
  induction outer generalizing t with
  | nil => rfl
  | cons name outer ih =>
    rw [List.cons_append, find?, find?, Option.bind_assoc]
    exact congrArg _ (funext ih)

/-- At a place on the way to what is put in, there is what stood there with the rest of the way put
in. -/
theorem find?_insert_above (t : FileTree) (outer place : List Name) (entry : FileTree) :
    find? outer (t.insert (outer ++ place) entry) =
      some (((find? outer t).getD empty).insert place entry) := by
  induction outer generalizing t with
  | nil => rfl
  | cons name outer ih =>
    rw [List.cons_append, insert, find?, child?_setChild_self, Option.bind_some, ih, find?]
    cases t.child? name with
    | some child => rfl
    | none =>
      cases outer <;> rfl

@[simp] theorem find?_insert_self (t : FileTree) (place : List Name) (entry : FileTree) :
    find? place (t.insert place entry) = some entry := by
  have habove := find?_insert_above t place [] entry
  rwa [List.append_nil] at habove

theorem find?_insert_apart (h : ¬ outer <+: place) (h' : ¬ place <+: outer) :
    find? outer (t.insert place entry) = find? outer t := by
  induction place generalizing t outer with
  | nil => exact absurd List.nil_prefix h'
  | cons name place ih =>
    cases outer with
    | nil => exact absurd List.nil_prefix h
    | cons other outer =>
      rw [insert, find?, find?]
      by_cases hname : other = name
      · subst hname
        rw [List.cons_prefix_cons, not_and] at h h'
        rw [child?_setChild_self, Option.bind_some, ih (h rfl) (h' rfl)]
        cases t.child? other with
        | some child => rfl
        | none =>
          cases outer with
          | nil => exact absurd List.nil_prefix (h rfl)
          | cons first outer => rfl
      · rw [child?_setChild_of_ne hname]

theorem eq_nil_of_find?_file {x : FileTree} (h : find? outer t = some (.file content))
    (hx : find? (outer ++ place) t = some x) : place = [] := by
  rw [find?_append, h] at hx
  cases place with
  | nil => rfl
  | cons name place => cases hx

/-- No file stands on the way to a place. -/
def Clear (t : FileTree) (place : List Name) : Prop :=
  ∀ outer content, find? outer t = some (.file content) → outer <+: place → outer = place

theorem clear_of_find? {x : FileTree} (hx : find? place t = some x) : t.Clear place := by
  rintro outer content h ⟨rest, rfl⟩
  rw [eq_nil_of_find?_file h hx, List.append_nil]

theorem clear_concat {entries : List (Name × FileTree)}
    (h : find? place t = some (.directory entries)) (name : Name) : t.Clear (place ++ [name]) := by
  intro outer content hfile hprefix
  rcases List.prefix_concat_iff.1 hprefix with heq | hprefix
  · exact heq
  · rw [clear_of_find? h outer content hfile hprefix, h] at hfile
    cases hfile

/-- A file that stands at a place stays there as it is. -/
def KeepsFile (place : List Name) (t t' : FileTree) : Prop :=
  ∀ content, find? place t = some (.file content) → find? place t' = some (.file content)

theorem KeepsFile.trans {t t' t'' : FileTree} (h : KeepsFile place t t')
    (h' : KeepsFile place t' t'') :
    KeepsFile place t t'' :=
  fun content hfile => h' content (h content hfile)

theorem keepsFile_insert (hclear : t.Clear place)
    (h : ∀ entries, find? place t ≠ some (.directory entries)) (hne : outer ≠ place) :
    KeepsFile outer t (t.insert place entry) := by
  intro content hfile
  rw [find?_insert_apart ?_ ?_, hfile]
  · exact fun hprefix => hne (hclear outer content hfile hprefix)
  · rintro ⟨rest, rfl⟩
    cases hplace : find? place t with
    | none =>
      rw [find?_append, hplace] at hfile
      cases hfile
    | some x =>
      cases x with
      | directory entries => exact h entries hplace
      | file content' =>
        rw [eq_nil_of_find?_file hplace hfile, List.append_nil] at hne
        exact hne rfl

/-! ### Names in a tree -/

/-- A tree in which no name is empty, a sign for a directory or several names in one. -/
inductive Named : FileTree → Prop where
  | file (content : String) : Named (.file content)
  | directory {entries : List (Name × FileTree)} (names : ∀ e ∈ entries, Path.IsName e.1)
      (inner : ∀ e ∈ entries, Named e.2) : Named (.directory entries)

theorem Named.child {x : FileTree} (h : t.Named) (hx : t.child? name = some x) : x.Named := by
  cases h with
  | file content => cases hx
  | directory names inner =>
    obtain ⟨before, after, rfl, -⟩ := List.lookup_eq_some_iff.1 hx
    exact inner _ (List.mem_append_right _ List.mem_cons_self)

theorem Named.find {x : FileTree} (h : t.Named) (hx : find? place t = some x) : x.Named := by
  induction place generalizing t with
  | nil =>
    cases hx
    exact h
  | cons name place ih =>
    obtain ⟨child, hchild, hrest⟩ := Option.bind_eq_some_iff.1 hx
    exact ih (h.child hchild) hrest

@[simp] theorem mem_placesOf {entries : List (Name × FileTree)}
    {found : List Name × Option String} :
    found ∈ placesOf outer entries ↔ ∃ e ∈ entries, found ∈ e.2.places (outer ++ [e.1]) := by
  induction entries with
  | nil => simp [placesOf]
  | cons e entries ih => simp [placesOf, ih]

theorem Named.exists_place (h : t.Named) {found : List Name × Option String}
    (hfound : found ∈ t.places outer) :
    ∃ rest, found.1 = outer ++ rest ∧ ∀ n ∈ rest, Path.IsName n := by
  induction h generalizing outer with
  | file content =>
    rw [places, List.mem_singleton] at hfound
    exact ⟨[], by rw [hfound, List.append_nil], by simp⟩
  | directory names inner ih =>
    rw [places, List.mem_cons, mem_placesOf] at hfound
    rcases hfound with rfl | ⟨e, he, hfound⟩
    · exact ⟨[], (List.append_nil outer).symm, by simp⟩
    · obtain ⟨rest, hrest, hnames⟩ := ih e he hfound
      refine ⟨e.1 :: rest, by rw [hrest, List.append_assoc, List.singleton_append], ?_⟩
      exact List.forall_mem_cons.2 ⟨names e he, hnames⟩

@[simp] theorem mem_files : place ∈ t.files ↔ ∃ content, (place, some content) ∈ t.places [] := by
  simp only [files, List.mem_filterMap, Option.map_eq_some_iff]
  constructor
  · rintro ⟨⟨found, _⟩, hfound, content, rfl, rfl⟩
    exact ⟨content, hfound⟩
  · rintro ⟨content, hfound⟩
    exact ⟨_, hfound, content, rfl, rfl⟩

theorem Named.isName_of_mem_files (h : t.Named) (hmem : place ∈ t.files) :
    ∀ n ∈ place, Path.IsName n := by
  obtain ⟨content, hfound⟩ := mem_files.1 hmem
  obtain ⟨rest, rfl, hnames⟩ := h.exists_place hfound
  exact hnames

theorem Named.eq_file_of_nil_mem_files (h : t.Named) (hmem : [] ∈ t.files) :
    ∃ content, t = .file content := by
  cases h with
  | file content => exact ⟨content, rfl⟩
  | directory names inner =>
    obtain ⟨content, hfound⟩ := mem_files.1 hmem
    rw [places, List.mem_cons, mem_placesOf] at hfound
    rcases hfound with heq | ⟨e, he, hfound⟩
    · cases heq
    · obtain ⟨rest, hrest, -⟩ := (inner e he).exists_place hfound
      cases hrest

end FileTree

/-! ### Places of paths -/

namespace Disk

open LayoutScript.FileTree

variable {d d' : Disk} {p p' : Path} {t : FileTree} {place outer names steps : List Name}
  {content : String}

theorem follow_clear {step : Name} (h : follow t outer step = .ok place) : t.Clear place := by
  unfold follow at h
  split at h
  · cases h
  · cases h
  · next entries hdir =>
    split at h
    · cases h
      exact clear_of_find? hdir
    · split at h
      · cases h
        rcases List.eq_nil_or_concat outer with rfl | ⟨front, name, rfl⟩
        · exact clear_of_find? hdir
        · rw [List.concat_eq_append, find?_append] at hdir
          obtain ⟨x, hx, -⟩ := Option.bind_eq_some_iff.1 hdir
          rw [List.concat_eq_append, List.dropLast_concat]
          exact clear_of_find? hx
      · split at h
        · cases h
        · cases h
          exact clear_concat hdir step

theorem locate_eq_ok (h : d.locate p steps = .ok place) :
    '\x00' ∉ p ∧ steps.foldlM (follow d.tree) (if p.isAbsolute then [] else d.workingDir.names) =
      .ok place := by
  unfold locate at h
  split at h
  · cases h
  · split at h
    · cases h
    · next hnul => exact ⟨fun hmem => hnul (List.contains_iff_mem.2 hmem), h⟩

theorem foldlM_follow_clear (hsteps : steps ≠ []) (h : steps.foldlM (follow t) outer = .ok place) :
    t.Clear place := by
  induction steps generalizing outer with
  | nil => exact absurd rfl hsteps
  | cons step steps ih =>
    rw [List.foldlM_cons] at h
    obtain ⟨inner, hstep, hrest⟩ := exists_of_bind_eq_ok h
    by_cases hnil : steps = []
    · subst hnil
      cases hrest
      exact follow_clear hstep
    · exact ih hnil hrest

theorem locate_clear (h : d.locate p (Path.steps p') = .ok place) : d.tree.Clear place :=
  foldlM_follow_clear (Text.split_ne_nil '/' p') (locate_eq_ok h).2

/-! ### Names that lead to a file -/

/-- Names that a disk takes: none is too long or holds a zero. -/
structure Storable (names : List Name) : Prop where
  noZero : '\x00' ∉ Path.absoluteOfNames names
  short : ∀ n ∈ names, isLong n = false

theorem follow_isName {name : Name} (h : Path.IsName name) :
    follow t outer name = .ok place ↔
      (∃ entries, find? outer t = some (.directory entries)) ∧ isLong name = false ∧
      place = outer ++ [name] := by
  unfold follow
  split
  · next hnone => simp [hnone]
  · next hfile => simp [hfile]
  · next entries hdir =>
    rw [if_neg (by simp [h.ne_nil, h.ne_here]), if_neg h.ne_up]
    cases isLong name <;> simp [hdir, eq_comm]

theorem foldlM_follow_names (h : ∀ n ∈ names, Path.IsName n)
    (hplace : names.foldlM (follow t) outer = .ok place) :
    place = outer ++ names ∧ ∀ n ∈ names, isLong n = false := by
  induction names generalizing outer with
  | nil =>
    cases hplace
    simp
  | cons name names ih =>
    obtain ⟨hname, hnames⟩ := List.forall_mem_cons.1 h
    rw [List.foldlM_cons] at hplace
    obtain ⟨inner, hstep, hrest⟩ := exists_of_bind_eq_ok hplace
    obtain ⟨-, hshort, rfl⟩ := (follow_isName hname).1 hstep
    obtain ⟨rfl, hshorts⟩ := ih hnames hrest
    exact ⟨by simp, List.forall_mem_cons.2 ⟨hshort, hshorts⟩⟩

theorem foldlM_follow_of_find? {x : FileTree} (h : ∀ n ∈ names, Path.IsName n)
    (hshort : ∀ n ∈ names, isLong n = false) (hx : find? (outer ++ names) t = some x) :
    names.foldlM (follow t) outer = .ok (outer ++ names) := by
  induction names generalizing outer with
  | nil => exact congrArg Except.ok (List.append_nil outer).symm
  | cons name names ih =>
    obtain ⟨hname, hnames⟩ := List.forall_mem_cons.1 h
    obtain ⟨hnameShort, hrest⟩ := List.forall_mem_cons.1 hshort
    have hdir : ∃ entries, find? outer t = some (.directory entries) := by
      rw [find?_append] at hx
      obtain ⟨y, hy, hchild⟩ := Option.bind_eq_some_iff.1 hx
      cases y with
      | file content => cases hchild
      | directory entries => exact ⟨entries, hy⟩
    rw [← List.singleton_append, ← List.append_assoc] at hx ⊢
    rw [List.singleton_append, List.foldlM_cons, (follow_isName hname).2 ⟨hdir, hnameShort, rfl⟩]
    exact ih hnames hrest hx

theorem follow_root : follow t []
    [] = .ok place ↔ (∃ entries, t = .directory entries) ∧ place = [] := by
  cases t with
  | file content => simp [follow, find?]
  | directory entries => simp [follow, find?, eq_comm]

section Named

variable (hne : names ≠ []) (h : ∀ n ∈ names, Path.IsName n)

include hne h

theorem locate_names
    (hplace : d.locate (Path.absoluteOfNames names) (Path.absoluteOfNames names).steps =
      .ok place) :
    place = names ∧ Storable names := by
  obtain ⟨hzero, hplace⟩ := locate_eq_ok hplace
  rw [Path.steps_absoluteOfNames hne h, List.foldlM_cons] at hplace
  obtain ⟨inner, hroot, hrest⟩ := exists_of_bind_eq_ok hplace
  obtain ⟨-, rfl⟩ := follow_root.1 hroot
  obtain ⟨rfl, hshort⟩ := foldlM_follow_names h hrest
  exact ⟨rfl, hzero, hshort⟩

theorem locate_of_find? {x : FileTree} (hstorable : Storable names)
    (hx : find? names d.tree = some x) :
    d.locate (Path.absoluteOfNames names) (Path.absoluteOfNames names).steps = .ok names := by
  have hdir : ∃ entries, d.tree = .directory entries := by
    obtain ⟨first, rest, rfl⟩ := List.exists_cons_of_ne_nil hne
    cases htree : d.tree with
    | file content =>
      rw [htree] at hx
      cases hx
    | directory entries => exact ⟨entries, rfl⟩
  have hroot : follow d.tree [] [] = .ok [] := follow_root.2 ⟨hdir, rfl⟩
  rw [locate, if_neg (by simp [Path.absoluteOfNames]),
    if_neg (mt List.contains_iff_mem.1 hstorable.noZero), Path.steps_absoluteOfNames hne h,
    List.foldlM_cons]
  exact (congrArg (· >>= _) hroot).trans (foldlM_follow_of_find? h hstorable.short hx)

theorem read_names (hstorable : Storable names)
    (hfile : find? names d.tree = some (.file content)) :
    d.read (Path.absoluteOfNames names) = .ok content := by
  have hresolve : d.resolve (Path.absoluteOfNames names) = .ok (.file content) := by
    rw [resolve, locate_of_find? hne h hstorable hfile]
    simp only [bind, Except.bind, hfile]
    rfl
  rw [read, hresolve]

end Named

theorem resolve_eq_ok (h : d.resolve p = .ok t) : ∃ place, find? place d.tree = some t := by
  obtain ⟨place, -, hplace⟩ := exists_of_bind_eq_ok h
  split at hplace
  · cases hplace
  · next hfound =>
    cases hplace
    exact ⟨place, hfound⟩

/-! ### Writing -/

theorem write_eq_ok (h : d.write p content = .ok d') : ∃ place, d.locate p p.steps = .ok place ∧
    (∀ entries, find? place d.tree ≠ some (.directory entries)) ∧
    d'.tree = d.tree.insert place (.file content) := by
  unfold write at h
  split at h
  · cases h
  · next place hplace =>
    split at h
    · cases h
    · next hdir =>
      cases h
      exact ⟨place, hplace, hdir, rfl⟩

theorem makeDirectory_keepsFile (h : d.makeDirectory p = .ok d') (place : List Name) :
    KeepsFile place d.tree d'.tree := by
  unfold makeDirectory at h
  split at h
  · cases h
  · next made hmade =>
    split at h
    · cases h
    · next hnone =>
      cases h
      intro content hfile
      have hne : place ≠ made := by
        rintro rfl
        rw [hnone] at hfile
        cases hfile
      refine keepsFile_insert (locate_clear hmade) (fun entries hdir => ?_) hne content hfile
      rw [hnone] at hdir
      cases hdir

theorem makeEach_keepsFile (paths : List Path) (d : Disk) (place : List Name) :
    KeepsFile place d.tree (makeEach paths d).1.tree := by
  induction paths with
  | nil => exact fun _ hfile => hfile
  | cons p paths ih =>
    rw [makeEach]
    split
    · exact fun _ hfile => hfile
    · exact fun _ hfile => hfile
    · split
      · next heq =>
        rw [heq] at ih
        exact ih
      · next heq =>
        rw [heq] at ih
        split
        · next hmade => exact ih.trans (makeDirectory_keepsFile hmade place)
        · exact ih

end Disk

/-- Directories are made before a script is written, and they are all that is left if it is not. -/
theorem writeTarget_cases {d d' : Disk} {target : Path} {script : String} {fault : Option Fault}
    (h : writeTarget d target script = (d', fault)) :
    ∃ made : Disk, (∀ place, FileTree.KeepsFile place d.tree made.tree) ∧
      (d' = made ∧ fault ≠ none ∨ made.write target script = .ok d' ∧ fault = none) := by
  have hmade :=
    Disk.makeEach_keepsFile (target.parent :: (Disk.startsAfter [] target.parent).reverse) d
  unfold writeTarget Disk.makeDirectories at h
  split at h
  · next made e heq =>
    rw [heq] at hmade
    cases h
    exact ⟨d', hmade, .inl ⟨rfl, by simp⟩⟩
  · next made heq =>
    rw [heq] at hmade
    split at h
    · cases h
      exact ⟨d', hmade, .inl ⟨rfl, by simp⟩⟩
    · next hwrite =>
      cases h
      exact ⟨made, hmade, .inr ⟨hwrite, rfl⟩⟩

section Script

variable {d d' : Disk} {names place : List Name} {script : String} {fault : Option Fault}
  (hne : names ≠ []) (hnames : ∀ n ∈ names, Path.IsName n)

include hne hnames

theorem writeTarget_writes (h : writeTarget d (Path.absoluteOfNames names) script = (d', none)) :
    Disk.Storable names ∧ FileTree.find? names d'.tree = some (.file script) := by
  obtain ⟨made, -, hfault | ⟨hwrite, -⟩⟩ := writeTarget_cases h
  · exact absurd rfl hfault.2
  · obtain ⟨written, hplace, -, htree⟩ := Disk.write_eq_ok hwrite
    obtain ⟨rfl, hstorable⟩ := Disk.locate_names hne hnames hplace
    rw [htree]
    exact ⟨hstorable, FileTree.find?_insert_self _ _ _⟩

/-- A file elsewhere stays, and so does the file at the place of the script if it holds the
script. -/
theorem writeTarget_keeps {content : String}
    (h : writeTarget d (Path.absoluteOfNames names) script = (d', fault))
    (hfile : FileTree.find? place d.tree = some (.file content))
    (hsame : names = place → script = content) :
    FileTree.find? place d'.tree = some (.file content) := by
  obtain ⟨made, hmade, ⟨rfl, -⟩ | ⟨hwrite, rfl⟩⟩ := writeTarget_cases h
  · exact hmade place content hfile
  · by_cases hplace : names = place
    · rw [← hplace, ← hsame hplace]
      exact (writeTarget_writes hne hnames h).2
    · obtain ⟨written, hwritten, hdir, htree⟩ := Disk.write_eq_ok hwrite
      have hclear := Disk.locate_clear hwritten
      obtain ⟨rfl, -⟩ := Disk.locate_names hne hnames hwritten
      rw [htree]
      exact FileTree.keepsFile_insert hclear hdir (Ne.symm hplace) content
        (hmade place content hfile)

end Script

end LayoutScript

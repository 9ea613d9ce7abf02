import LayoutScript.Project
import LayoutScript.Proofs.BuildSchedule
import LayoutScript.Proofs.CleanPaths
import LayoutScript.Proofs.DiskFiles

/-! Where the scripts of a build go. The script of a source takes the names of the source below the
directory of the sources, so it lies below the directory of the scripts, and no other source has its
place. -/
namespace LayoutScript

open LayoutScript.Path

theorem exists_of_mem_mapM {f : α → Except ε β} {xs : List α} {ys : List β} (h : xs.mapM f = .ok ys)
    {y : β} (hy : y ∈ ys) : ∃ x ∈ xs, f x = .ok y := by
  induction xs generalizing ys with
  | nil =>
    cases h
    cases hy
  | cons x xs ih =>
    rw [List.mapM_cons] at h
    obtain ⟨first, hfirst, h⟩ := exists_of_bind_eq_ok h
    obtain ⟨rest, hrest, h⟩ := exists_of_bind_eq_ok h
    cases h
    rcases List.mem_cons.1 hy with rfl | hy
    · exact ⟨x, List.mem_cons_self, hfirst⟩
    · obtain ⟨x', hx', hfx⟩ := ih hrest hy
      exact ⟨x', List.mem_cons_of_mem _ hx', hfx⟩

theorem isName_script {stem : Name} (h : '/' ∉ stem) : IsName (stem ++ targetExtension) := by
  have hlast : (stem ++ targetExtension).getLast? = some 's' := by
    rw [List.getLast?_append]
    rfl
  have hne {name : Name} (hother : name.getLast? ≠ some 's') : stem ++ targetExtension ≠ name := by
    rintro rfl
    exact hother hlast
  refine ⟨hne (by decide), hne (by decide), hne (by decide), ?_⟩
  rw [List.mem_append, not_or]
  exact ⟨h, by decide⟩

namespace Project

variable {p : Project} {source target : Path}

theorem isAbsolute_sourceDir (hroot : p.root.isAbsolute = true) : p.sourceDir.isAbsolute = true :=
  isAbsolute_join hroot _

theorem isAbsolute_outDir (hroot : p.root.isAbsolute = true) : p.outDir.isAbsolute = true :=
  isAbsolute_join hroot _

/-- What is known of a script's place: the names of the source below its directory, the last one
with the extension of scripts. -/
structure Places (p : Project) (rest before : List Name) (stem : Name) (target : Path) : Prop where
  renamed : (relativeOfNames rest).replaceExtension targetExtension =
    relativeOfNames (before ++ [stem ++ targetExtension])
  isName : ∀ n ∈ before ++ [stem ++ targetExtension], IsName n
  target_eq : target = absoluteOfNames (p.outDir.names ++ (before ++ [stem ++ targetExtension]))

theorem exists_places (hroot : p.root.isAbsolute = true) (h : p.target source = .ok target) :
    ∃ rest before stem, source.names = p.sourceDir.names ++ rest ∧
      p.Places rest before stem target := by
  have hdir := isAbsolute_sourceDir hroot
  unfold Project.target at h
  split at h
  · cases h
  · next path hpath =>
    split at h
    · cases h
    · next hinside =>
      rw [relativeTo?, hdir, Bool.true_and] at hpath
      split at hpath
      · next hsource =>
        obtain ⟨common, hleft, hrest⟩ := dropCommon_spec p.sourceDir.names source.names
        generalize hpair : dropCommon p.sourceDir.names source.names = pair at hpath hleft hrest
        obtain ⟨left, rest⟩ := pair
        cases hpath
        dsimp only at hinside hleft hrest h
        cases left with
        | cons first left => exact absurd (isPrefixOf_relativeOfNames _) hinside
        | nil =>
          rw [List.append_nil] at hleft
          have hnames := names_isName hsource
          rw [hrest, ← hleft, List.forall_mem_append] at hnames
          obtain ⟨before, stem, hrenamed, hbefore, hstem⟩ := exists_renamed hnames.2 targetExtension
          have hisName : ∀ n ∈ before ++ [stem ++ targetExtension], IsName n :=
            List.forall_mem_append.2 ⟨hbefore, List.forall_mem_singleton.2 (isName_script hstem)⟩
          refine ⟨rest, before, stem, by rw [hrest, ← hleft], hrenamed, hisName, ?_⟩
          rw [← Except.ok.inj h, List.map_nil, List.nil_append, hrenamed,
            join_relativeOfNames (isAbsolute_outDir hroot) hisName]
      · cases hpath

theorem Places.isName_all (hroot : p.root.isAbsolute = true) {rest before : List Name} {stem : Name}
    (h : p.Places rest before stem target) :
    ∀ n ∈ p.outDir.names ++ (before ++ [stem ++ targetExtension]), IsName n :=
  List.forall_mem_append.2 ⟨names_isName (isAbsolute_outDir hroot), h.isName⟩

theorem target_below (hroot : p.root.isAbsolute = true) (h : p.target source = .ok target) :
    Below p.outDir target ∧ targetExtension <:+ target.base := by
  obtain ⟨rest, before, stem, -, hplaces⟩ := exists_places hroot h
  have hisName := hplaces.isName _ (List.mem_append_right _ List.mem_cons_self)
  rw [hplaces.target_eq]
  refine ⟨below_absoluteOfNames (hplaces.isName_all hroot) (by simp), ?_⟩
  obtain ⟨front, hfront⟩ :=
    @absoluteOfNames_append [stem ++ targetExtension] (p.outDir.names ++ before) (by simp)
  rw [← List.append_assoc, hfront, relativeOfNames_of_ne_nil (by simp)]
  simp only [List.intercalate, List.intersperse, List.flatten_cons, List.flatten_nil,
    List.append_nil]
  rw [base_append hisName.ne_nil hisName.whole]
  exact List.suffix_append stem targetExtension

/-! ### No place twice -/

theorem exists_replaceExtension {path : Path} (h : sourceExtension <:+ path) :
    ∃ stem, path = stem ++ sourceExtension ∧
      path.replaceExtension targetExtension = stem ++ targetExtension := by
  obtain ⟨stem, rfl⟩ := h
  have hext : extension (stem ++ sourceExtension) = sourceExtension :=
    @extension_eq "loto".toList (by decide) (by decide) stem
  exact ⟨stem, rfl, replaceExtension_eq (by rw [hext]) targetExtension⟩

theorem relativeOfNames_of_below {rest : List Name} (h : Below p.sourceDir source)
    (hext : sourceExtension <:+ source) (hrest : source.names = p.sourceDir.names ++ rest) :
    rest ≠ [] ∧ (∀ n ∈ rest, IsName n) ∧ sourceExtension <:+ relativeOfNames rest := by
  have hne : rest ≠ [] := by
    obtain ⟨rest', hne', hrest'⟩ := h.inside
    rw [hrest, List.append_cancel_left_eq] at hrest'
    rwa [hrest']
  have hnames := names_isName h.absolute
  rw [hrest, List.forall_mem_append] at hnames
  refine ⟨hne, hnames.2, ?_⟩
  obtain ⟨front, hfront⟩ := @absoluteOfNames_append rest p.sourceDir.names hne
  rw [h.eq_absoluteOfNames, hrest, hfront] at hext
  exact suffix_of_suffix_slash (by decide) hext

theorem eq_of_target_eq {a b : Path} (hroot : p.root.isAbsolute = true)
    (ha : Below p.sourceDir a) (hb : Below p.sourceDir b)
    (haext : sourceExtension <:+ a) (hbext : sourceExtension <:+ b)
    (hatarget : p.target a = .ok target) (hbtarget : p.target b = .ok target) : a = b := by
  obtain ⟨rest, before, stem, hrest, hplaces⟩ := exists_places hroot hatarget
  obtain ⟨rest', before', stem', hrest', hplaces'⟩ := exists_places hroot hbtarget
  obtain ⟨hne, hnames, hext⟩ := relativeOfNames_of_below ha haext hrest
  obtain ⟨hne', hnames', hext'⟩ := relativeOfNames_of_below hb hbext hrest'
  obtain ⟨front, hfront, hreplaced⟩ := exists_replaceExtension hext
  obtain ⟨front', hfront', hreplaced'⟩ := exists_replaceExtension hext'
  have htarget := absoluteOfNames_injective (hplaces.isName_all hroot) (hplaces'.isName_all hroot)
    (hplaces.target_eq ▸ hplaces'.target_eq)
  rw [List.append_cancel_left_eq] at htarget
  have hstems : front ++ targetExtension = front' ++ targetExtension := by
    rw [← hreplaced, ← hreplaced', hplaces.renamed, hplaces'.renamed, htarget]
  rw [List.append_cancel_right_eq] at hstems
  have hsame : rest = rest' := by
    apply relativeOfNames_injective hne hne' hnames hnames'
    rw [hfront, hfront', hstems]
  rw [ha.eq_absoluteOfNames, hb.eq_absoluteOfNames, hrest, hrest', hsame]

/-! ### Writing all scripts -/

open LayoutScript.FileTree

variable {d : Disk} {compiled : List Compiled} {place : List Name} {content : String}

theorem emit_cons_cases (p : Project) (c : Compiled) (rest : List Compiled) (d : Disk) :
    (∃ fault, p.target c.source.toList = .error fault ∧
      p.emit (c :: rest) d = (d, ⟨[], [], some fault⟩)) ∨
    (∃ target next fault, p.target c.source.toList = .ok target ∧
      writeTarget d target c.script = (next, some fault) ∧
      p.emit (c :: rest) d = (next, ⟨[], [], some fault⟩)) ∨
    ∃ target next, p.target c.source.toList = .ok target ∧
      writeTarget d target c.script = (next, none) ∧
      (p.emit (c :: rest) d).1 = (p.emit rest next).1 ∧
      (p.emit (c :: rest) d).2.outputs = ⟨c.source.toList, target⟩ :: (p.emit rest next).2.outputs ∧
      (p.emit (c :: rest) d).2.fault = (p.emit rest next).2.fault := by
  rw [emit]
  split
  · next fault htarget => exact .inl ⟨fault, htarget, rfl⟩
  · next target htarget =>
    split
    · next next fault hwrite => exact .inr (.inl ⟨target, next, fault, htarget, hwrite, rfl⟩)
    · next next hwrite => exact .inr (.inr ⟨target, next, htarget, hwrite, rfl, rfl, rfl⟩)

theorem emit_cons (p : Project) (c : Compiled) (rest : List Compiled) (d : Disk) :
    ((∀ place, KeepsFile place d.tree (p.emit (c :: rest) d).1.tree) ∧
      (p.emit (c :: rest) d).2.outputs = []) ∨
    ∃ target next, p.target c.source.toList = .ok target ∧
      writeTarget d target c.script = (next, none) ∧
      (p.emit (c :: rest) d).1 = (p.emit rest next).1 ∧
      (p.emit (c :: rest) d).2.outputs =
        ⟨c.source.toList, target⟩ :: (p.emit rest next).2.outputs := by
  rcases emit_cons_cases p c rest d with
    ⟨fault, -, hstop⟩ | ⟨target, next, fault, -, hwrite, hstop⟩ |
    ⟨target, next, htarget, hwrite, hdisk, houtputs, -⟩
  · rw [hstop]
    exact .inl ⟨fun place content hfile => hfile, rfl⟩
  · rw [hstop]
    obtain ⟨made, hmade, ⟨rfl, -⟩ | ⟨-, hnone⟩⟩ := writeTarget_cases hwrite
    · exact .inl ⟨hmade, rfl⟩
    · cases hnone
  · exact .inr ⟨target, next, htarget, hwrite, hdisk, houtputs⟩

theorem target_names (hroot : p.root.isAbsolute = true) (h : p.target source = .ok target) :
    target = absoluteOfNames target.names ∧ target.names ≠ [] ∧ ∀ n ∈ target.names, IsName n := by
  obtain ⟨hbelow, -⟩ := target_below hroot h
  obtain ⟨rest, hne, hrest⟩ := hbelow.inside
  refine ⟨hbelow.eq_absoluteOfNames, ?_, names_isName hbelow.absolute⟩
  rw [hrest]
  exact List.append_ne_nil_of_right_ne_nil _ hne

/-- A file stays while scripts are written to other places, or are the same. -/
theorem emit_keeps (hroot : p.root.isAbsolute = true)
    (hfile : find? place d.tree = some (.file content))
    (hsame : ∀ c ∈ compiled, ∀ target, p.target c.source.toList = .ok target →
      target.names = place →
      c.script = content) :
    find? place (p.emit compiled d).1.tree = some (.file content) := by
  induction compiled generalizing d with
  | nil => exact hfile
  | cons c rest ih =>
    obtain ⟨hc, hrest⟩ := List.forall_mem_cons.1 hsame
    rcases emit_cons p c rest d with ⟨hkeeps, -⟩ | ⟨target, next, htarget, hwrite, hnext, -⟩
    · exact hkeeps place content hfile
    · obtain ⟨heq, hne, hnames⟩ := target_names hroot htarget
      rw [heq] at hwrite
      rw [hnext]
      exact ih (writeTarget_keeps hne hnames hwrite hfile (hc target htarget)) hrest

theorem emit_outputs (hroot : p.root.isAbsolute = true)
    (hsame : ∀ a ∈ compiled, ∀ b ∈ compiled, ∀ target, p.target a.source.toList = .ok target →
      p.target b.source.toList = .ok target → a.script = b.script) :
    ∀ o ∈ (p.emit compiled d).2.outputs, ∃ c ∈ compiled, o.source = c.source.toList ∧
      p.target o.source = .ok o.target ∧ (p.emit compiled d).1.read o.target = .ok c.script := by
  induction compiled generalizing d with
  | nil => exact fun o ho => absurd ho List.not_mem_nil
  | cons c rest ih =>
    rcases emit_cons p c rest d with ⟨-, hnone⟩ | ⟨target, next, htarget, hwrite, hnext, houtputs⟩
    · rw [hnone]
      exact fun o ho => absurd ho List.not_mem_nil
    · rw [houtputs, hnext]
      refine List.forall_mem_cons.2 ⟨⟨c, List.mem_cons_self, rfl, htarget, ?_⟩, fun o ho => ?_⟩
      · obtain ⟨heq, hne, hnames⟩ := target_names hroot htarget
        rw [heq] at hwrite
        obtain ⟨hstorable, hfile⟩ := writeTarget_writes hne hnames hwrite
        rw [heq]
        refine Disk.read_names hne hnames hstorable
          (emit_keeps hroot hfile fun b hb other hother hplace => ?_)
        have hplaces : other = target := by rw [(target_names hroot hother).1, hplace, ← heq]
        rw [hplaces] at hother
        exact hsame b (List.mem_cons_of_mem _ hb) c List.mem_cons_self target hother htarget
      · obtain ⟨b, hb, hfacts⟩ := ih (fun a ha b hb =>
          hsame a (List.mem_cons_of_mem _ ha) b (List.mem_cons_of_mem _ hb)) o ho
        exact ⟨b, List.mem_cons_of_mem _ hb, hfacts⟩

/-! ### Sources of a build -/

theorem compileFile_source {options : Script.Options} {c : Compiled}
    (h : compileFile options d source = .ok c) :
    c.source.toList = source := by
  unfold compileFile compile at h
  split at h
  · cases h
  · split at h
    · cases h
    · split at h
      · cases h
      · cases h
        exact String.toList_ofList

theorem build_cases (p : Project) (cancelled : Bool) (d : Disk) :
    (p.build cancelled d).2.outputs = [] ∨
    ∃ sources compiled, p.sources d = .ok sources ∧
      sources.mapM (p.compileSource d) = .ok compiled ∧
      p.build cancelled d = p.emit compiled d := by
  rw [build]
  split
  · exact .inl rfl
  · next compiled hall =>
    obtain ⟨sources, hsources, hall⟩ := exists_of_bind_eq_ok hall
    split at hall
    · cases hall
    · exact .inr ⟨sources, compiled, hsources, hall, rfl⟩

section Listed

variable {sources : List Path} (hsources : p.sources d = .ok sources)

include hsources

theorem extension_of_mem_sources (hmem : source ∈ sources) : sourceExtension <:+ source := by
  obtain ⟨t, -, rfl⟩ := exists_listing hsources
  rw [List.mem_mergeSort, sourcePaths, List.mem_filter, beq_iff_eq] at hmem
  obtain ⟨stem, hstem⟩ := exists_stem source
  rw [hmem.2] at hstem
  exact ⟨stem, hstem.symm⟩

/-- The sources are below their directory, unless it is a file and the only source itself. -/
theorem below_of_sources (hroot : p.root.isAbsolute = true) (hnamed : d.tree.Named) :
    (∀ a ∈ sources, Below p.sourceDir a) ∨
    ∀ a ∈ sources, a = absoluteOfNames p.sourceDir.names := by
  obtain ⟨t, hlist, rfl⟩ := exists_listing hsources
  have ht : t.Named := by
    cases hresolve : d.resolve p.sourceDir with
    | error cause =>
      rw [Disk.list, hresolve] at hlist
      cases hlist
    | ok t' =>
      rw [Disk.list, hresolve] at hlist
      cases hlist
      obtain ⟨place, hplace⟩ := Disk.resolve_eq_ok hresolve
      exact hnamed.find hplace
  have hmem (a : Path) (ha : a ∈ (p.sourcePaths t).mergeSort Path.le) :
      ∃ place ∈ t.files, absoluteOfNames (p.sourceDir.names ++ place) = a := by
    rw [List.mem_mergeSort, sourcePaths, List.mem_filter] at ha
    exact List.mem_map.1 ha.1
  by_cases hnil : [] ∈ t.files
  · obtain ⟨content, rfl⟩ := ht.eq_file_of_nil_mem_files hnil
    refine .inr fun a ha => ?_
    obtain ⟨place, hplace, rfl⟩ := hmem a ha
    cases List.mem_singleton.1 hplace
    rw [List.append_nil]
  · refine .inl fun a ha => ?_
    obtain ⟨place, hplace, rfl⟩ := hmem a ha
    have hnames := List.forall_mem_append.2
      ⟨names_isName (isAbsolute_sourceDir hroot), ht.isName_of_mem_files hplace⟩
    exact below_absoluteOfNames hnames fun heq => hnil (heq ▸ hplace)

theorem eq_of_mem_sources (hroot : p.root.isAbsolute = true) (hnamed : d.tree.Named) {a b : Path}
    (ha : a ∈ sources) (hb : b ∈ sources) (hatarget : p.target a = .ok target)
    (hbtarget : p.target b = .ok target) : a = b := by
  rcases below_of_sources hsources hroot hnamed with hbelow | hall
  · exact eq_of_target_eq hroot (hbelow a ha) (hbelow b hb) (extension_of_mem_sources hsources ha)
      (extension_of_mem_sources hsources hb) hatarget hbtarget
  · rw [hall a ha, hall b hb]

end Listed

theorem build_outputs (hroot : p.root.isAbsolute = true) (hnamed : d.tree.Named)
    (cancelled : Bool) :
    ∀ o ∈ (p.build cancelled d).2.outputs, p.target o.source = .ok o.target ∧
      (∃ c, compileFile p.options d o.source = .ok c ∧
        (p.build cancelled d).1.read o.target = .ok c.script) ∧
      ∀ o' ∈ (p.build cancelled d).2.outputs, o'.target = o.target → o' = o := by
  rcases build_cases p cancelled d with hnone | ⟨sources, compiled, hsources, hcompiled, hbuild⟩
  · rw [hnone]
    exact fun o ho => absurd ho List.not_mem_nil
  · rw [hbuild]
    have hmem (c : Compiled) (hc : c ∈ compiled) :
        c.source.toList ∈ sources ∧ compileFile p.options d c.source.toList = .ok c := by
      obtain ⟨source, hsource, hok⟩ := exists_of_mem_mapM hcompiled hc
      have hfile := compileFile_eq_ok hok
      rw [compileFile_source hfile]
      exact ⟨hsource, hfile⟩
    have hall := @emit_outputs p d compiled hroot fun a ha b hb target hatarget hbtarget => by
      have hsame :=
        eq_of_mem_sources hsources hroot hnamed (hmem a ha).1 (hmem b hb).1 hatarget hbtarget
      have hfile := (hmem a ha).2
      rw [hsame, (hmem b hb).2] at hfile
      cases hfile
      rfl
    intro o ho
    obtain ⟨c, hc, hsource, htarget, hread⟩ := hall o ho
    refine ⟨htarget, ⟨c, hsource ▸ (hmem c hc).2, hread⟩, fun o' ho' hsame => ?_⟩
    obtain ⟨c', hc', hsource', htarget', -⟩ := hall o' ho'
    have heq : o'.source = o.source := by
      apply eq_of_mem_sources hsources hroot hnamed (hsource' ▸ (hmem c' hc').1)
        (hsource ▸ (hmem c hc).1)
        htarget'
      rw [hsame, htarget]
    cases o
    cases o'
    cases heq
    cases hsame
    rfl

/-- Every script lies below the directory of the scripts and has their extension in its name.
Different sources below the directory of the sources have different scripts, so when a build is
over, each output it reports holds the script of its source. -/
theorem targets_below_and_apart {p : Project} (hroot : p.root.isAbsolute = true) :
    (∀ source target, p.target source = .ok target →
      Below p.outDir target ∧ targetExtension <:+ target.base) ∧
    (∀ a b atarget btarget, Below p.sourceDir a → Below p.sourceDir b →
      sourceExtension <:+ a → sourceExtension <:+ b → a ≠ b →
      p.target a = .ok atarget → p.target b = .ok btarget → atarget ≠ btarget) ∧
    ∀ d cancelled, d.tree.Named → ∀ o ∈ (p.build cancelled d).2.outputs,
      p.target o.source = .ok o.target ∧
      (∃ c, compileFile p.options d o.source = .ok c ∧
        (p.build cancelled d).1.read o.target = .ok c.script) ∧
      ∀ o' ∈ (p.build cancelled d).2.outputs, o'.target = o.target → o' = o := by
  refine ⟨fun source target => target_below hroot, ?_,
    fun d cancelled hnamed => build_outputs hroot hnamed cancelled⟩
  rintro a b atarget btarget ha hb haext hbext hne hatarget hbtarget rfl
  exact hne (eq_of_target_eq hroot ha hb haext hbext hatarget hbtarget)

end Project

def dottedProject : Project where
  root := "/p".toList
  manifest := ⟨"demo", "0.1.0", "src", "src/../out", none⟩

def dottedDisk : Disk where
  tree := .directory [("p".toList, .directory [("src".toList, .directory [
    ("a.js.loto".toList, .file ""), (".loto".toList, .file ""), ("a.loto".toList, .file "")])])]
  workingDir := "/".toList

def dottedSources : List Path :=
  ["/p/src/.loto".toList, "/p/src/a.js.loto".toList, "/p/src/a.loto".toList]

def dottedOutputs : List Output := [⟨"/p/src/.loto".toList, "/p/out/.js".toList⟩,
  ⟨"/p/src/a.js.loto".toList, "/p/out/a.js.js".toList⟩,
  ⟨"/p/src/a.loto".toList, "/p/out/a.js".toList⟩]

theorem targets_below_and_apart_dotted :
    dottedDisk.tree.Named ∧ (dottedProject.build false dottedDisk).2.outputs = dottedOutputs ∧
    (∀ o ∈ dottedOutputs, Below dottedProject.sourceDir o.source ∧ sourceExtension <:+ o.source ∧
      dottedProject.target o.source = .ok o.target ∧
      Below dottedProject.outDir o.target ∧ targetExtension <:+ o.target.base ∧
      ∃ c, compileFile dottedProject.options dottedDisk o.source = .ok c ∧
        (dottedProject.build false dottedDisk).1.read o.target = .ok c.script) ∧
    ∀ a ∈ dottedOutputs, ∀ b ∈ dottedOutputs, a.source ≠ b.source → a.target ≠ b.target := by
  obtain ⟨hbelow, hapart, hbuild⟩ := @Project.targets_below_and_apart dottedProject rfl
  have hnamed : dottedDisk.tree.Named := by
    have hfiles : ∀ e ∈ [("a.js.loto".toList, FileTree.file ""), (".loto".toList, .file ""),
        ("a.loto".toList, .file "")], e.2.Named :=
      List.forall_mem_cons.2
        ⟨.file "", List.forall_mem_cons.2 ⟨.file "", List.forall_mem_singleton.2 (.file "")⟩⟩
    exact .directory (by decide) (List.forall_mem_singleton.2
      (.directory (by decide) (List.forall_mem_singleton.2 (.directory (by decide) hfiles))))
  have houtputs : (dottedProject.build false dottedDisk).2.outputs = dottedOutputs := by
    have hsources : dottedProject.sources dottedDisk = .ok dottedSources :=
      Project.sources_eq_ok (by decide +kernel) (by decide +kernel)
    have hemit :
        ((dottedSources.mapM (dottedProject.compileSource dottedDisk)).toOption.map fun compiled =>
        (dottedProject.emit compiled dottedDisk).2.outputs) =
        some dottedOutputs := by decide +kernel
    cases hcompiled : dottedSources.mapM (dottedProject.compileSource dottedDisk) with
    | error f =>
      rw [hcompiled] at hemit
      cases hemit
    | ok compiled =>
      rw [hcompiled] at hemit
      rw [Project.build_eq hsources hcompiled]
      exact Option.some.inj hemit
  have hplaces : ∀ o ∈ dottedOutputs, Below dottedProject.sourceDir o.source ∧
      sourceExtension <:+ o.source := by
    have hinside : ∀ o ∈ dottedOutputs, o.source.isAbsolute = true ∧ o.source.clean = o.source ∧
        o.source.names = dottedProject.sourceDir.names ++ [o.source.base] ∧
          sourceExtension <:+ o.source := by
      decide +kernel
    intro o ho
    obtain ⟨habsolute, hclean, hnames, hext⟩ := hinside o ho
    exact ⟨⟨habsolute, hclean, _, List.cons_ne_nil _ _, hnames⟩, hext⟩
  have hreads := hbuild dottedDisk false hnamed
  rw [houtputs] at hreads
  refine ⟨hnamed, houtputs, fun o ho => ?_, fun a ha b hb hne => ?_⟩
  · obtain ⟨htarget, hread, -⟩ := hreads o ho
    obtain ⟨hsource, hext⟩ := hplaces o ho
    obtain ⟨hout, hjs⟩ := hbelow _ _ htarget
    exact ⟨hsource, hext, htarget, hout, hjs, hread⟩
  · obtain ⟨hasource, haext⟩ := hplaces a ha
    obtain ⟨hbsource, hbext⟩ := hplaces b hb
    exact hapart _ _ _ _ hasource hbsource haext hbext hne (hreads a ha).1 (hreads b hb).1

end LayoutScript

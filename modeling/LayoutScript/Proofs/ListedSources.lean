import Mathlib.Data.List.TakeWhile
import LayoutScript.Proofs.BuildTargets

/-! Which of the listed sources can be built. A name may start with two dots and still be a name,
but a path that starts with two dots counts as a way up. So a file or directory of such a name,
right below the directory of the sources, is listed and compiled, and then it stops the build behind
the scripts that are already written. -/
namespace LayoutScript

open LayoutScript.Path

theorem Path.up_isPrefixOf_relativeOfNames {names : List Name} (h : ∀ n ∈ names, IsName n) :
    up.isPrefixOf (relativeOfNames names) = names.head?.any up.isPrefixOf := by
  cases names with
  | nil => rfl
  | cons name names =>
    rw [relativeOfNames_of_ne_nil (List.cons_ne_nil _ _), List.head?_cons, Option.any_some]
    cases names with
    | nil => rw [List.intercalate_singleton]
    | cons second names =>
      have hne := (h name List.mem_cons_self).ne_nil
      rw [List.intercalate_cons_cons]
      match name with
      | [] => exact absurd rfl hne
      | [c] => simp [up, List.isPrefixOf]
      | c :: c' :: name => rfl

theorem Path.dropCommon_append (names rest : List Name) :
    dropCommon names (names ++ rest) = ([], rest) := by
  induction names with
  | nil => rfl
  | cons name names ih => rw [List.cons_append, dropCommon, if_pos rfl, ih]

namespace Project

variable {p : Project} {d : Disk} {source : Path} {sources : List Path} {compiled : List Compiled}

/-- The first name below the directory of the sources starts with two dots. -/
def startsDotted (p : Project) (source : Path) : Bool :=
  (source.names.drop p.sourceDir.names.length).head?.any up.isPrefixOf

/-! ### One source -/

theorem target_of_names {rest : List Name} (hroot : p.root.isAbsolute = true)
    (hsource : source.isAbsolute = true) (hrest : source.names = p.sourceDir.names ++ rest) :
    p.target source = if p.startsDotted source = true then
      .error (.project (.outside source p.sourceDir))
      else .ok (p.outDir.join ((relativeOfNames rest).replaceExtension targetExtension)) := by
  have hrelative : p.sourceDir.relativeTo? source = some (relativeOfNames rest) := by
    rw [relativeTo?, isAbsolute_sourceDir hroot, hsource, hrest, dropCommon_append]
    rfl
  have hnames := names_isName hsource
  rw [hrest, List.forall_mem_append] at hnames
  rw [target, hrelative, startsDotted, hrest, List.drop_left,
    ← up_isPrefixOf_relativeOfNames hnames.2]

theorem exists_names_of_mem_sources (hroot : p.root.isAbsolute = true) (hnamed : d.tree.Named)
    (hsources : p.sources d = .ok sources) (hmem : source ∈ sources) :
    ∃ rest, source.names = p.sourceDir.names ++ rest := by
  rcases below_of_sources hsources hroot hnamed with hbelow | hall
  · obtain ⟨rest, -, hrest⟩ := (hbelow source hmem).inside
    exact ⟨rest, hrest⟩
  · refine ⟨[], ?_⟩
    rw [hall source hmem, names_absoluteOfNames (names_isName (isAbsolute_sourceDir hroot)),
      List.append_nil]

theorem target_of_mem_sources (hroot : p.root.isAbsolute = true) (hnamed : d.tree.Named)
    (hsources : p.sources d = .ok sources) (hmem : source ∈ sources) :
    if p.startsDotted source = true then
      p.target source = .error (.project (.outside source p.sourceDir))
    else ∃ target, p.target source = .ok target := by
  obtain ⟨rest, hrest⟩ := exists_names_of_mem_sources hroot hnamed hsources hmem
  rw [target_of_names hroot (isAbsolute_of_mem_sources hsources hmem) hrest]
  split
  · rfl
  · exact ⟨_, rfl⟩

theorem map_source_compiled (h : sources.mapM (p.compileSource d) = .ok compiled) :
    compiled.map (fun c => c.source.toList) = sources := by
  induction sources generalizing compiled with
  | nil =>
    cases h
    rfl
  | cons source sources ih =>
    rw [List.mapM_cons] at h
    obtain ⟨first, hfirst, h⟩ := exists_of_bind_eq_ok h
    obtain ⟨rest, hrest, h⟩ := exists_of_bind_eq_ok h
    cases h
    rw [List.map_cons, ih hrest, compileFile_source (compileFile_eq_ok hfirst)]

/-! ### All sources -/

/-- A script cannot be written to its place on the disk that the scripts before it leave. -/
def WriteFails (p : Project) (compiled : List Compiled) (d : Disk) (fault : Fault) : Prop :=
  ∃ before c after target, compiled = before ++ c :: after ∧ (p.emit before d).2.fault = none ∧
    p.target c.source.toList = .ok target ∧
      (writeTarget (p.emit before d).1 target c.script).2 = some fault

section Written

variable {c : Compiled} {target : Path} {next : Disk}
  (htarget : p.target c.source.toList = .ok target)

include htarget

theorem emit_written (hwrite : writeTarget d target c.script = (next, none))
    (rest : List Compiled) :
    (p.emit (c :: rest) d).1 = (p.emit rest next).1 ∧
    (p.emit (c :: rest) d).2.outputs = ⟨c.source.toList, target⟩ :: (p.emit rest next).2.outputs ∧
    (p.emit (c :: rest) d).2.fault = (p.emit rest next).2.fault := by
  simp only [emit, htarget, hwrite, and_self]

theorem emit_unwritten {fault : Fault} (hwrite : (writeTarget d target c.script).2 = some fault)
    (rest : List Compiled) : (p.emit (c :: rest) d).2.fault = some fault := by
  cases hresult : writeTarget d target c.script with
  | mk next outcome =>
    rw [hresult] at hwrite
    cases hwrite
    simp only [emit, htarget, hresult]

theorem WriteFails.cons {fault : Fault} (hwrite : writeTarget d target c.script = (next, none))
    (h : p.WriteFails compiled next fault) : p.WriteFails (c :: compiled) d fault := by
  obtain ⟨before, c', after, target', rfl, hbefore, htarget', hfails⟩ := h
  obtain ⟨hdisk, -, hfault⟩ := emit_written htarget hwrite before
  refine ⟨c :: before, c', after, target', rfl, ?_, htarget', ?_⟩
  · rw [hfault, hbefore]
  · rw [hdisk, hfails]

end Written

theorem WriteFails.exists_cause {fault : Fault} (h : p.WriteFails compiled d fault) :
    ∃ path cause, fault = .file path (.disk cause) := by
  obtain ⟨before, c, after, target, -, -, -, hfails⟩ := h
  unfold writeTarget at hfails
  split at hfails
  · next cause _ => exact ⟨_, cause, (Option.some.inj hfails).symm⟩
  · split at hfails
    · next cause _ => exact ⟨_, cause, (Option.some.inj hfails).symm⟩
    · cases hfails

theorem WriteFails.fault_eq {fault : Fault} (h : p.WriteFails compiled d fault) :
    (p.emit compiled d).2.fault = some fault := by
  obtain ⟨before, c, after, target, rfl, hbefore, htarget, hfails⟩ := h
  induction before generalizing d with
  | nil => exact emit_unwritten htarget hfails after
  | cons b before ih =>
    -- The scripts before were written, the first of them too.
    rcases emit_cons_cases p b before d with ⟨_, -, hstop⟩ | ⟨_, _, _, -, -, hstop⟩ |
      ⟨target', next, htarget', hwrite, hdisk, -, hfault⟩
    · rw [hstop] at hbefore
      cases hbefore
    · rw [hstop] at hbefore
      cases hbefore
    · rw [hfault] at hbefore
      rw [hdisk] at hfails
      rw [List.cons_append, (emit_written htarget' hwrite _).2.2]
      exact ih hbefore hfails

theorem emit_first_fault (p : Project) (compiled : List Compiled) (d : Disk) :
    ((p.emit compiled d).2.fault = none ∧
      (∀ c ∈ compiled, ∃ target, p.target c.source.toList = .ok target) ∧
      (p.emit compiled d).2.outputs.map Output.source = compiled.map fun c => c.source.toList) ∨
    (∃ fault, p.WriteFails compiled d fault) ∨
    ∃ before c after fault, compiled = before ++ c :: after ∧
      (∀ b ∈ before, ∃ target, p.target b.source.toList = .ok target) ∧
      p.target c.source.toList = .error fault ∧ (p.emit compiled d).2.fault = some fault ∧
      (p.emit compiled d).2.outputs.map Output.source = before.map fun c => c.source.toList := by
  induction compiled generalizing d with
  | nil => exact .inl ⟨rfl, fun c hc => absurd hc List.not_mem_nil, rfl⟩
  | cons c rest ih =>
    rcases emit_cons_cases p c rest d with
      ⟨fault, htarget, hstop⟩ | ⟨target, next, fault, htarget, hwrite, -⟩ |
      ⟨target, next, htarget, hwrite, -, houtputs, hfault⟩
    · rw [hstop]
      exact .inr (.inr
        ⟨[], c, rest, fault, rfl, fun b hb => absurd hb List.not_mem_nil, htarget, rfl, rfl⟩)
    · refine .inr (.inl ⟨fault, [], c, rest, target, rfl, rfl, htarget, ?_⟩)
      rw [emit, hwrite]
    · rw [hfault, houtputs, List.map_cons]
      rcases ih next with ⟨hnone, htargets, hsources⟩ | ⟨fault, hfails⟩ |
        ⟨before, c', after, fault, rfl, htargets, herror, hsome, hsources⟩
      · exact .inl
          ⟨hnone, List.forall_mem_cons.2 ⟨⟨target, htarget⟩, htargets⟩,
          by rw [hsources, List.map_cons]⟩
      · exact .inr (.inl ⟨fault, hfails.cons htarget hwrite⟩)
      · exact .inr
          (.inr ⟨c :: before, c', after, fault, rfl,
          List.forall_mem_cons.2 ⟨⟨target, htarget⟩, htargets⟩, herror, hsome, by
            rw [hsources, List.map_cons]⟩)

/-- A listed source has a place for its script unless its first name below the directory of the
sources starts with two dots; then it counts as outside. Once all sources compile, a build has the
fault of a script that cannot be written. If every script can be written, it stops at the first
source that counts as outside, behind the outputs of the sources before it, and without such a
source it has one output for each source. -/
theorem listed_sources_built {p : Project} {d : Disk} {sources : List Path}
    (hroot : p.root.isAbsolute = true) (hnamed : d.tree.Named)
    (hsources : p.sources d = .ok sources) :
    (∀ source ∈ sources, (∃ rest, source.names = p.sourceDir.names ++ rest) ∧
      if p.startsDotted source = true then
        p.target source = .error (.project (.outside source p.sourceDir))
      else ∃ target, p.target source = .ok target) ∧
    ∀ compiled, sources.mapM (p.compileSource d) = .ok compiled →
      (∀ fault, p.WriteFails compiled d fault → (p.build false d).2.fault = some fault) ∧
      ((∀ fault, ¬ p.WriteFails compiled d fault) →
        (p.build false d).2.outputs.map Output.source =
          sources.takeWhile (fun s => !p.startsDotted s) ∧
        (p.build false d).2.fault =
          (sources.find? p.startsDotted).map fun s => .project (.outside s p.sourceDir)) := by
  have hplace (source : Path) (hmem : source ∈ sources) :=
    target_of_mem_sources hroot hnamed hsources hmem
  refine ⟨fun source hmem =>
    ⟨exists_names_of_mem_sources hroot hnamed hsources hmem, hplace source hmem⟩,
    fun compiled hcompiled => ?_⟩
  rw [build_eq hsources hcompiled]
  refine ⟨fun fault => WriteFails.fault_eq, fun hwrites => ?_⟩
  have hplain (source : Path) (hmem : source ∈ sources)
      (hok : ∃ target, p.target source = .ok target) :
      p.startsDotted source = false := by
    obtain ⟨target, htarget⟩ := hok
    by_contra hdotted
    have herror := hplace source hmem
    rw [if_pos (Bool.not_eq_false _ ▸ hdotted), htarget] at herror
    cases herror
  have hmap := map_source_compiled hcompiled
  rcases emit_first_fault p compiled d with ⟨hnone, htargets, houtputs⟩ | ⟨fault, hfails⟩ |
    ⟨before, c, after, fault, rfl, htargets, herror, hsome, houtputs⟩
  · have hall (source : Path) (hmem : source ∈ sources) : p.startsDotted source = false := by
      obtain ⟨c, hc, rfl⟩ := List.mem_map.1 (hmap ▸ hmem)
      exact hplain _ hmem (htargets c hc)
    refine ⟨?_, ?_⟩
    · rw [houtputs, hmap,
        List.takeWhile_eq_self_iff.2 fun source hmem => by rw [hall source hmem]; rfl]
    · rw [hnone,
        List.find?_eq_none.2 fun source hmem => by rw [hall source hmem]; exact Bool.false_ne_true]
      rfl
  · exact absurd hfails (hwrites fault)
  · rw [List.map_append, List.map_cons] at hmap
    generalize hfirst : before.map (fun c => c.source.toList) = first at hmap houtputs
    subst hmap
    have hall (source : Path) (hmem : source ∈ first) : p.startsDotted source = false := by
      refine hplain source (List.mem_append_left _ hmem) ?_
      obtain ⟨b, hb, rfl⟩ := List.mem_map.1 (hfirst ▸ hmem)
      exact htargets b hb
    have hstop : p.startsDotted c.source.toList = true ∧
        fault = .project (.outside c.source.toList p.sourceDir) := by
      have hc := hplace c.source.toList (List.mem_append_right _ List.mem_cons_self)
      split at hc
      · next hdotted => exact ⟨hdotted, Except.error.inj (herror.symm.trans hc)⟩
      · obtain ⟨target, htarget⟩ := hc
        rw [herror] at htarget
        cases htarget
    refine ⟨?_, ?_⟩
    · rw [houtputs, List.takeWhile_append_of_pos fun source hmem => by rw [hall source hmem]; rfl,
        List.takeWhile_cons_of_neg (by rw [hstop.1]; exact Bool.false_ne_true), List.append_nil]
    · rw [hsome, hstop.2, List.find?_append,
        List.find?_eq_none.2 fun source hmem => by rw [hall source hmem]; exact Bool.false_ne_true,
        List.find?_cons_of_pos hstop.1]
      rfl

end Project

def plainProject : Project where
  root := "/p".toList
  manifest := ⟨"p", "1", "src", "out", some false⟩

/-- A file and a directory whose names start with two dots, and files listed before and behind
them. -/
def dotsDisk : Disk where
  tree := .directory [("p".toList, .directory [("src".toList, .directory [
    ("c.loto".toList, .file ""), ("..x".toList, .directory [("d.loto".toList, .file "")]),
    ("..b.loto".toList, .file ""), ("-a.loto".toList, .file "")])])]
  workingDir := "/".toList

def dotsSources : List Path :=
  ["/p/src/-a.loto".toList, "/p/src/..b.loto".toList, "/p/src/..x/d.loto".toList,
  "/p/src/c.loto".toList]

theorem sources_dotsDisk : plainProject.sources dotsDisk = .ok dotsSources :=
  Project.sources_eq_ok (by decide +kernel) (by decide +kernel)

theorem named_dotsDisk : dotsDisk.tree.Named := by
  have hfile (name : Name) (h : Path.IsName name) : (FileTree.directory [(name, .file "")]).Named :=
    .directory (List.forall_mem_singleton.2 h) (List.forall_mem_singleton.2 (.file ""))
  refine .directory (by decide) (List.forall_mem_singleton.2 (.directory (by decide)
    (List.forall_mem_singleton.2 (.directory (by decide) ?_))))
  exact List.forall_mem_cons.2 ⟨.file "", List.forall_mem_cons.2 ⟨hfile _ (by decide),
    List.forall_mem_cons.2 ⟨.file "", List.forall_mem_singleton.2 (.file "")⟩⟩⟩

theorem emit_dotsDisk :
    ∃ compiled, dotsSources.mapM (plainProject.compileSource dotsDisk) = .ok compiled ∧
      (plainProject.emit compiled dotsDisk).2.outputs =
        [⟨"/p/src/-a.loto".toList, "/p/out/-a.js".toList⟩] ∧
      (plainProject.emit compiled dotsDisk).2.fault =
        some (.project (.outside "/p/src/..b.loto".toList "/p/src".toList)) := by
  have hemit :
      ((dotsSources.mapM (plainProject.compileSource dotsDisk)).toOption.any fun compiled =>
      (plainProject.emit compiled dotsDisk).2.outputs =
        [⟨"/p/src/-a.loto".toList, "/p/out/-a.js".toList⟩] ∧
      (plainProject.emit compiled dotsDisk).2.fault =
        some (.project (.outside "/p/src/..b.loto".toList "/p/src".toList))) =
        true := by decide +kernel
  obtain ⟨compiled, hcompiled, hfacts⟩ := exists_ok_of_any hemit
  exact ⟨compiled, hcompiled, of_decide_eq_true hfacts⟩

theorem listed_sources_built_dots :
    plainProject.root.isAbsolute = true ∧ dotsDisk.tree.Named ∧
    plainProject.sources dotsDisk = .ok dotsSources ∧
    (∀ source ∈ ["/p/src/-a.loto".toList, "/p/src/c.loto".toList],
      ∃ target, plainProject.target source = .ok target) ∧
    (∀ source ∈ ["/p/src/..b.loto".toList, "/p/src/..x/d.loto".toList],
      plainProject.target source = .error (.project (.outside source plainProject.sourceDir))) ∧
    ∃ compiled, dotsSources.mapM (plainProject.compileSource dotsDisk) = .ok compiled ∧
      ((∀ fault, ¬ plainProject.WriteFails compiled dotsDisk fault) →
        (plainProject.build false dotsDisk).2.outputs.map Output.source =
          ["/p/src/-a.loto".toList] ∧
        (plainProject.build false dotsDisk).2.fault =
          some (.project (.outside "/p/src/..b.loto".toList "/p/src".toList))) := by
  obtain ⟨hplaces, hbuilt⟩ := Project.listed_sources_built rfl named_dotsDisk sources_dotsDisk
  obtain ⟨compiled, hcompiled, -⟩ := emit_dotsDisk
  have hplain : ∀ source ∈ ["/p/src/-a.loto".toList, "/p/src/c.loto".toList],
      source ∈ dotsSources ∧ ¬ plainProject.startsDotted source = true := by decide +kernel
  have hdotted : ∀ source ∈ ["/p/src/..b.loto".toList, "/p/src/..x/d.loto".toList],
      source ∈ dotsSources ∧ plainProject.startsDotted source = true := by decide +kernel
  refine ⟨rfl, named_dotsDisk, sources_dotsDisk, fun source hsource => ?_, fun source hsource => ?_,
    compiled, hcompiled, fun hwrites => ?_⟩
  · obtain ⟨hmem, hstart⟩ := hplain source hsource
    have hplace := (hplaces source hmem).2
    rwa [if_neg hstart] at hplace
  · obtain ⟨hmem, hstart⟩ := hdotted source hsource
    have hplace := (hplaces source hmem).2
    rwa [if_pos hstart] at hplace
  · obtain ⟨houtputs, hfault⟩ := (hbuilt compiled hcompiled).2 hwrites
    rw [houtputs, hfault]
    exact ⟨by decide +kernel, by decide +kernel⟩

/-- All sources compile and no script fails to be written, but a source whose name starts with two
dots has no script, and the build stops behind the script that it has written. -/
theorem dotted_source_stops_build :
    plainProject.sources dotsDisk = .ok dotsSources ∧
    ∃ compiled, dotsSources.mapM (plainProject.compileSource dotsDisk) = .ok compiled ∧
      (∀ fault, ¬ plainProject.WriteFails compiled dotsDisk fault) ∧
      (plainProject.build false dotsDisk).2.outputs =
        [⟨"/p/src/-a.loto".toList, "/p/out/-a.js".toList⟩] ∧
      (plainProject.build false dotsDisk).2.fault =
        some (.project (.outside "/p/src/..b.loto".toList "/p/src".toList)) := by
  obtain ⟨compiled, hcompiled, houtputs, hfault⟩ := emit_dotsDisk
  refine ⟨sources_dotsDisk, compiled, hcompiled, fun fault hfails => ?_, ?_⟩
  · obtain ⟨path, cause, rfl⟩ := hfails.exists_cause
    have hsame := hfails.fault_eq
    rw [hfault] at hsame
    cases hsame
  · rw [Project.build_eq sources_dotsDisk hcompiled]
    exact ⟨houtputs, hfault⟩

end LayoutScript

import LayoutScript.Project
import LayoutScript.Proofs.RelativePath
import LayoutScript.Proofs.TaskGroup

/-! Builds under every schedule. The sources of a project are compiled by a group of tasks, and only
then are the scripts written. Whatever the order of the tasks, a build does what compiling the
sources one after another does, or it changes nothing and has the fault of a source that does not
compile. -/
namespace LayoutScript

/-! ### Sources in order -/

namespace Path

theorem le_total (a b : Path) : (le a b || le b a) = true := by
  induction a generalizing b with
  | nil => rfl
  | cons c a ih =>
    cases b with
    | nil => rfl
    | cons d b =>
      have hrest := ih b
      simp only [le, Bool.or_eq_true, Bool.and_eq_true, decide_eq_true_eq, beq_iff_eq, Char.lt_def,
        UInt32.lt_iff_toNat_lt, ← Char.toNat_inj, Char.toNat] at hrest ⊢
      grind

theorem le_trans (a b c : Path) (hab : le a b = true) (hbc : le b c = true) : le a c = true := by
  induction a generalizing b c with
  | nil => rfl
  | cons x a ih =>
    cases b with
    | nil => cases hab
    | cons y b =>
      cases c with
      | nil => cases hbc
      | cons z c =>
        have hrest := ih b c
        simp only [le, Bool.or_eq_true, Bool.and_eq_true, decide_eq_true_eq, beq_iff_eq,
          Char.lt_def, UInt32.lt_iff_toNat_lt, ← Char.toNat_inj, Char.toNat] at hab hbc ⊢
        grind

theorem le_antisymm (a b : Path) (hab : le a b = true) (hba : le b a = true) : a = b := by
  induction a generalizing b with
  | nil =>
    cases b with
    | nil => rfl
    | cons d b => cases hba
  | cons c a ih =>
    cases b with
    | nil => cases hab
    | cons d b =>
      have hrest := ih b
      simp only [le, Bool.or_eq_true, Bool.and_eq_true, decide_eq_true_eq, beq_iff_eq, Char.lt_def,
        UInt32.lt_iff_toNat_lt, ← Char.toNat_inj, Char.toNat] at hab hba
      have hhead : c = d := by
        rw [← Char.toNat_inj, Char.toNat, Char.toNat]
        omega
      subst hhead
      rw [hrest (by simpa using hab) (by simpa using hba)]

end Path

/-! ### Compiling one source -/

theorem compileFile_error {options : Script.Options} {d : Disk} {p : Path} {f : Fault}
    (h : compileFile options d p = .error f) : f.base ≠ .project .cancelled := by
  unfold compileFile at h
  split at h
  · cases h
    simp [Fault.base]
  · unfold compile check at h
    split at h
    · next hcheck =>
      cases h
      split at hcheck
      · cases hcheck
        simp [Fault.base]
      · split at hcheck
        · cases hcheck
          simp [Fault.base]
        · cases hcheck
    · split at h
      · cases h
        simp [Fault.base]
      · cases h

namespace Project

variable {p : Project} {d : Disk} {sources : List Path}

def sourcePaths (p : Project) (t : FileTree) : List Path :=
  (t.files.map fun place => Path.absoluteOfNames (p.sourceDir.names ++ place)).filter fun path =>
    path.extension == sourceExtension

theorem sources_of_list {t : FileTree} (ht : d.list p.sourceDir = .ok t) :
    p.sources d = .ok ((p.sourcePaths t).mergeSort Path.le) := by
  rw [Project.sources, ht]
  rfl

theorem exists_listing (h : p.sources d = .ok sources) :
    ∃ t, d.list p.sourceDir = .ok t ∧ sources = (p.sourcePaths t).mergeSort Path.le := by
  cases ht : d.list p.sourceDir with
  | error e =>
    rw [Project.sources, ht] at h
    cases h
  | ok t =>
    rw [sources_of_list ht] at h
    exact ⟨t, rfl, (Except.ok.inj h).symm⟩

theorem sources_sorted (h : p.sources d = .ok sources) :
    sources.Pairwise fun a b => a.le b = true := by
  obtain ⟨t, _, rfl⟩ := exists_listing h
  exact List.pairwise_mergeSort Path.le_trans Path.le_total _

theorem isAbsolute_of_mem_sources (h : p.sources d = .ok sources) {source : Path}
    (hmem : source ∈ sources) : source.isAbsolute = true := by
  obtain ⟨t, _, rfl⟩ := exists_listing h
  rw [List.mem_mergeSort, sourcePaths, List.mem_filter] at hmem
  obtain ⟨place, _, rfl⟩ := List.mem_map.1 hmem.1
  rfl

theorem sources_eq_ok
    (h : (d.list p.sourceDir).toOption.any (fun t => sources.Perm (p.sourcePaths t)) = true)
    (hsorted : sources.Pairwise fun a b => a.le b = true) : p.sources d = .ok sources := by
  cases ht : d.list p.sourceDir with
  | error e =>
    rw [ht] at h
    cases h
  | ok t =>
    rw [ht] at h
    have hperm : sources.Perm (p.sourcePaths t) := of_decide_eq_true h
    have hunique : (p.sourcePaths t).mergeSort Path.le = sources :=
      ((List.mergeSort_perm _ _).trans hperm.symm).eq_of_pairwise
        (fun a b _ _ => Path.le_antisymm a b)
        (List.pairwise_mergeSort Path.le_trans Path.le_total _) hsorted
    rw [sources_of_list ht, hunique]

theorem compileFile_eq_ok {source : Path} {c : Compiled} (h : p.compileSource d source = .ok c) :
    compileFile p.options d source = .ok c := by
  unfold compileSource at h
  cases hc : compileFile p.options d source with
  | ok c' =>
    rw [hc] at h
    exact h
  | error f =>
    rw [hc] at h
    cases h

theorem compileSource_eq_error {source : Path} {f : Fault}
    (h : p.compileSource d source = .error f) :
    ∃ cause, compileFile p.options d source = .error cause ∧
      f = .labelled (p.shown source) cause := by
  unfold compileSource at h
  cases hc : compileFile p.options d source with
  | ok c =>
    rw [hc] at h
    cases h
  | error cause =>
    rw [hc] at h
    cases h
    exact ⟨cause, rfl, rfl⟩

theorem build_eq (h : p.sources d = .ok sources) {compiled : List Compiled}
    (hc : sources.mapM (p.compileSource d) = .ok compiled) :
    p.build false d = p.emit compiled d := by
  have hall : p.forEach false d (p.compileSource d) = .ok compiled := by
    rw [forEach, h]
    exact hc
  rw [build, hall]

/-! ### Compiling all sources at the same time -/

/-- The tasks of a build: each compiles one source of a disk that stays as it is. -/
def compileRules (p : Project) (d : Disk) (limit : Nat) : GroupRules Path Fault Compiled where
  work := p.compileSource d
  cancellation := .project .cancelled
  limit := limit

/-- What a build does after its tasks. It stops at their fault, and it cannot go on if a result is
missing. -/
def conclude (p : Project) (d : Disk) (g : TaskGroup Path Fault Compiled) :
    Option (Disk × BuildReport) :=
  match g.state.fault with
  | some f => some (d, ⟨[], [], some f⟩)
  | none => g.results?.map fun compiled => p.emit compiled d

theorem shown_eq (hroot : p.root.isAbsolute = true) (h : p.sources d = .ok sources) {source : Path}
    (hmem : source ∈ sources) : ∃ path, p.root.relativeTo? source = some path ∧
      p.root.join path = source.clean ∧ p.shown source = path.text := by
  obtain ⟨path, hpath, hjoin⟩ := Path.relativeTo?_spec hroot (isAbsolute_of_mem_sources h hmem)
  exact ⟨path, hpath, hjoin, by rw [shown, hpath]; rfl⟩

end Project

/-- Every schedule of a build comes to an end without getting stuck. If all sources compile, the
build does what it does when the sorted sources are compiled one after another. If one does not,
nothing on the disk changes, and the fault is that of such a source behind its path from the
project's directory, never the fault of a task that was cancelled. -/
theorem build_any_schedule {p : Project} {d : Disk} {sources : List Path} {limit : Nat}
    (hroot : p.root.isAbsolute = true) (hsources : p.sources d = .ok sources) (hlimit : 0 < limit) :
    (sources.Pairwise fun a b => a.le b = true) ∧
    ∀ schedule g, (TaskGroup.start sources).run (p.compileRules d limit) schedule = some g →
      schedule.length ≤ 5 * sources.length ∧
      (g.isFinished = false → ∃ i g', g.step (p.compileRules d limit) i = some g') ∧
      (g.isFinished = true →
        ((∀ source ∈ sources, ∃ c, compileFile p.options d source = .ok c) →
          ∃ compiled, sources.mapM (p.compileSource d) = .ok compiled ∧
            p.conclude d g = some (p.emit compiled d) ∧ p.build false d = p.emit compiled d) ∧
        ((∃ source ∈ sources, ∃ f, compileFile p.options d source = .error f) →
          ∃ source ∈ sources, ∃ f path, compileFile p.options d source = .error f ∧
            f.base ≠ .project .cancelled ∧
            p.root.relativeTo? source = some path ∧ p.root.join path = source.clean ∧
            p.conclude d g = some (d, ⟨[], [], some (.labelled path.text f)⟩))) := by
  refine ⟨p.sources_sorted hsources, fun schedule g hrun => ?_⟩
  have hsound := TaskGroup.run_sound hrun (TaskGroup.start_sound (p.compileRules d limit) sources)
  refine ⟨?_, fun hunfinished => TaskGroup.exists_step hlimit hunfinished, fun hfinished => ?_⟩
  · have hrank := TaskGroup.run_rank hrun
    rw [TaskGroup.start_rank] at hrank
    omega
  · cases hfault : g.state.fault with
    | none =>
      obtain ⟨compiled, hcompiled, hresults⟩ := hsound.results hfinished hfault
      refine ⟨fun _ => ?_, fun hfails => ?_⟩
      · refine ⟨compiled, hcompiled, ?_, Project.build_eq hsources hcompiled⟩
        rw [Project.conclude, hfault, hresults]
        rfl
      · -- The results are complete, so no source can fail.
        obtain ⟨source, hmem, f, hf⟩ := hfails
        obtain ⟨c, hc⟩ := hsound.work_eq_ok hfinished hfault hmem
        rw [Project.compileFile_eq_ok hc] at hf
        cases hf
    | some fault =>
      obtain ⟨source, hmem, hwork⟩ := hsound.state.genuine fault hfault
      obtain ⟨f, hf, rfl⟩ := Project.compileSource_eq_error hwork
      refine ⟨fun hok => ?_, fun _ => ?_⟩
      · obtain ⟨c, hc⟩ := hok source hmem
        rw [hf] at hc
        cases hc
      · obtain ⟨path, hpath, hjoin, hshown⟩ := Project.shown_eq hroot hsources hmem
        refine ⟨source, hmem, f, path, hf, compileFile_error hf, hpath, hjoin, ?_⟩
        rw [Project.conclude, hfault, hshown]

theorem exists_eq_error {r : Except ε α} (h : r.toOption.isNone = true) : ∃ e, r = .error e := by
  cases r with
  | ok a => cases h
  | error e => exact ⟨e, rfl⟩

def brokenProject : Project where
  root := "/p".toList
  manifest := ⟨"demo", "0.1.0", "src", "out", none⟩

def brokenDisk : Disk where
  tree := .directory [("p".toList, .directory [("src".toList, .directory [
    ("c.loto".toList, .file "def f()\n"), ("a.loto".toList, .file "print 1\n"),
    ("b.loto".toList, .file "x = $\n")])])]
  workingDir := "/".toList

def brokenSources : List Path :=
  ["/p/src/a.loto".toList, "/p/src/b.loto".toList, "/p/src/c.loto".toList]

/-- The last source fails while the one before it is working, and the first starts too late. -/
def brokenSchedule : List Nat := [2, 1, 2, 1, 2, 1, 2, 2, 1, 0, 0, 0]

theorem build_any_schedule_broken :
    brokenProject.sources brokenDisk = .ok brokenSources ∧
    ∃ g, (TaskGroup.start brokenSources).run (brokenProject.compileRules brokenDisk 2)
      brokenSchedule =
        some g ∧ g.isFinished = true ∧
      ∃ source ∈ brokenSources, ∃ f path,
        compileFile brokenProject.options brokenDisk source = .error f ∧
        f.base ≠ .project .cancelled ∧ brokenProject.root.relativeTo? source = some path ∧
        brokenProject.conclude brokenDisk g =
          some (brokenDisk, ⟨[], [], some (.labelled path.text f)⟩) := by
  have hsources : brokenProject.sources brokenDisk = .ok brokenSources :=
    Project.sources_eq_ok (by decide +kernel) (by decide +kernel)
  have hany : ((TaskGroup.start brokenSources).run (brokenProject.compileRules brokenDisk 2)
      brokenSchedule).any TaskGroup.isFinished = true := by decide +kernel
  obtain ⟨g, hrun, hfinished⟩ := (Option.any_eq_true ..).1 hany
  have hfails : ∃ source ∈ brokenSources, ∃ f,
      compileFile brokenProject.options brokenDisk source = .error f := by
    refine ⟨"/p/src/b.loto".toList, by decide, ?_⟩
    apply exists_eq_error
    decide +kernel
  obtain ⟨_, _, hdone⟩ := (build_any_schedule rfl hsources Nat.two_pos).2 brokenSchedule g hrun
  obtain ⟨source, hmem, f, path, hf, hbase, hpath, _, hconclude⟩ := (hdone hfinished).2 hfails
  exact ⟨hsources, g, hrun, hfinished, source, hmem, f, path, hf, hbase, hpath, hconclude⟩

end LayoutScript

import Mathlib.Algebra.Ring.Nat

/-! Groups of tasks that run at the same time. At most `limit` of them are active at once. A task
that starts looks first whether the group is cancelled, then does its work, and keeps the result in
a slot of its own or has a fault to report. The first fault that is reported is the fault of the
group, and then cancels it. A schedule says which task moves next, so a statement about all
schedules covers every order in which tasks can start, work, fail and be cancelled. -/
namespace LayoutScript

inductive TaskPhase (ε : Type) where
  | waiting
  | started
  | working
  | failing (fault : ε)
  | cancelling
  | finished
  deriving DecidableEq, Repr

namespace TaskPhase

def isActive : TaskPhase ε → Bool
  | .started | .working | .failing _ | .cancelling => true
  | .waiting | .finished => false

def isFinished : TaskPhase ε → Bool
  | .finished => true
  | _ => false

def rank : TaskPhase ε → Nat
  | .waiting => 5
  | .started => 4
  | .working => 3
  | .failing _ => 2
  | .cancelling => 1
  | .finished => 0

end TaskPhase

structure Task (τ ε α : Type) where
  job : τ
  phase : TaskPhase ε
  slot : Option α
  deriving DecidableEq, Repr

structure GroupState (ε : Type) where
  fault : Option ε
  cancelled : Bool
  deriving DecidableEq, Repr

structure TaskGroup (τ ε α : Type) where
  tasks : List (Task τ ε α)
  state : GroupState ε
  deriving DecidableEq, Repr

/-- What a group does: the work of each job, the fault of a task that finds the group cancelled, and
the number of tasks that may be active at once. -/
structure GroupRules (τ ε α : Type) where
  work : τ → Except ε α
  cancellation : ε
  limit : Nat

variable {τ ε α : Type} {rules : GroupRules τ ε α}

/-- The next move of a task, if it has one. It can start only while there is a free place. -/
def Task.advance (rules : GroupRules τ ε α) (free : Bool) (state : GroupState ε) (t : Task τ ε α) :
    Option (Task τ ε α × GroupState ε) :=
  match t.phase with
  | .waiting => if free then some ({ t with phase := .started }, state) else none
  | .started =>
    if state.cancelled then some ({ t with phase := .failing rules.cancellation }, state)
    else some ({ t with phase := .working }, state)
  | .working =>
    match rules.work t.job with
    | .ok a => some ({ t with phase := .finished, slot := some a }, state)
    | .error e => some ({ t with phase := .failing e }, state)
  | .failing e =>
    match state.fault with
    | none => some ({ t with phase := .cancelling }, { state with fault := some e })
    | some _ => some ({ t with phase := .finished }, state)
  | .cancelling => some ({ t with phase := .finished }, { state with cancelled := true })
  | .finished => none

namespace TaskGroup

def start (jobs : List τ) : TaskGroup τ ε α := ⟨jobs.map (⟨·, .waiting, none⟩), ⟨none, false⟩⟩

def active (g : TaskGroup τ ε α) : Nat := g.tasks.countP fun t => t.phase.isActive

def isFinished (g : TaskGroup τ ε α) : Bool := g.tasks.all fun t => t.phase.isFinished

def results? (g : TaskGroup τ ε α) : Option (List α) := g.tasks.mapM Task.slot

def step (rules : GroupRules τ ε α) (g : TaskGroup τ ε α) (i : Nat) : Option (TaskGroup τ ε α) :=
  match g.tasks[i]? with
  | none => none
  | some t =>
    (t.advance rules (g.active < rules.limit) g.state).map fun moved =>
      ⟨g.tasks.set i moved.1, moved.2⟩

/-- A schedule lists the positions of the tasks that move, one after another. -/
def run (rules : GroupRules τ ε α) (g : TaskGroup τ ε α) : List Nat → Option (TaskGroup τ ε α)
  | [] => some g
  | i :: schedule => (g.step rules i).bind fun g => g.run rules schedule

end TaskGroup

/-! ### What one move does -/

/-- What a task and the group around it have to do with each other. A fault that is not from the
work of the task comes from a group that has a fault already. -/
def Task.Sound (rules : GroupRules τ ε α) (state : GroupState ε) (t : Task τ ε α) : Prop :=
  match t.phase with
  | .waiting | .started | .working => True
  | .failing e => rules.work t.job = .error e ∨ state.fault.isSome = true
  | .cancelling => state.fault.isSome = true
  | .finished => (∃ a, rules.work t.job = .ok a ∧ t.slot = some a) ∨ state.fault.isSome = true

/-- A group has only the fault of one of its jobs, and it is cancelled only after that. -/
structure GroupState.Sound (rules : GroupRules τ ε α) (jobs : List τ) (state : GroupState ε) :
    Prop where
  genuine : ∀ e, state.fault = some e → ∃ job ∈ jobs, rules.work job = .error e
  cancelled : state.cancelled = true → state.fault.isSome = true

namespace Task

variable {t t' : Task τ ε α} {state state' : GroupState ε} {free : Bool}

theorem advance_cases (h : t.advance rules free state = some (t', state')) :
    (t.phase = .waiting ∧ t' = { t with phase := .started } ∧ state' = state) ∨
    (t.phase = .started ∧ state.cancelled = true ∧
      t' = { t with phase := .failing rules.cancellation } ∧ state' = state) ∨
    (t.phase = .started ∧ t' = { t with phase := .working } ∧ state' = state) ∨
    (∃ a, t.phase = .working ∧ rules.work t.job = .ok a ∧
      t' = { t with phase := .finished, slot := some a } ∧ state' = state) ∨
    (∃ e, t.phase = .working ∧ rules.work t.job = .error e ∧ t' = { t with phase := .failing e } ∧
      state' = state) ∨
    (∃ e, t.phase = .failing e ∧ state.fault = none ∧ t' = { t with phase := .cancelling } ∧
      state' = { state with fault := some e }) ∨
    (∃ e, t.phase = .failing e ∧ state.fault.isSome = true ∧ t' = { t with phase := .finished } ∧
      state' = state) ∨
    (t.phase = .cancelling ∧ t' = { t with phase := .finished } ∧
      state' = { state with cancelled := true }) := by
  unfold advance at h
  split at h
  · next hphase =>
    split at h
    · cases h
      exact .inl ⟨hphase, rfl, rfl⟩
    · cases h
  · next hphase =>
    split at h
    · next hcancelled =>
      cases h
      exact .inr (.inl ⟨hphase, hcancelled, rfl, rfl⟩)
    · cases h
      exact .inr (.inr (.inl ⟨hphase, rfl, rfl⟩))
  · next hphase =>
    split at h
    · next a hwork =>
      cases h
      exact .inr (.inr (.inr (.inl ⟨a, hphase, hwork, rfl, rfl⟩)))
    · next e hwork =>
      cases h
      exact .inr (.inr (.inr (.inr (.inl ⟨e, hphase, hwork, rfl, rfl⟩))))
  · next e hphase =>
    split at h
    · next hfault =>
      cases h
      exact .inr (.inr (.inr (.inr (.inr (.inl ⟨e, hphase, hfault, rfl, rfl⟩)))))
    · next hfault =>
      cases h
      exact .inr (.inr
        (.inr (.inr (.inr (.inr (.inl ⟨e, hphase, by rw [hfault]; rfl, rfl, rfl⟩))))))
  · next hphase =>
    cases h
    exact .inr (.inr (.inr (.inr (.inr (.inr (.inr ⟨hphase, rfl, rfl⟩))))))
  · cases h

theorem advance_job (h : t.advance rules free state = some (t', state')) : t'.job = t.job := by
  rcases advance_cases h with ⟨_, rfl, _⟩ | ⟨_, _, rfl, _⟩ | ⟨_, rfl, _⟩ | ⟨_, _, _, rfl, _⟩ |
    ⟨_, _, _, rfl, _⟩ | ⟨_, _, _, rfl, _⟩ | ⟨_, _, _, rfl, _⟩ | ⟨_, rfl, _⟩ <;> rfl

theorem advance_rank (h : t.advance rules free state = some (t', state')) :
    t'.phase.rank < t.phase.rank := by
  rcases advance_cases h with ⟨hp, rfl, _⟩ | ⟨hp, _, rfl, _⟩ | ⟨hp, rfl, _⟩ | ⟨_, hp, _, rfl, _⟩ |
    ⟨_, hp, _, rfl, _⟩ | ⟨_, hp, _, rfl, _⟩ | ⟨_, hp, _, rfl, _⟩ | ⟨hp, rfl, _⟩ <;>
    simp [hp, TaskPhase.rank]

theorem advance_fault (h : t.advance rules free state = some (t', state'))
    (hfault : state.fault.isSome = true) : state'.fault = state.fault := by
  rcases advance_cases h with ⟨_, _, rfl⟩ | ⟨_, _, _, rfl⟩ | ⟨_, _, rfl⟩ | ⟨_, _, _, _, rfl⟩ |
    ⟨_, _, _, _, rfl⟩ | ⟨_, _, hnone, _, rfl⟩ | ⟨_, _, _, _, rfl⟩ | ⟨_, _, rfl⟩
  case inr.inr.inr.inr.inr.inl =>
    rw [hnone] at hfault
    cases hfault
  all_goals rfl

theorem Sound.of_fault {other : Task τ ε α} (h : other.Sound rules state)
    (hfault : state.fault.isSome = true → state'.fault.isSome = true) :
    other.Sound rules state' := by
  unfold Sound at h ⊢
  split
  · trivial
  · trivial
  · trivial
  · next hp =>
    rw [hp] at h
    exact h.imp_right hfault
  · next hp =>
    rw [hp] at h
    exact hfault h
  · next hp =>
    rw [hp] at h
    exact h.imp_right hfault

/-- A move keeps the task and the group sound. A task that finds the group cancelled has a fault
that comes too late to be that of the group. -/
theorem advance_sound {jobs : List τ} (h : t.advance rules free state = some (t', state'))
    (hjob : t.job ∈ jobs) (ht : t.Sound rules state) (hs : state.Sound rules jobs) :
    t'.Sound rules state' ∧ state'.Sound rules jobs := by
  rcases advance_cases h with ⟨_, rfl, rfl⟩ | ⟨_, hcancelled, rfl, rfl⟩ | ⟨_, rfl, rfl⟩ |
    ⟨a, _, hwork, rfl, rfl⟩ | ⟨e, _, hwork, rfl, rfl⟩ | ⟨e, hp, hnone, rfl, rfl⟩ |
    ⟨_, _, hsome, rfl, rfl⟩ | ⟨hp, rfl, rfl⟩
  · exact ⟨trivial, hs⟩
  · exact ⟨.inr (hs.cancelled hcancelled), hs⟩
  · exact ⟨trivial, hs⟩
  · exact ⟨.inl ⟨a, hwork, rfl⟩, hs⟩
  · exact ⟨.inl hwork, hs⟩
  · have hwork : rules.work t.job = .error e := by
      rw [Sound, hp] at ht
      simpa [hnone] using ht
    refine ⟨rfl, fun e' he' => ?_, fun _ => rfl⟩
    cases he'
    exact ⟨t.job, hjob, hwork⟩
  · exact ⟨.inr hsome, hs⟩
  · rw [Sound, hp] at ht
    exact ⟨.inr ht, hs.genuine, fun _ => ht⟩

theorem exists_advance_of_isActive (h : t.phase.isActive = true) :
    ∃ moved, t.advance rules free state = some moved := by
  unfold advance
  split
  · next hp =>
    rw [hp] at h
    cases h
  · split <;> exact ⟨_, rfl⟩
  · split <;> exact ⟨_, rfl⟩
  · split <;> exact ⟨_, rfl⟩
  · exact ⟨_, rfl⟩
  · next hp =>
    rw [hp] at h
    cases h

end Task

/-! ### What a run does -/

namespace TaskGroup

variable {g g' : TaskGroup τ ε α} {jobs : List τ} {schedule : List Nat}

theorem step_eq_some {i : Nat} (h : g.step rules i = some g') : ∃ before t after t' state',
    g.tasks = before ++ t :: after ∧
      t.advance rules (g.active < rules.limit) g.state = some (t', state') ∧
      g' = ⟨before ++ t' :: after, state'⟩ := by
  unfold step at h
  split at h
  · cases h
  · next t ht =>
    obtain ⟨⟨t', state'⟩, hmove, rfl⟩ := Option.map_eq_some_iff.1 h
    obtain ⟨hi, rfl⟩ := List.getElem?_eq_some_iff.1 ht
    refine ⟨g.tasks.take i, _, g.tasks.drop (i + 1), t', state', ?_, hmove, ?_⟩
    · rw [List.getElem_cons_drop, List.take_append_drop]
    · rw [List.set_eq_take_append_cons_drop, if_pos hi]

/-- What holds along every run. -/
structure Sound (rules : GroupRules τ ε α) (jobs : List τ) (g : TaskGroup τ ε α) : Prop where
  jobs_eq : g.tasks.map Task.job = jobs
  tasks : ∀ t ∈ g.tasks, t.Sound rules g.state
  state : g.state.Sound rules jobs

theorem start_sound (rules : GroupRules τ ε α) (jobs : List τ) : (start jobs).Sound rules jobs where
  jobs_eq := by
    rw [start, List.map_map]
    exact List.map_id jobs
  tasks t ht := by
    obtain ⟨job, _, rfl⟩ := List.mem_map.1 ht
    trivial
  state := ⟨by simp [start], by simp [start]⟩

theorem step_sound {i : Nat} (h : g.step rules i = some g') (hg : g.Sound rules jobs) :
    g'.Sound rules jobs := by
  obtain ⟨before, t, after, t', state', htasks, hmove, rfl⟩ := step_eq_some h
  obtain ⟨hjobs, hsound, hstate⟩ := hg
  rw [htasks] at hjobs hsound
  have hjob : t.job ∈ jobs := by simp [← hjobs]
  obtain ⟨ht', hstate'⟩ := Task.advance_sound hmove hjob (hsound t (by simp)) hstate
  have hother : ∀ other ∈ before ++ t :: after, other.Sound rules state' := fun other hmem =>
    (hsound other hmem).of_fault fun hfault => by rw [Task.advance_fault hmove hfault, hfault]
  refine ⟨?_, fun other hmem => ?_, hstate'⟩
  · simpa [Task.advance_job hmove] using hjobs
  · rcases List.mem_append.1 hmem with hmem | hmem
    · exact hother other (by simp [hmem])
    · rcases List.mem_cons.1 hmem with rfl | hmem
      · exact ht'
      · exact hother other (by simp [hmem])

def rank (g : TaskGroup τ ε α) : Nat := (g.tasks.map fun t => t.phase.rank).sum

theorem step_rank {i : Nat} (h : g.step rules i = some g') : g'.rank < g.rank := by
  obtain ⟨before, t, after, t', state', htasks, hmove, rfl⟩ := step_eq_some h
  have hrank := Task.advance_rank hmove
  simp only [rank, htasks, List.map_append, List.map_cons, List.sum_append, List.sum_cons]
  omega

theorem start_rank (jobs : List τ) : (start jobs : TaskGroup τ ε α).rank = 5 * jobs.length := by
  induction jobs with
  | nil => rfl
  | cons job jobs ih =>
    have hcons : (start (job :: jobs) : TaskGroup τ ε α).rank =
        5 + (start jobs : TaskGroup τ ε α).rank :=
      rfl
    rw [hcons, ih, List.length_cons]
    omega

theorem run_sound (h : g.run rules schedule = some g') (hg : g.Sound rules jobs) :
    g'.Sound rules jobs := by
  induction schedule generalizing g with
  | nil =>
    cases h
    exact hg
  | cons i schedule ih =>
    obtain ⟨middle, hstep, hrun⟩ := Option.bind_eq_some_iff.1 h
    exact ih hrun (step_sound hstep hg)

theorem run_rank (h : g.run rules schedule = some g') : g'.rank + schedule.length ≤ g.rank := by
  induction schedule generalizing g with
  | nil =>
    cases h
    exact Nat.le_refl _
  | cons i schedule ih =>
    obtain ⟨middle, hstep, hrun⟩ := Option.bind_eq_some_iff.1 h
    have hfirst := step_rank hstep
    have hrest := ih hrun
    rw [List.length_cons]
    omega

/-- A group is never stuck: as long as it is not finished some task can move. -/
theorem exists_step (hlimit : 0 < rules.limit) (h : g.isFinished = false) :
    ∃ i g', g.step rules i = some g' := by
  have hmove {t : Task τ ε α} (ht : t ∈ g.tasks)
      (hm : ∃ moved, t.advance rules (g.active < rules.limit) g.state = some moved) :
      ∃ i g', g.step rules i = some g' := by
    obtain ⟨i, hi⟩ := List.mem_iff_getElem?.1 ht
    obtain ⟨moved, hm⟩ := hm
    exact ⟨i, ⟨g.tasks.set i moved.1, moved.2⟩, by rw [step, hi]; simp only [hm]; rfl⟩
  by_cases hactive : ∃ t ∈ g.tasks, t.phase.isActive = true
  · obtain ⟨t, ht, hactive⟩ := hactive
    exact hmove ht (Task.exists_advance_of_isActive hactive)
  · -- Nothing is active, so there is a free place for a task that waits.
    obtain ⟨t, ht, hphase⟩ : ∃ t ∈ g.tasks, t.phase.isFinished = false := by
      simpa [isFinished] using h
    have hinactive : t.phase.isActive = false := by
      rw [← Bool.not_eq_true]
      exact fun hactive' => hactive ⟨t, ht, hactive'⟩
    have hwaiting : t.phase = .waiting := by
      cases hp : t.phase with
      | waiting => rfl
      | started | working | failing | cancelling =>
        rw [hp] at hinactive
        cases hinactive
      | finished =>
        rw [hp] at hphase
        cases hphase
    have hfree : g.active < rules.limit := by
      have hzero : g.active = 0 := by
        rw [active, List.countP_eq_zero]
        exact fun other hmem hactive' => hactive ⟨other, hmem, hactive'⟩
      rwa [hzero]
    refine hmove ht ⟨({ t with phase := .started }, g.state), ?_⟩
    simp only [Task.advance, hwaiting]
    rw [if_pos (by simpa using hfree)]

theorem Sound.done (hg : g.Sound rules jobs) (hfinished : g.isFinished = true)
    (hfault : g.state.fault = none) :
    ∀ t ∈ g.tasks, ∃ a, rules.work t.job = .ok a ∧ t.slot = some a := by
  intro t ht
  have hsound := hg.tasks t ht
  have hphase : t.phase = .finished := by
    have hall := List.all_eq_true.1 hfinished t ht
    cases hp : t.phase with
    | finished => rfl
    | _ =>
      rw [hp] at hall
      cases hall
  rw [Task.Sound, hphase, hfault] at hsound
  simpa using hsound

theorem Sound.work_eq_ok (hg : g.Sound rules jobs) (hfinished : g.isFinished = true)
    (hfault : g.state.fault = none) {job : τ} (hjob : job ∈ jobs) :
    ∃ a, rules.work job = .ok a := by
  rw [← hg.jobs_eq] at hjob
  obtain ⟨t, ht, rfl⟩ := List.mem_map.1 hjob
  obtain ⟨a, hwork, _⟩ := hg.done hfinished hfault t ht
  exact ⟨a, hwork⟩

theorem Sound.results (hg : g.Sound rules jobs) (hfinished : g.isFinished = true)
    (hfault : g.state.fault = none) :
    ∃ as, jobs.mapM rules.work = .ok as ∧ g.results? = some as := by
  have hdone := hg.done hfinished hfault
  rw [← hg.jobs_eq, results?]
  generalize g.tasks = tasks at hdone
  induction tasks with
  | nil => exact ⟨[], rfl, rfl⟩
  | cons t tasks ih =>
    obtain ⟨a, hwork, hslot⟩ := hdone t List.mem_cons_self
    obtain ⟨as, hworks, hslots⟩ := ih fun t ht => hdone t (List.mem_cons_of_mem _ ht)
    refine ⟨a :: as, ?_, ?_⟩
    · rw [List.map_cons, List.mapM_cons, hwork, hworks]
      rfl
    · rw [List.mapM_cons, hslot, hslots]
      rfl

end TaskGroup

end LayoutScript

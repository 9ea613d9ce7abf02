import LayoutScript.Path
import LayoutScript.Proofs.LineTokens
import LayoutScript.Proofs.RoundTrip

/-! Relative paths: following the path from a directory to a place leads to that place. -/
namespace LayoutScript

theorem Text.split_intercalate {divider : Char} {parts : List (List Char)} (hne : parts ≠ [])
    (h : ∀ part ∈ parts, divider ∉ part) : split divider ([divider].intercalate parts) = parts := by
  induction parts with
  | nil => exact absurd rfl hne
  | cons part parts ih =>
    have hpart : split divider part = [part] := split_of_not_mem (h part List.mem_cons_self)
    cases parts with
    | nil => simpa [List.intercalate] using hpart
    | cons next rest =>
      have hrest := ih (by simp) fun part hmem => h part (List.mem_cons_of_mem _ hmem)
      rw [List.intercalate_cons_cons, List.append_assoc, List.singleton_append, split_append,
        hpart, hrest]
      rfl

namespace Path

structure IsName (step : Name) : Prop where
  ne_nil : step ≠ []
  ne_here : step ≠ here
  ne_up : step ≠ up
  whole : '/' ∉ step

theorem follow_name {absolute : Bool} {step : Name} (h : IsName step) (place : List Name) :
    follow absolute place step = step :: place := by
  simp [follow, h.ne_nil, h.ne_here, h.ne_up]

theorem follow_here (absolute : Bool) (place : List Name) : follow absolute place here = place := by
  simp [follow]

theorem follow_up {absolute : Bool} {name : Name} (h : IsName name) (outer : List Name) :
    follow absolute (name :: outer) up = outer := by
  have hup : up ≠ [] ∧ up ≠ here := by decide
  simp [follow, hup, h.ne_up]

theorem follow_isName {place : List Name} {step : Name} (hplace : ∀ name ∈ place, IsName name)
    (hstep : '/' ∉ step) : ∀ name ∈ follow true place step, IsName name := by
  unfold follow
  split
  · exact hplace
  · next hstay =>
    simp only [Bool.or_eq_true, decide_eq_true_eq, not_or] at hstay
    split
    · split
      · simp
      · next name outer =>
        split
        · next hname => exact absurd hname (hplace name List.mem_cons_self).ne_up
        · exact fun n hn => hplace n (List.mem_cons_of_mem _ hn)
    · next hup => exact List.forall_mem_cons.2 ⟨⟨hstay.1, hstay.2, hup, hstep⟩, hplace⟩

theorem foldl_follow_isName {steps place : List Name} (hsteps : ∀ step ∈ steps, '/' ∉ step)
    (hplace : ∀ name ∈ place, IsName name) :
    ∀ name ∈ steps.foldl (follow true) place, IsName name := by
  induction steps generalizing place with
  | nil => exact hplace
  | cons step steps ih =>
    obtain ⟨hstep, hrest⟩ := List.forall_mem_cons.1 hsteps
    exact ih hrest (follow_isName hplace hstep)

theorem names_isName {p : Path} (h : p.isAbsolute = true) : ∀ name ∈ p.names, IsName name := by
  intro name hname
  rw [names, h, List.mem_reverse] at hname
  exact foldl_follow_isName (fun _ => Text.not_mem_of_mem_split) (by simp) name hname

theorem foldl_follow_names {absolute : Bool} {steps : List Name} (h : ∀ step ∈ steps, IsName step)
    (place : List Name) : steps.foldl (follow absolute) place = steps.reverse ++ place := by
  induction steps generalizing place with
  | nil => rfl
  | cons step steps ih =>
    obtain ⟨hstep, hrest⟩ := List.forall_mem_cons.1 h
    rw [List.foldl_cons, follow_name hstep, ih hrest, List.reverse_cons, List.append_assoc]
    rfl

theorem foldl_follow_up {absolute : Bool} {left : List Name} (h : ∀ name ∈ left, IsName name)
    (outer : List Name) :
    (List.replicate left.length up).foldl (follow absolute) (left ++ outer) = outer := by
  induction left with
  | nil => rfl
  | cons name left ih =>
    obtain ⟨hname, hleft⟩ := List.forall_mem_cons.1 h
    rw [List.length_cons, List.replicate_succ, List.foldl_cons, List.cons_append, follow_up hname,
      ih hleft]

theorem foldl_steps_relativeOfNames {absolute : Bool} {steps : List Name}
    (h : ∀ step ∈ steps, '/' ∉ step) (place : List Name) :
    (relativeOfNames steps).steps.foldl (follow absolute) place =
      steps.foldl (follow absolute) place := by
  unfold relativeOfNames Path.steps
  split
  · next hempty =>
    rw [List.isEmpty_iff.1 hempty]
    exact follow_here absolute place
  · next hne => rw [Text.split_intercalate (by simpa using hne) h]

theorem dropCommon_spec (as bs : List Name) :
    ∃ common, as = common ++ (dropCommon as bs).1 ∧ bs = common ++ (dropCommon as bs).2 := by
  induction as generalizing bs with
  | nil => exact ⟨[], rfl, rfl⟩
  | cons a as ih =>
    cases bs with
    | nil => exact ⟨[], rfl, rfl⟩
    | cons b bs =>
      rw [dropCommon]
      split
      · next heq =>
        obtain ⟨common, has, hbs⟩ := ih bs
        exact ⟨a :: common, congrArg (a :: ·) has, by rw [← heq]; exact congrArg (a :: ·) hbs⟩
      · exact ⟨[], rfl, rfl⟩

theorem isAbsolute_append {dir : Path} (h : dir.isAbsolute = true) (path : List Char) :
    isAbsolute (dir ++ path) = true := by
  cases dir with
  | nil => cases h
  | cons c cs => exact h

theorem join_eq {dir : Path} (h : dir.isAbsolute = true) (path : Path) : dir.join path =
    absoluteOfNames (path.steps.foldl (follow true) dir.names.reverse).reverse := by
  have hne : ¬ dir.isEmpty = true := by
    cases dir with
    | nil => cases h
    | cons c cs => simp
  have habsolute := isAbsolute_append h ('/' :: path)
  rw [join, if_neg hne, clean, if_pos habsolute, names, habsolute, steps, Text.split_append,
    List.foldl_append, names, h, List.reverse_reverse]
  rfl

/-- Between absolute paths there is a relative path, and it leads from the one to the other. -/
theorem relativeTo?_spec {dir p : Path} (hdir : dir.isAbsolute = true) (hp : p.isAbsolute = true) :
    ∃ path, dir.relativeTo? p = some path ∧ dir.join path = p.clean := by
  obtain ⟨common, hleft, hrest⟩ := dropCommon_spec dir.names p.names
  generalize hpair : dropCommon dir.names p.names = pair at hleft hrest
  obtain ⟨left, rest⟩ := pair
  dsimp only at hleft hrest
  have hdirNames := names_isName hdir
  have hnames := names_isName hp
  rw [hleft, List.forall_mem_append] at hdirNames
  rw [hrest, List.forall_mem_append] at hnames
  refine ⟨relativeOfNames (left.map (fun _ => up) ++ rest), ?_, ?_⟩
  · rw [relativeTo?, hdir, hp, hpair]
    rfl
  · have hwhole : ∀ step ∈ List.replicate left.length up ++ rest, '/' ∉ step := by
      refine List.forall_mem_append.2
        ⟨fun step hstep => ?_, fun step hstep => (hnames.2 step hstep).whole⟩
      rw [List.eq_of_mem_replicate hstep]
      decide
    have hups : (List.replicate left.length up).foldl (follow true)
        (left.reverse ++ common.reverse) =
        common.reverse := by
      rw [← List.length_reverse]
      exact foldl_follow_up (by simpa using hdirNames.2) common.reverse
    rw [join_eq hdir, List.map_const', foldl_steps_relativeOfNames hwhole, List.foldl_append, hleft,
      List.reverse_append, hups, foldl_follow_names hnames.2, List.reverse_append,
      List.reverse_reverse, List.reverse_reverse, clean, if_pos hp, hrest]

end Path

end LayoutScript

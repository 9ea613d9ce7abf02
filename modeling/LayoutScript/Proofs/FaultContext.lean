import LayoutScript.Compile

/-! Context around a fault. Callers may put any number of layers around one. No layer is of a stage
or has a place, so what a search finds below the layers it finds through them. -/
namespace LayoutScript

inductive Context where
  | file (path : String)
  | labelled (label : String)
  | joined (text : String)
  deriving DecidableEq, Repr

namespace Context

def around : Context → Fault → Fault
  | .file path, f => .file path f
  | .labelled label, f => .labelled label f
  | .joined text, f => .joined text f

def front : Context → String
  | .file path => path ++ ": "
  | .labelled label => label ++ ": "
  | .joined text => text ++ "\n"

def isFile : Context → Bool
  | .file _ => true
  | _ => false

def fronts : List Context → String
  | [] => ""
  | c :: layers => fronts layers ++ c.front

theorem any_isFile {layers : List Context} :
    layers.any isFile = true ↔ ∃ path, .file path ∈ layers := by
  constructor
  · intro h
    obtain ⟨c, hc, hfile⟩ := List.any_eq_true.1 h
    cases c with
    | file path => exact ⟨path, hc⟩
    | labelled label | joined text => cases hfile
  · rintro ⟨path, hpath⟩
    exact List.any_eq_true.2 ⟨_, hpath, rfl⟩

end Context

def FaultKind.isStage : FaultKind → Bool
  | .lexical | .grammar | .unknownNode => true
  | .file | .other => false

namespace Fault

def wrapped (f : Fault) (layers : List Context) : Fault := layers.foldl (fun f c => c.around f) f

@[simp] theorem wrapped_cons (f : Fault) (c : Context) (layers : List Context) :
    f.wrapped (c :: layers) = (c.around f).wrapped layers := rfl

/-! ### One layer -/

section Layer

variable (c : Context) (f : Fault)

theorem has_around_stage {k : FaultKind} (h : k.isStage = true) : (c.around f).has k = f.has k := by
  cases k with
  | lexical | grammar | unknownNode => cases c <;> rfl
  | file | other => cases h

theorem has_around_file : (c.around f).has .file = (c.isFile || f.has .file) := by
  cases c <;> rfl

theorem span?_around : (c.around f).span? = f.span? := by
  cases c <;> rfl

theorem message_around : (c.around f).message = c.front ++ f.message := by
  cases c <;> simp [Context.around, Context.front, message]

end Layer

/-! ### All layers -/

section Layers

variable (f : Fault) (layers : List Context)

theorem has_wrapped_stage {k : FaultKind} (h : k.isStage = true) :
    (f.wrapped layers).has k = f.has k := by
  induction layers generalizing f with
  | nil => rfl
  | cons c layers ih => rw [wrapped_cons, ih, has_around_stage c f h]

theorem has_wrapped_file :
    (f.wrapped layers).has .file = (f.has .file || layers.any Context.isFile) := by
  induction layers generalizing f with
  | nil => exact (Bool.or_false _).symm
  | cons c layers ih =>
    rw [wrapped_cons, ih, has_around_file, List.any_cons, Bool.or_comm c.isFile, Bool.or_assoc]

theorem span?_wrapped : (f.wrapped layers).span? = f.span? := by
  induction layers generalizing f with
  | nil => rfl
  | cons c layers ih => rw [wrapped_cons, ih, span?_around]

theorem message_wrapped : (f.wrapped layers).message = Context.fronts layers ++ f.message := by
  induction layers generalizing f with
  | nil => exact String.empty_append.symm
  | cons c layers ih => rw [wrapped_cons, ih, message_around, Context.fronts, String.append_assoc]

end Layers

/-! ### The kind that a search ends with -/

theorem kind_eq (f : Fault) : f.kind =
    if f.has .lexical then .lexical else if f.has .grammar then .grammar
    else if f.has .unknownNode then .unknownNode else if f.has .file then .file else .other := by
  rw [kind, FaultKind.searched]
  repeat' split
  all_goals simp [List.find?, *]

theorem isStage_kind (f : Fault) :
    f.kind.isStage = (f.has .lexical || f.has .grammar || f.has .unknownNode) := by
  rw [kind_eq]
  repeat' split
  all_goals simp [FaultKind.isStage, *]

/-- Layers change the outcome only where no stage is found. -/
theorem kind_wrapped (f : Fault) (layers : List Context) :
    (f.wrapped layers).kind = if f.kind.isStage then f.kind
      else if f.has .file || layers.any Context.isFile then .file else .other := by
  rw [isStage_kind, kind_eq, kind_eq f, has_wrapped_stage f layers rfl,
    has_wrapped_stage f layers rfl, has_wrapped_stage f layers rfl, has_wrapped_file]
  repeat' split
  all_goals simp_all

theorem causes_base (f : Fault) : f.base.causes = [f.base] := by
  induction f with
  | file _ _ ih | labelled _ _ ih | joined _ _ ih => exact ih
  | _ => rfl

theorem kind_of_causes {f : Fault} (h : f.causes = [f]) : f.kind = f.ownKind := by
  have hhas (k : FaultKind) : f.has k = (f.ownKind == k) := by simp [has, h]
  rw [kind_eq, hhas, hhas, hhas, hhas]
  cases f.ownKind <;> rfl

theorem span?_of_causes {f : Fault} (h : f.causes = [f]) : f.span? = f.ownSpan? := by
  rw [span?, h, List.findSome?_cons]
  cases f.ownSpan? <;> rfl

theorem has_file {f : Fault} : f.has .file = true ↔ ∃ g ∈ f.causes, g.ownKind = .file := by
  simp [has]

/-- A fault inside any layers of context. It is of a stage exactly if the fault inside is, and of
that stage; else it is about a file exactly if the fault inside or a layer is. An editor shows the
whole text at the place of the fault inside. If that one has no context of its own, its kind and its
place are just its own. -/
theorem wrapped_kind_and_diagnostic (f : Fault) (layers : List Context) :
    (∀ k, k.isStage = true → ((f.wrapped layers).kind = k ↔ f.kind = k)) ∧
    (f.kind.isStage = false →
      ((f.wrapped layers).kind = .file ↔
        (∃ g ∈ f.causes, g.ownKind = .file) ∨ ∃ path, .file path ∈ layers) ∧
      ((f.wrapped layers).kind = .other ↔
        ¬ ((∃ g ∈ f.causes, g.ownKind = .file) ∨ ∃ path, .file path ∈ layers))) ∧
    (f.wrapped layers).message = Context.fronts layers ++ f.message ∧
    (f.wrapped layers).diagnostic =
      ⟨(f.span?.getD .origin).toRange, Context.fronts layers ++ f.message⟩ ∧
    (f.base = f → f.causes = [f] ∧ f.kind = f.ownKind ∧ f.span? = f.ownSpan?) := by
  have hfile : (f.has .file || layers.any Context.isFile) = true ↔
      (∃ g ∈ f.causes, g.ownKind = .file) ∨ ∃ path, .file path ∈ layers := by
    rw [Bool.or_eq_true, has_file, Context.any_isFile]
  refine ⟨fun k hk => ?_, fun hstage => ?_, message_wrapped f layers, ?_, fun hbase => ?_⟩
  · rw [kind_wrapped]
    split
    · rfl
    · next hstage =>
      have hne : f.kind ≠ k := fun heq => hstage (heq ▸ hk)
      split <;> cases k <;> simp_all [FaultKind.isStage]
  · rw [kind_wrapped, hstage, if_neg Bool.false_ne_true, ← hfile]
    split <;> simp_all
  · rw [diagnostic, span?_wrapped, message_wrapped]
    rfl
  · have hcauses : f.causes = [f] := by rw [← hbase, causes_base]
    exact ⟨hcauses, kind_of_causes hcauses, span?_of_causes hcauses⟩

theorem wrapped_kind_and_diagnostic_stray :
    (∃ f, compile .standard "m" "x = $".toList = .error f ∧ f.kind = .lexical ∧
      (f.wrapped [.joined "ctx", .file "a.loto", .labelled "build"]).kind = .lexical ∧
      (f.wrapped [.joined "ctx", .file "a.loto", .labelled "build"]).diagnostic =
        ⟨⟨⟨0, 4⟩, ⟨0, 5⟩⟩, "build: a.loto: ctx\nunexpected character '$' at line 1, column 5"⟩) ∧
    ((plain "boom").wrapped [.labelled "build"]).kind = .other ∧
    ((plain "boom").wrapped [.joined "ctx", .file "a.loto", .labelled "build"]).kind = .file ∧
    ((file "b.loto" (plain "boom")).wrapped [.labelled "build"]).kind = .file := by
  have hplain := wrapped_kind_and_diagnostic (plain "boom")
  refine ⟨?_, ?_, ?_, ?_⟩
  · have hscan : Token.ofText "m" "x = $".toList = .error ⟨1, 5, .unexpected '$', "m"⟩ := rfl
    refine ⟨.lexical ⟨1, 5, .unexpected '$', "m"⟩, by rw [compile, check, hscan], rfl, ?_, ?_⟩
    · exact ((wrapped_kind_and_diagnostic _ _).1 .lexical rfl).2 rfl
    · rw [(wrapped_kind_and_diagnostic _ _).2.2.2.1]
      decide +kernel
  · exact ((hplain [.labelled "build"]).2.1 rfl).2.2 (by simp [causes, ownKind])
  · exact ((hplain _).2.1 rfl).1.2 (.inr ⟨"a.loto", by simp⟩)
  · exact ((wrapped_kind_and_diagnostic _ _).2.1 rfl).1.2 (.inl ⟨_, List.mem_cons_self, rfl⟩)

end Fault

end LayoutScript

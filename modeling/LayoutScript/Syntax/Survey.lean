import LayoutScript.Syntax.Outline

/-! What the script as a whole depends on: the components that stand in no other component. -/
namespace LayoutScript

structure Survey where
  hasComponent : Bool
  hasState : Bool
  styledCount : Nat
  deriving DecidableEq, Repr

namespace Survey

def empty : Survey := ⟨false, false, 0⟩

/-- Components are noted and not entered. -/
def visitor (s : Survey) (o : Outline) : Survey × Bool :=
  if o.kind = .componentDeclaration then
    ({ hasComponent := true
       hasState := s.hasState || o.children.any fun c => c.kind == .stateDeclaration
       styledCount :=
        if o.children.any fun c => c.kind == .styleBlock then s.styledCount + 1
        else s.styledCount },
      false)
  else (s, true)

end Survey

namespace Program

def survey (p : Program) : Survey := p.outline.visit Survey.visitor .empty

def hasState (p : Program) : Bool := p.survey.hasState

def styledCount (p : Program) : Nat := p.survey.styledCount

/-- A program with a component imports its framework, so it has to be run as a module. The walk ends
at the first component. -/
def isModule (p : Program) : Bool :=
  p.outline.visit (fun found o =>
    let found := found || o.kind == .componentDeclaration
    (found, !found)) false

end Program

end LayoutScript

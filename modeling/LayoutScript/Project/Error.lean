import LayoutScript.Path

/-! Why a project cannot place or handle a source. -/
namespace LayoutScript

inductive ProjectError where
  | outside (source dir : Path)
  | unrelated (p dir : Path)
  | cancelled
  deriving DecidableEq, Repr

def ProjectError.message : ProjectError → String
  | .outside source dir => source.text ++ " is outside " ++ dir.text
  | .unrelated p dir => "Rel: can't make " ++ p.text ++ " relative to " ++ dir.text
  | .cancelled => "context canceled"

end LayoutScript

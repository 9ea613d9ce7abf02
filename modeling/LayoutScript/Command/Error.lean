import LayoutScript.Path
import LayoutScript.Text.Quoted

/-! Why a command fails for reasons of its own. -/
namespace LayoutScript

def sourceExtension : List Char := ".loto".toList

def targetExtension : List Char := ".js".toList

inductive CommandError where
  | notFound (p : Path)
  | noSource
  | present (p : Path)
  | noProgram
  | unknownProgram (name : String)
  | exitStatus (status : Nat)
  deriving DecidableEq, Repr

def CommandError.message : CommandError → String
  | .notFound p => "File " ++ Text.Quoted.ofString p.text ++ " not found"
  | .noSource => "File must have " ++ String.ofList sourceExtension ++ " extension"
  | .present p => p.text ++ " already exists"
  | .noProgram => "exec: no command"
  | .unknownProgram name =>
    "exec: " ++ Text.Quoted.ofString name ++ ": executable file not found in $PATH"
  | .exitStatus status => "exit status " ++ Nat.repr status

end LayoutScript

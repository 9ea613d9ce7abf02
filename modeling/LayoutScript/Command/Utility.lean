/-! Programs that a script can be handed to. -/
namespace LayoutScript

structure Exit where
  stdout : String
  stderr : String
  status : Nat
  deriving DecidableEq, Repr

inductive Utility where
  | cat
  | echo
  | pass
  | fail
  deriving DecidableEq, Repr

namespace Utility

def named? : String → Option Utility
  | "cat" => some .cat
  | "echo" => some .echo
  | "true" => some .pass
  | "false" => some .fail
  | _ => none

def run (arguments : List String) (input : String) : Utility → Exit
  | .cat =>
    match arguments with
    | [] => ⟨input, "", 0⟩
    | argument :: _ =>
      ⟨"", "cat: unrecognized option '" ++ argument ++
        "'\nTry 'cat --help' for more information.\n", 1⟩
  | .echo => ⟨" ".intercalate arguments ++ "\n", "", 0⟩
  | .pass => ⟨"", "", 0⟩
  | .fail => ⟨"", "", 1⟩

end Utility

end LayoutScript

/-! Lines of output. -/
namespace LayoutScript.Script

structure Line where
  indent : Nat
  text : String
  deriving DecidableEq, Repr

namespace Line

def blank : Line := ⟨0, ""⟩

def chars (line : Line) : List Char :=
  List.replicate (2 * line.indent) ' ' ++ line.text.toList ++ ['\n']

end Line

def units : List Char → List (List Char)
  | '\r' :: '\n' :: cs => ['\r', '\n'] :: units cs
  | c :: cs => [c] :: units cs
  | [] => []

def isLineEnd (unit : List Char) : Bool := unit.getLast? == some '\n'

/-- Three line ends or more in a row become two, both like the last one. -/
def squeezeRun (run : List (List Char)) : List Char :=
  if 3 ≤ run.length then run.getLast?.getD [] ++ run.getLast?.getD [] else run.flatten

def squeeze (cs : List Char) : List Char :=
  ((units cs).splitBy fun a b => isLineEnd a && isLineEnd b).flatMap squeezeRun

def endLine (cs : List Char) : List Char :=
  (cs.reverse.dropWhile (· == '\n')).reverse ++ ['\n']

/-- The final text: no more than one blank line in a row, and one line feed at the end. -/
def finish (lines : List Line) : String :=
  String.ofList (endLine (squeeze (lines.flatMap Line.chars)))

end LayoutScript.Script

import LayoutScript.Fault
import LayoutScript.Script.Module
import LayoutScript.Syntax.Program
import LayoutScript.Token.Layout

/-! From source text to script. -/
namespace LayoutScript

/-- The program of a text, without a script; `source` names the text in spans. -/
def check (source : String) (code : List Char) : Except Fault Program :=
  match Token.ofText source code with
  | .error e => .error (.lexical e)
  | .ok tokens =>
    match Program.ofTokens tokens with
    | .error e => .error (.grammar e)
    | .ok p => .ok p

structure Compiled where
  source : String
  program : Program
  script : String

def Compiled.isModule (c : Compiled) : Bool := c.program.isModule

def compile (options : Script.Options) (source : String) (code : List Char) :
    Except Fault Compiled :=
  match check source code with
  | .error e => .error e
  | .ok program =>
    match program.generate options with
    | .error e => .error (.unknownNode e)
    | .ok script => .ok ⟨source, program, script⟩

def diagnostics (source : String) (code : List Char) : List Diagnostic :=
  match compile .standard source code with
  | .ok _ => []
  | .error e => [e.diagnostic]

end LayoutScript

import LayoutScript.Compile
import LayoutScript.Disk

/-! Compiling files on a disk. -/
namespace LayoutScript

def checkFile (d : Disk) (p : Path) : Except Fault Program :=
  match d.read p with
  | .error e => .error (.disk e)
  | .ok content => check p.text content.toList

def compileFile (options : Script.Options) (d : Disk) (p : Path) : Except Fault Compiled :=
  match d.read p with
  | .error e => .error (.file p.text (.disk e))
  | .ok content => compile options p.text content.toList

def writeTarget (d : Disk) (target : Path) (script : String) : Disk × Option Fault :=
  match d.makeDirectories target.parent with
  | (d, some e) => (d, some (.file target.text (.disk e)))
  | (d, none) =>
    match d.write target script with
    | .error e => (d, some (.file target.text (.disk e)))
    | .ok d => (d, none)

end LayoutScript

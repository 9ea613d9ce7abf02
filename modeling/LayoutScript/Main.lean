import LayoutScript.Command

/-! The command line, for single files. It loads the file into a disk, performs the command there
and writes back what changed. -/
namespace LayoutScript.CommandLine

def usage : String :=
  "usage: loto build FILE [--no-banner]\n       loto check FILE\n       loto version\n"

def command? : List String → Option Command
  | ["version"] => some .version
  | ["check", p] => some (.check (Path.ofString p))
  | ["build", p] => some (.build (Path.ofString p) true false)
  | ["build", p, "--no-banner"] => some (.build (Path.ofString p) false false)
  | _ => none

def input? : Command → Option Path
  | .build p _ _ | .check p | .run p _ => some p
  | .new _ | .version => none

/-- Copies a file into the disk; a file that cannot be read is not there. -/
def load (d : Disk) (p : Path) : IO Disk := do
  try
    let bytes ← IO.FS.readBinFile p.text
    let content := String.ofList (Text.Utf8.decode bytes.toList)
    return { d with tree := d.tree.insert (Path.absolute d.workingDir p).names (.file content) }
  catch _ => return d

def save (before after : FileTree) : IO Unit :=
  (before.changes after).forM fun (place, content) =>
    match content with
    | some text => IO.FS.writeFile (Path.absoluteOfNames place).text text
    | none => pure ()

def run (c : Command) : IO UInt32 := do
  let workingDir := Path.ofString (← IO.currentDir).toString
  let empty : Disk := ⟨FileTree.empty.insert workingDir.names .empty, workingDir⟩
  let disk ← match input? c with
    | some p => load empty p
    | none => pure empty
  let outcome := c.perform disk
  save disk.tree outcome.disk.tree
  IO.print outcome.stdout
  IO.eprint outcome.stderr
  match outcome.fault with
  | none => return 0
  | some f =>
    IO.eprintln ("Error: " ++ f.message)
    return 1

end LayoutScript.CommandLine

def main (args : List String) : IO UInt32 :=
  match LayoutScript.CommandLine.command? args with
  | some c => LayoutScript.CommandLine.run c
  | none => do
    IO.eprint LayoutScript.CommandLine.usage
    return 1

import LayoutScript.Command.Utility
import LayoutScript.Project

/-! The commands of the compiler. -/
namespace LayoutScript

structure Outcome where
  disk : Disk
  stdout : String
  stderr : String
  fault : Option Fault

inductive Command where
  | build (p : Path) (banner verbose : Bool)
  | check (p : Path)
  | new (p : Path)
  | run (p : Path) (program : String)
  | version

namespace Command

def versionName : String := "dev"

def firstSource : String := "# main.loto\ndef main\n  print \"Hello, world!\"\nend\n\nmain\n"

def sourceFault? (d : Disk) (p : Path) : Option Fault :=
  match d.stat p with
  | .error e => some (if e.cause = .missing then .command (.notFound p) else .disk e)
  | .ok t =>
    if t.isDirectory || p.extension != sourceExtension then some (.command .noSource) else none

def fail (d : Disk) (f : Fault) : Outcome := ⟨d, "", "", some f⟩

def builtText (target : Path) : String := "✓ Built " ++ target.text ++ "\n"

def buildProject (d : Disk) (p : Path) (verbose : Bool) : Outcome :=
  match Project.load d p with
  | .error f => fail d f
  | .ok project =>
    let (d, report) := project.build false d
    let stderr := if verbose then report.logText else ""
    match report.fault with
    | some f => ⟨d, "", stderr, some f⟩
    | none => ⟨d, String.join (report.outputs.map fun o => builtText o.target), stderr, none⟩

def buildFile (d : Disk) (p : Path) (banner : Bool) : Outcome :=
  match sourceFault? d p with
  | some f => fail d f
  | none =>
    match compileFile ⟨banner⟩ d p with
    | .error f => fail d f
    | .ok c =>
      let target := p.replaceExtension targetExtension
      match writeTarget d target c.script with
      | (d, some f) => fail d f
      | (d, none) => ⟨d, builtText target, "", none⟩

def checkPath (d : Disk) (p : Path) : Except Fault Unit := do
  if d.isDirectory p then (← Project.load d p).check false d
  else
    match sourceFault? d p with
    | some f => throw f
    | none => let _ ← checkFile d p

def scaffold (p : Path) : List (Path × String) :=
  [(p.join ".gitignore".toList, "out/\n"),
    (p.join Manifest.fileName.toList, String.ofList (Manifest.newText (String.ofList p.base))),
    (Path.join (p.join "src".toList) "main.loto".toList, firstSource)]

def writeAll : List (Path × String) → Disk → Disk × Option DiskError
  | [], d => (d, none)
  | (p, content) :: rest, d =>
    match d.write p content with
    | .error e => (d, some e)
    | .ok d => writeAll rest d

def create (d : Disk) (p : Path) : Outcome :=
  match d.stat p with
  | .ok _ => fail d (.command (.present p))
  | .error _ =>
    match d.makeDirectories (p.join "src".toList) with
    | (d, some e) => fail d (.disk e)
    | (d, none) =>
      match writeAll (scaffold p) d with
      | (d, some e) => fail d (.disk e)
      | (d, none) => ⟨d, "Created " ++ p.text ++ "\n", "", none⟩

def arguments (c : Compiled) : List String := if c.isModule then ["--input-type=module"] else []

def runFile (d : Disk) (p : Path) (program : String) : Outcome :=
  match sourceFault? d p with
  | some f => fail d f
  | none =>
    match compileFile .standard d p with
    | .error f => fail d f
    | .ok c =>
      match Utility.named? program with
      | none =>
        fail d (.command (if program.isEmpty then .noProgram else .unknownProgram program))
      | some utility =>
        let exit := utility.run (arguments c) c.script
        ⟨d, exit.stdout, exit.stderr,
          if exit.status = 0 then none else some (.command (.exitStatus exit.status))⟩

def perform (d : Disk) : Command → Outcome
  | .build p banner verbose =>
    if d.isDirectory p then buildProject d p verbose else buildFile d p banner
  | .check p =>
    match checkPath d p with
    | .error f => fail d f
    | .ok _ => ⟨d, "ok\n", "", none⟩
  | .new p => create d p
  | .run p program => runFile d p program
  | .version => ⟨d, "loto version: " ++ versionName ++ "\n", "", none⟩

end Command

end LayoutScript

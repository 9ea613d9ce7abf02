import LayoutScript.Compile.File
import LayoutScript.Log
import LayoutScript.Manifest

/-! Projects: a directory with a manifest, whose sources are all compiled before the first script
is written. -/
namespace LayoutScript

structure Project where
  /-- An absolute path. -/
  root : Path
  manifest : Manifest

structure Output where
  source : Path
  target : Path
  deriving DecidableEq, Repr

structure BuildReport where
  outputs : List Output
  log : List String
  fault : Option Fault

def Path.le : Path → Path → Bool
  | [], _ => true
  | _ :: _, [] => false
  | a :: as, b :: bs => a < b || (a == b && Path.le as bs)

def BuildReport.logText (r : BuildReport) : String := LayoutScript.logText "loto: " r.log

namespace Project

def load (d : Disk) (dir : Path) : Except Fault Project :=
  let root := Path.absolute d.workingDir dir
  let manifestPath := root.join Manifest.fileName.toList
  let label := "failed to load " ++ Manifest.fileName
  match d.read manifestPath with
  | .error e => .error (.labelled label (.file manifestPath.text (.disk e)))
  | .ok content =>
    match Manifest.ofText content.toList with
    | .error e => .error (.labelled label (.manifest e))
    | .ok m => .ok ⟨root, m⟩

def sourceDir (p : Project) : Path := p.root.join p.manifest.src.toList

def outDir (p : Project) : Path := p.root.join p.manifest.out.toList

def options (p : Project) : Script.Options := ⟨p.manifest.emitsBanner⟩

def shown (p : Project) (path : Path) : String := ((p.root.relativeTo? path).getD path).text

def sources (p : Project) (d : Disk) : Except Fault (List Path) :=
  match d.list p.sourceDir with
  | .error e => .error (.labelled "failed to list sources" (.file p.sourceDir.text (.disk e)))
  | .ok t =>
    let paths := t.files.map fun place => Path.absoluteOfNames (p.sourceDir.names ++ place)
    .ok ((paths.filter fun path => path.extension == sourceExtension).mergeSort Path.le)

/-- Where the script of a source goes. A source whose path from the directory of the sources
starts with two dots is outside of it. -/
def target (p : Project) (source : Path) : Except Fault Path :=
  match p.sourceDir.relativeTo? source with
  | none => .error (.project (.unrelated source p.sourceDir))
  | some path =>
    if Path.up.isPrefixOf path then .error (.project (.outside source p.sourceDir))
    else .ok (p.outDir.join (path.replaceExtension targetExtension))

def checkSource (p : Project) (d : Disk) (source : Path) : Except Fault Unit :=
  match d.read source with
  | .error e => .error (.file source.text (.disk e))
  | .ok content =>
    match LayoutScript.check source.text content.toList with
    | .error f => .error (.labelled (p.shown source) f)
    | .ok _ => .ok ()

def compileSource (p : Project) (d : Disk) (source : Path) : Except Fault Compiled :=
  (compileFile p.options d source).mapError (.labelled (p.shown source))

def forEach (p : Project) (cancelled : Bool) (d : Disk) (task : Path → Except Fault α) :
    Except Fault (List α) := do
  let sources ← p.sources d
  if cancelled && !sources.isEmpty then throw (.project .cancelled)
  sources.mapM task

def check (p : Project) (cancelled : Bool) (d : Disk) : Except Fault Unit := do
  let _ ← p.forEach cancelled d (p.checkSource d)

def emit (p : Project) : List Compiled → Disk → Disk × BuildReport
  | [], d => (d, ⟨[], [], none⟩)
  | c :: rest, d =>
    match p.target c.source.toList with
    | .error f => (d, ⟨[], [], some f⟩)
    | .ok target =>
      match writeTarget d target c.script with
      | (d, some f) => (d, ⟨[], [], some f⟩)
      | (d, none) =>
        let (d, report) := p.emit rest d
        let line := "compiled " ++ p.shown c.source.toList ++ " -> " ++ p.shown target
        (d, { report with
          outputs := ⟨c.source.toList, target⟩ :: report.outputs
          log := line :: report.log })

/-- Compiles every source and writes the scripts. Nothing is written if one does not compile. -/
def build (p : Project) (cancelled : Bool) (d : Disk) : Disk × BuildReport :=
  match p.forEach cancelled d (p.compileSource d) with
  | .error f => (d, ⟨[], [], some f⟩)
  | .ok compiled => p.emit compiled d

end Project

end LayoutScript

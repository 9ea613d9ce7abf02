import LayoutScript.Disk.Error
import LayoutScript.Disk.Tree

/-! A disk: a tree of files and a directory to start relative paths from. -/
namespace LayoutScript

structure Disk where
  tree : FileTree
  /-- An absolute path. -/
  workingDir : Path

namespace Disk

def isLong (name : Name) : Bool := 255 < (String.ofList name).utf8ByteSize

def follow (t : FileTree) (place : List Name) (step : Name) : Except DiskCause (List Name) :=
  match t.find? place with
  | none => .error .missing
  | some (.file _) => .error .notDirectory
  | some (.directory _) =>
    if step = [] || step = Path.here then .ok place
    else if step = Path.up then .ok place.dropLast
    else if isLong step then .error .nameTooLong
    else .ok (place ++ [step])

/-- The place that steps lead to. Nothing needs to be there, but the place before the last step
is a directory. -/
def locate (d : Disk) (p : Path) (steps : List Name) : Except DiskCause (List Name) :=
  if p.isEmpty then .error .missing
  else if p.contains '\x00' then .error .badPath
  else steps.foldlM (follow d.tree) (if p.isAbsolute then [] else d.workingDir.names)

def resolve (d : Disk) (p : Path) : Except DiskCause FileTree := do
  match d.tree.find? (← d.locate p p.steps) with
  | none => throw .missing
  | some t => return t

def isDirectory (d : Disk) (p : Path) : Bool :=
  match d.resolve p with
  | .ok t => t.isDirectory
  | .error _ => false

def stat (d : Disk) (p : Path) : Except DiskError FileTree :=
  (d.resolve p).mapError fun cause => ⟨.stat, p, cause⟩

def list (d : Disk) (p : Path) : Except DiskError FileTree :=
  (d.resolve p).mapError fun cause => ⟨.list, p, cause⟩

def read (d : Disk) (p : Path) : Except DiskError String :=
  match d.resolve p with
  | .error cause => .error ⟨.openFile, p, cause⟩
  | .ok (.directory _) => .error ⟨.readFile, p, .isDirectory⟩
  | .ok (.file content) => .ok content

def write (d : Disk) (p : Path) (content : String) : Except DiskError Disk :=
  match d.locate p p.steps with
  | .error cause => .error ⟨.openFile, p, cause⟩
  | .ok place =>
    match d.tree.find? place with
    | some (.directory _) => .error ⟨.openFile, p, .isDirectory⟩
    | _ => .ok { d with tree := d.tree.insert place (.file content) }

/-- Makes one directory. Slashes at the end of the path mean nothing. -/
def makeDirectory (d : Disk) (p : Path) : Except DiskError Disk :=
  match d.locate p (Path.steps (p.reverse.dropWhile (· == '/')).reverse) with
  | .error cause => .error ⟨.makeDirectory, p, cause⟩
  | .ok place =>
    match d.tree.find? place with
    | some _ => .error ⟨.makeDirectory, p, .present⟩
    | none => .ok { d with tree := d.tree.insert place .empty }

/-- The starts of a path that end in a slash which a name follows, after the characters `before`. -/
def startsAfter (before : Path) : Path → List Path
  | [] => []
  | c :: cs =>
    let start := before ++ [c]
    let more := startsAfter start cs
    if c == '/' && (cs.head?.map (· != '/')).getD false then start :: more else more

/-- Makes the first of some directories, and before it the others as far as they are missing. What
was made before a failure stays. -/
def makeEach : List Path → Disk → Disk × Option DiskError
  | [], d => (d, none)
  | p :: outer, d =>
    match d.resolve p with
    | .ok (.directory _) => (d, none)
    | .ok (.file _) => (d, some ⟨.makeDirectory, p, .notDirectory⟩)
    | .error _ =>
      match makeEach outer d with
      | (d, some e) => (d, some e)
      | (d, none) =>
        match d.makeDirectory p with
        | .ok d => (d, none)
        | .error e => (d, if d.isDirectory p then none else some e)

def makeDirectories (d : Disk) (p : Path) : Disk × Option DiskError :=
  makeEach (p :: (startsAfter [] p).reverse) d

end Disk

end LayoutScript

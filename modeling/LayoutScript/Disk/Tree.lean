import LayoutScript.Path

/-! Directories and the files in them. Names in a tree are never empty or dots. -/
namespace LayoutScript

inductive FileTree where
  | file (content : String)
  | directory (entries : List (Name × FileTree))
  deriving Repr

namespace FileTree

def empty : FileTree := .directory []

def isDirectory : FileTree → Bool
  | .directory _ => true
  | .file _ => false

def child? (t : FileTree) (name : Name) : Option FileTree :=
  match t with
  | .directory entries => entries.lookup name
  | .file _ => none

def find? : List Name → FileTree → Option FileTree
  | [], t => some t
  | name :: place, t => (t.child? name).bind (find? place)

/-- Puts an entry into a directory. A file becomes a directory that holds nothing else. -/
def setChild (t : FileTree) (name : Name) (entry : FileTree) : FileTree :=
  match t with
  | .directory entries =>
    if entries.any (·.1 == name) then
      .directory (entries.map fun (n, old) => (n, if n == name then entry else old))
    else .directory (entries ++ [(name, entry)])
  | .file _ => .directory [(name, entry)]

def insert : FileTree → List Name → FileTree → FileTree
  | _, [], entry => entry
  | t, name :: place, entry =>
    t.setChild name (insert ((t.child? name).getD empty) place entry)

def erase : List Name → FileTree → FileTree
  | [], _ => empty
  | name :: place, t =>
    match t with
    | .file content => .file content
    | .directory entries =>
      if place.isEmpty then .directory (entries.filter (·.1 != name))
      else .directory (entries.map fun (n, old) => (n, if n == name then erase place old else old))

mutual

def places (outer : List Name) : FileTree → List (List Name × Option String)
  | .file content => [(outer, some content)]
  | .directory entries => (outer, none) :: placesOf outer entries

def placesOf (outer : List Name) : List (Name × FileTree) → List (List Name × Option String)
  | [] => []
  | (name, entry) :: entries => entry.places (outer ++ [name]) ++ placesOf outer entries

end

def files (t : FileTree) : List (List Name) :=
  (t.places []).filterMap fun (place, content) => content.map fun _ => place

def changes (old new : FileTree) : List (List Name × Option String) :=
  let before := old.places []
  (new.places []).filter fun entry => !before.contains entry

end FileTree

end LayoutScript

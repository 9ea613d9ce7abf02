import LayoutScript.Text.Lines

/-! Paths with slashes. A path is kept as it was written; cleaning it removes what changes nothing
about where it leads. -/
namespace LayoutScript

abbrev Name := List Char

abbrev Path := List Char

namespace Path

def ofString (s : String) : Path := s.toList

def text (p : Path) : String := String.ofList p

def here : Name := ['.']

def up : Name := ['.', '.']

def isAbsolute (p : Path) : Bool := p.head? == some '/'

def steps (p : Path) : List Name := Text.split '/' p

/-- Follows one step from a place given by its names, innermost first. Above the root is the root;
a relative path may lead up from where it starts. -/
def follow (absolute : Bool) (place : List Name) (step : Name) : List Name :=
  if step = [] || step = here then place
  else if step = up then
    match place with
    | [] => if absolute then [] else [up]
    | name :: outer => if name = up then up :: place else outer
  else step :: place

def names (p : Path) : List Name := (p.steps.foldl (follow p.isAbsolute) []).reverse

def relativeOfNames (names : List Name) : Path :=
  if names.isEmpty then here else ['/'].intercalate names

def absoluteOfNames (names : List Name) : Path := '/' :: ['/'].intercalate names

def clean (p : Path) : Path :=
  if p.isAbsolute then absoluteOfNames p.names else relativeOfNames p.names

def join (dir p : Path) : Path :=
  if dir.isEmpty then (if p.isEmpty then [] else p.clean) else clean (dir ++ '/' :: p)

def absolute (workingDir p : Path) : Path :=
  if p.isAbsolute then p.clean else join workingDir p

def base (p : Path) : Name :=
  if p.isEmpty then here
  else
    let name := ((p.reverse.dropWhile (· == '/')).takeWhile (· != '/')).reverse
    if name.isEmpty then ['/'] else name

def parent (p : Path) : Path := clean (p.reverse.dropWhile (· != '/')).reverse

def extension (p : Path) : List Char :=
  let name := p.reverse.takeWhile (· != '/')
  if name.contains '.' then '.' :: (name.takeWhile (· != '.')).reverse else []

def replaceExtension (p : Path) (ext : List Char) : Path :=
  p.take (p.length - p.extension.length) ++ ext

def dropCommon : List Name → List Name → List Name × List Name
  | a :: as, b :: bs => if a = b then dropCommon as bs else (a :: as, b :: bs)
  | as, bs => (as, bs)

/-- How to get from the absolute path `dir` to `p`, if `p` is absolute too. -/
def relativeTo? (dir p : Path) : Option Path :=
  if dir.isAbsolute && p.isAbsolute then
    let (left, rest) := dropCommon dir.names p.names
    some (relativeOfNames (left.map (fun _ => up) ++ rest))
  else none

end Path

end LayoutScript

import LayoutScript.Manifest.Error
import LayoutScript.Toml.Document

/-! The manifest of a project: a TOML text that names it and says where its files are. -/
namespace LayoutScript

structure Manifest where
  name : String
  version : String
  src : String
  out : String
  banner : Option Bool
  deriving DecidableEq, Repr

namespace Manifest

def fileName : String := "loto.toml"

def emitsBanner (m : Manifest) : Bool := m.banner.getD true

/-- Upper and lower case of ASCII letters are one, and so is a long s. -/
def foldCase (c : Char) : Char := if c = 'ſ' then 's' else c.toLower

def sameName (a b : String) : Bool := a.toList.map foldCase == b.toList.map foldCase

/-- The value of a field, if it is there. A key in other case counts if the field's own is not
there; every such key must have a value of the field's type. -/
def field? (read : Toml.Value → Option α) (name : String) (t : Toml.Table) :
    Except ManifestError (Option α) :=
  let values := t.filter fun entry => sameName name entry.1
  if values.all fun entry => (read entry.2).isSome then
    .ok (((values.lookup name).or (values.head?.map (·.2))).bind read)
  else .error .malformed

def string? : Toml.Value → Option String
  | .string s => some s
  | _ => none

def boolean? : Toml.Value → Option Bool
  | .boolean b => some b
  | _ => none

def ofTable (t : Toml.Table) : Except ManifestError Manifest := do
  let name ← field? string? "name" t
  let version ← field? string? "version" t
  let src ← field? string? "src" t
  let out ← field? string? "out" t
  let banner ← field? boolean? "banner" t
  return ⟨name.getD "", version.getD "", src.getD "", out.getD "", banner⟩

def hasWildcard (s : String) : Bool := s.toList.any fun c => c == '*' || c == '?'

def problems (m : Manifest) : List ManifestField :=
  [(m.name.isEmpty, .name), (m.version.isEmpty, .version), (hasWildcard m.src, .src),
    (hasWildcard m.out, .out)].filterMap fun (broken, field) => if broken then some field else none

def withDefaults (m : Manifest) : Manifest :=
  { m with
    src := if m.src.isEmpty then "src" else m.src
    out := if m.out.isEmpty then "out" else m.out }

def ofText (text : List Char) : Except ManifestError Manifest :=
  match Toml.table? text with
  | none => .error .malformed
  | some t => do
    let m ← ofTable t
    if m.problems.isEmpty then return m.withDefaults else throw (.invalid m.problems)

def newText (name : String) : List Char :=
  "name = ".toList ++ Toml.write name.toList ++ '\n' ::
    "version = ".toList ++ Toml.write "0.1.0".toList ++ ['\n']

end Manifest

end LayoutScript

import LayoutScript.Toml.Literal

/-! The tables that a TOML text describes. A table may be opened by a header once, after it was
made on the way to another table; a key has one value, unless it or its new value is an array. -/
namespace LayoutScript.Toml

inductive Value where
  | string (s : String)
  | integer (n : Int)
  | float (text : String)
  | boolean (b : Bool)
  | moment (text : String)
  | array (items : List Value)
  | table (entries : List (String × Value))
  | elements (tables : List (List (String × Value)))
  deriving Repr

abbrev Table := List (String × Value)

def Value.table? : Value → Option Table
  | .table entries => some entries
  | .elements tables => tables.getLast?
  | _ => none

def Value.mapTable (f : Table → Table) : Value → Value
  | .table entries => .table (f entries)
  | .elements tables => .elements (tables.dropLast ++ (tables.getLast?.map f).toList)
  | v => v

namespace Table

def set (t : Table) (name : String) (v : Value) : Table :=
  if t.any (·.1 == name) then t.map fun (n, old) => (n, if n == name then v else old)
  else t ++ [(name, v)]

def find? : List String → Table → Option Table
  | [], t => some t
  | name :: path, t => ((t.lookup name).bind Value.table?).bind (find? path)

def modify (f : Table → Table) : List String → Table → Table
  | [], t => f t
  | name :: path, t =>
    t.map fun (n, v) => (n, if n == name then v.mapTable (modify f path) else v)

def insert? (last : String) (v : Value) : List String → Table → Option Table
  | [], t => some (t.set last v)
  | name :: path, t =>
    match t.lookup name with
    | none => (insert? last v path []).map fun inner => t.set name (.table inner)
    | some (.table inner) => (insert? last v path inner).map fun inner => t.set name (.table inner)
    | some _ => none

end Table

structure Document where
  root : Table
  /-- Paths of tables that a header may still open, or a key give its value. -/
  implicit : List (List String)
  arrays : List (List String)

namespace Document

def empty : Document := ⟨[], [], []⟩

def addImplicit (path : List String) (d : Document) : Document :=
  { d with implicit := path :: d.implicit.filter (· != path) }

def removeImplicit (path : List String) (d : Document) : Document :=
  { d with implicit := d.implicit.filter (· != path) }

/-- Notes whether a key below a path holds an array. The empty key stands for the path itself,
unless that is the root. -/
def note (path : List String) (name : String) (isArray : Bool) (d : Document) : Document :=
  let whole := if name.isEmpty && !path.isEmpty then path else path ++ [name]
  let others := d.arrays.filter (· != whole)
  { d with arrays := if isArray then whole :: others else others }

def put (path : List String) (name : String) (v : Value) (d : Document) : Option Document := do
  let t ← d.root.find? path
  let whole := path ++ [name]
  let stored := { d with root := d.root.modify (·.set name v) path }
  if (t.lookup name).isNone then return stored
  if d.arrays.contains whole then return stored.removeImplicit whole
  if d.implicit.contains whole then return d.removeImplicit whole
  none

def lead (path : List String) : List String → Document → Option Document
  | [], d => some d
  | name :: rest, d => do
    let t ← d.root.find? path
    let d :=
      if (t.lookup name).isNone then
        { d with root := d.root.modify (·.set name (.table [])) path }.addImplicit (path ++ [name])
      else d
    let v ← (← d.root.find? path).lookup name
    let _ ← v.table?
    lead (path ++ [name]) rest d

def openTable (key : Key) (d : Document) : Option Document := do
  (← lead [] key.parents d).put key.parents key.last (.table [])

def openElement (key : Key) (d : Document) : Option Document := do
  let d ← lead [] key.parents d
  let t ← d.root.find? key.parents
  let store (tables : List Table) : Document :=
    { d with root := d.root.modify (·.set key.last (.elements tables)) key.parents }
  match t.lookup key.last with
  | none => some (store [[]])
  | some (.elements tables) => some (store (tables ++ [[]]))
  | some _ => none

def openParents (path : List String) : List String → Document → Option Document
  | [], d => some d
  | name :: rest, d => do
    let d ← (d.addImplicit (path ++ [name])).openTable ⟨path, name⟩
    openParents (path ++ [name]) rest d

mutual

/-- The value of a literal that a key below a path gets. Tables in it become part of the document
before they are complete. -/
def eval (path : List String) (name : String) (inArray : Bool) :
    Literal → Document → Option (Value × Document)
  | .string s, d => some (.string s, d)
  | .integer n, d => some (.integer n, d)
  | .float text, d => some (.float text, d)
  | .boolean b, d => some (.boolean b, d)
  | .moment text, d => some (.moment text, d)
  | .array items, d => do
    let (vs, d) ← evalItems path name items (d.note path name true)
    return (.array vs, d)
  | .table pairs, d => do
    let d := d.addImplicit (path ++ [name])
    let d ← if inArray then d.openElement ⟨path, name⟩ else d.openTable ⟨path, name⟩
    let (t, d) ← evalPairs (path ++ [name]) pairs [] d
    return (.table t, d)

def evalItems (path : List String) (name : String) :
    List Literal → Document → Option (List Value × Document)
  | [], d => some ([], d)
  | item :: items, d => do
    let (v, d) ← eval path name true item d
    let (vs, d) ← evalItems path name items d
    return (v :: vs, d)

def evalPairs (path : List String) :
    List (Key × Literal) → Table → Document → Option (Table × Document)
  | [], t, d => some (t, d)
  | (key, item) :: pairs, t, d => do
    let inner := path ++ key.parents
    let d ← openParents path key.parents d
    let (v, d) ← eval inner key.last false item d
    let d ← d.put inner key.last v
    let t ← t.insert? key.last v key.parents
    evalPairs path pairs t (d.note inner key.last item.isArray)

end

def add (path : List String) (d : Document) : Item → Option (List String × Document)
  | .table key => do
    let path := key.parents ++ [key.last]
    return (path, (← d.openTable key).note path "" false)
  | .element key => do
    let path := key.parents ++ [key.last]
    return (path, (← d.openElement key).note path "" false)
  | .pair key item => do
    let (_, d) ← evalPairs path [(key, item)] [] d
    return (path, d)

def addAll (path : List String) (d : Document) : List Item → Option Document
  | [] => some d
  | item :: items => do
    let (path, d) ← d.add path item
    addAll path d items

end Document

def table? (cs : List Char) : Option Table := do
  let d ← Document.empty.addAll [] (← items? cs)
  return d.root

end LayoutScript.Toml

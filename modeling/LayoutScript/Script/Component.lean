import LayoutScript.Script.Markup

/-! Components of the generated script: functions with destructured props, state cells and local
methods, followed by their styles and their export. -/
namespace LayoutScript

open LayoutScript.Script (Scope Line Statement Method)

namespace Script

structure Cell where
  name : String
  setter : String
  initial : String
  deriving DecidableEq, Repr

structure Rule where
  key : String
  declarations : List (String × String)
  deriving DecidableEq, Repr

structure Styles where
  name : String
  rules : List Rule
  deriving DecidableEq, Repr

structure Component where
  name : String
  props : List (String × Option String)
  cells : List Cell
  methods : List Method
  view : List Line
  styles : Option Styles
  isDefault : Bool
  deriving Repr

namespace Component

def boundNames (c : Component) : List String :=
  c.props.map Prod.fst ++ c.cells.flatMap (fun cell => [cell.name, cell.setter]) ++
    c.methods.map MethodOf.name

def propsParam (c : Component) : String :=
  let entry : String × Option String → String
    | (name, some value) => name ++ " = " ++ value
    | (name, none) => name
  if c.props.isEmpty then "" else "\x7b " ++ ", ".intercalate (c.props.map entry) ++ " \x7d"

def cellLine (cell : Cell) : Line :=
  ⟨1, "const [" ++ cell.name ++ ", " ++ cell.setter ++ "] = useState(" ++ cell.initial ++ ");"⟩

def methodLines (m : Method) : List Line :=
  ⟨1, "const " ++ m.name ++ " = (" ++ paramList m.params ++ ") => \x7b"⟩ ::
    Statement.allLines 2 m.body ++ [⟨1, "\x7d;"⟩, .blank]

def ruleLines (rule : Rule) : List Line :=
  ⟨1, rule.key ++ ": \x7b"⟩ ::
    rule.declarations.map (fun (key, value) => ⟨2, key ++ ": " ++ value ++ ","⟩) ++ [⟨1, "\x7d,"⟩]

def styleLines (styles : Styles) : List Line :=
  ⟨0, "const " ++ styles.name ++ " = \x7b"⟩ :: styles.rules.flatMap ruleLines ++
    [⟨0, "\x7d;"⟩, .blank]

def exportLine (c : Component) : Line :=
  if c.isDefault then ⟨0, "export default " ++ c.name ++ ";"⟩
  else ⟨0, "export \x7b " ++ c.name ++ " \x7d;"⟩

def lines (c : Component) : List Line :=
  ⟨0, "function " ++ c.name ++ "(" ++ c.propsParam ++ ") \x7b"⟩ ::
    c.cells.map cellLine ++ (if c.cells.isEmpty then [] else [.blank]) ++
    c.methods.flatMap methodLines ++ c.view ++ [⟨0, "\x7d"⟩, .blank] ++
    (c.styles.map styleLines).getD [] ++ [c.exportLine, .blank]

end Component

end Script

namespace StyleBlock

/-- Style values stand outside the component and see none of its names. -/
def lower (name : String) (block : StyleBlock) : Script.Styles where
  name := name
  rules := block.rules.map fun rule =>
    ⟨Script.objectKey rule.selector, rule.declarations.map fun d =>
      (Script.objectKey (Script.camelCase d.property), d.value.emit .empty)⟩

end StyleBlock

namespace ComponentOf

def scope (c : ComponentDecl) : Scope :=
  ({ Scope.empty with
    state := c.stateNames
    methods := c.methods.map FunctionOf.name
    inComponent := true }).declareAll (c.props.map Entry.name)

def lowerCell (scope : Scope) (e : Entry) : Script.Cell where
  name := e.name
  setter := Script.setterName e.name
  initial := (e.value.map (Expr.emit scope)).getD "null"

/-- A component after `before` others, in a program where `styledCount` have styles. -/
def lower (styledCount before : Nat) (c : ComponentDecl) : Except UnknownNode Script.Component :=
  let scope := c.scope
  match allOk (c.methods.map (Stmt.lowerFunction scope)) with
  | .error e => .error e
  | .ok methods =>
    match RenderBlock.emit scope 1 c.render with
    | .error e => .error e
    | .ok view =>
      .ok {
        name := c.name
        props := c.props.map fun e => (e.name, e.value.map (Expr.emit scope))
        cells := c.state.map (lowerCell scope)
        methods := methods
        view := view
        styles := c.style.map (StyleBlock.lower (Script.stylesName styledCount c.name))
        isDefault := before == 0 }

end ComponentOf

end LayoutScript

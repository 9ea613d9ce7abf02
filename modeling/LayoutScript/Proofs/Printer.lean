import LayoutScript.Syntax

/-! The canonical text of a program without components: one statement on a line, two blanks for each
level of blocks, parentheses after every callee, and parentheses around an operator exactly where
the tree remembers them. -/
namespace LayoutScript

def Text.commas (css : List (List Char)) : List Char := [',', ' '].intercalate css

@[simp] theorem Text.commas_nil : Text.commas [] = [] := rfl

@[simp] theorem Text.commas_singleton (cs : List Char) : Text.commas [cs] = cs :=
  List.intercalate_singleton

@[simp] theorem Text.commas_cons_cons (cs ds : List Char) (css : List (List Char)) :
    Text.commas (cs :: ds :: css) = cs ++ ',' :: ' ' :: Text.commas (ds :: css) := by
  rw [commas, List.intercalate_cons_cons, List.append_assoc]
  rfl

def Text.parenthesized (cs : List Char) : List Char := '(' :: cs ++ [')']

def Text.arguments (css : List (List Char)) : List Char := parenthesized (commas css)

/-- How the words that depend on the place of an expression are written: its literals and the names
that belong to the instance. -/
structure Dialect where
  string : String → List Char
  template : String → List Char
  var : String → List Char
  method : String → List Char

def Dialect.source : Dialect where
  string raw := '"' :: raw.toList ++ ['"']
  template raw := '"' :: raw.toList ++ ['"']
  var name := '@' :: name.toList
  method name := '@' :: name.toList

namespace Expr

def propertiesText (properties : List String) : List Char :=
  properties.flatMap fun name => '.' :: name.toList

mutual

/-- An interpolation stands in markup only; its text is that of its token. -/
def text (e : Expr) (d : Dialect := .source) : List Char :=
  match e with
  | .string raw _ => d.string raw
  | .template raw _ => d.template raw
  | .number raw _ => raw.toList
  | .boolean true _ => "true".toList
  | .boolean false _ => "false".toList
  | .null _ => "null".toList
  | .identifier name _ => name.toList
  | .instanceVar name _ => d.var name
  | .instanceVarAccess name properties _ => d.var name ++ propertiesText properties
  | .propertyAccess object properties _ => object.text d ++ propertiesText properties
  | .construct className args _ =>
    "new ".toList ++ className.toList ++ Text.arguments (texts args d)
  | .call callee args _ => callee.toList ++ Text.arguments (texts args d)
  | .methodCall object method args _ =>
    object.text d ++ propertiesText [method] ++ Text.arguments (texts args d)
  | .instanceMethodCall method args _ => d.method method ++ Text.arguments (texts args d)
  | .binary left operator right grouped _ =>
    let cs := left.text d ++ ' ' :: operator.toList ++ ' ' :: right.text d
    if grouped then Text.parenthesized cs else cs
  | .interpolation raw _ => "\x7b\x7b".toList ++ raw.toList ++ "\x7d\x7d".toList

def texts (es : List Expr) (d : Dialect := .source) : List (List Char) :=
  match es with
  | [] => []
  | e :: es => e.text d :: texts es d

end

@[simp] theorem texts_eq_map (es : List Expr) (d : Dialect) : texts es d = es.map (·.text d) := by
  induction es with
  | nil => rw [texts, List.map_nil]
  | cons e es ih => rw [texts, ih, List.map_cons]

theorem text_instanceVarAccess (d : Dialect) (name : String) (properties : List String)
    (s t : Span) : text (.instanceVarAccess name properties s) d =
      text (.instanceVar name t) d ++ propertiesText properties := by
  rw [text, text]

end Expr

def Text.ofType : Option String → List Char
  | none => []
  | some type => " : ".toList ++ type.toList

def Param.text (p : Param) : List Char := p.name.toList ++ Text.ofType p.type

def Property.text (p : Property) : List Char := p.name.toList ++ Text.ofType (some p.type)

def FunctionOf.header (f : FunctionOf σ) : List Char :=
  "def ".toList ++ f.name.toList ++ Text.arguments (f.params.map Param.text) ++
    Text.ofType f.returnType

def Text.indented (level : Nat) (cs : List Char) : List Char := List.replicate (2 * level) ' ' ++ cs

namespace Stmt

mutual

/-- The lines of a statement inside `level` blocks. Components have no canonical text. -/
def lines (level : Nat) : Stmt → List (List Char)
  | .function ⟨name, params, type, body, s⟩ =>
    Text.indented level (FunctionOf.header ⟨name, params, type, body, s⟩) ::
      linesAll (level + 1) body ++ [Text.indented level "end".toList]
  | .classDecl ⟨name, properties, methods, _⟩ =>
    Text.indented level ("class ".toList ++ name.toList) ::
      properties.map (fun p => Text.indented (level + 1) p.text) ++
      linesFunctions (level + 1) methods ++ [Text.indented level "end".toList]
  | .component _ => []
  | .assign name value _ => [Text.indented level (name.toList ++ " = ".toList ++ value.text)]
  | .assignProperty object properties _ value _ =>
    [Text.indented level
      (object.text ++ Expr.propertiesText properties ++ " = ".toList ++ value.text)]
  | .assignInstanceVar name value _ =>
    [Text.indented level ('@' :: name.toList ++ " = ".toList ++ value.text)]
  | .print value _ => [Text.indented level ("print ".toList ++ value.text)]
  | .give none _ => [Text.indented level "return".toList]
  | .give (some value) _ => [Text.indented level ("return ".toList ++ value.text)]
  | .branch condition body elsifs otherwise hasElse _ =>
    Text.indented level ("if ".toList ++ condition.text) :: linesAll (level + 1) body ++
      linesElsifs level elsifs ++
      (if hasElse then Text.indented level "else".toList :: linesAll (level + 1) otherwise else [])
        ++
      [Text.indented level "end".toList]
  | .expr e => [Text.indented level e.text]

def linesAll (level : Nat) : List Stmt → List (List Char)
  | [] => []
  | s :: ss => s.lines level ++ linesAll level ss

def linesFunctions (level : Nat) : List (FunctionOf Stmt) → List (List Char)
  | [] => []
  | ⟨name, params, type, body, s⟩ :: fs =>
    Text.indented level (FunctionOf.header ⟨name, params, type, body, s⟩) ::
      linesAll (level + 1) body ++ [Text.indented level "end".toList] ++ linesFunctions level fs

def linesElsifs (level : Nat) : List (ElsifOf Stmt) → List (List Char)
  | [] => []
  | ⟨condition, body⟩ :: es =>
    Text.indented level ("elsif ".toList ++ condition.text) :: linesAll (level + 1) body ++
      linesElsifs level es

end

@[simp] theorem linesAll_eq_flatMap (level : Nat) (ss : List Stmt) :
    linesAll level ss = ss.flatMap (lines level) := by
  induction ss with
  | nil => rw [linesAll, List.flatMap_nil]
  | cons s ss ih => rw [linesAll, ih, List.flatMap_cons]

end Stmt

def FunctionOf.lines (level : Nat) (f : FunctionDecl) : List (List Char) :=
  Text.indented level f.header :: f.body.flatMap (Stmt.lines (level + 1)) ++
    [Text.indented level "end".toList]

def ElsifOf.lines (level : Nat) (e : Elsif) : List (List Char) :=
  Text.indented level ("elsif ".toList ++ e.condition.text) ::
    e.body.flatMap (Stmt.lines (level + 1))

namespace Stmt

@[simp] theorem lines_function (level : Nat) (f : FunctionDecl) :
    lines level (.function f) = f.lines level := by
  rw [lines, linesAll_eq_flatMap]
  rfl

@[simp] theorem linesFunctions_eq_flatMap (level : Nat) (fs : List FunctionDecl) :
    linesFunctions level fs = fs.flatMap (FunctionOf.lines level) := by
  induction fs with
  | nil => rw [linesFunctions, List.flatMap_nil]
  | cons f fs ih =>
    rw [linesFunctions, ih, linesAll_eq_flatMap, List.flatMap_cons]
    rfl

@[simp] theorem linesElsifs_eq_flatMap (level : Nat) (es : List Elsif) :
    linesElsifs level es = es.flatMap (ElsifOf.lines level) := by
  induction es with
  | nil => rw [linesElsifs, List.flatMap_nil]
  | cons e es ih =>
    rw [linesElsifs, ih, linesAll_eq_flatMap, List.flatMap_cons]
    rfl

end Stmt

def Program.text (p : Program) : List Char :=
  (p.body.flatMap (Stmt.lines 0)).flatMap (· ++ ['\n'])

end LayoutScript

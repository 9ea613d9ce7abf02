import LayoutScript.Compile
import LayoutScript.Editor.Hover
import LayoutScript.Uri

/-! A session with an editor: the texts of its open documents, and what it is told about them. -/
namespace LayoutScript

structure Publication where
  uri : String
  diagnostics : List Diagnostic
  deriving DecidableEq, Repr

inductive Notice where
  | opened (uri text : String)
  /-- Each change is a whole new text. -/
  | changed (uri : String) (texts : List String)
  | saved (uri : String) (text : Option String)
  | closed (uri : String)
  deriving DecidableEq, Repr

structure Reaction where
  log : List String
  published : Option Publication
  deriving DecidableEq, Repr

structure Session where
  workspace : Path
  /-- Open documents and their texts, each document once. -/
  texts : List (String × String)
  deriving DecidableEq, Repr

namespace Notice

def uri : Notice → String
  | .opened uri _ | .changed uri _ | .saved uri _ | .closed uri => uri

def text? : Notice → Option String
  | .opened _ text => some text
  | .changed _ texts => texts.getLast?
  | .saved _ text => text
  | .closed _ => none

end Notice

namespace Session

def empty : Session := ⟨[], []⟩

def text (s : Session) (uri : String) : String := (s.texts.lookup uri).getD ""

def forget (s : Session) (uri : String) : Session :=
  { s with texts := s.texts.filter (·.1 != uri) }

def remember (s : Session) (uri text : String) : Session :=
  { s with texts := (uri, text) :: (s.forget uri).texts }

def react (uri text : String) : Reaction :=
  match Uri.toPath uri with
  | .error e => ⟨["diagnostics skipped: " ++ e.message], none⟩
  | .ok p => ⟨[], some ⟨uri, diagnostics p.text text.toList⟩⟩

def notify (s : Session) (n : Notice) : Session × Reaction :=
  match n, n.text? with
  | .closed uri, _ => (s.forget uri, ⟨[], none⟩)
  | _, none => (s, ⟨[], none⟩)
  | _, some text => (s.remember n.uri text, react n.uri text)

def start (s : Session) (folders : List String) : Session × List String :=
  let (s, problems) :=
    match folders with
    | [] => (s, [])
    | folder :: _ =>
      match Uri.toPath folder with
      | .error e => (s, ["invalid workspace folder: " ++ e.message])
      | .ok p => ({ s with workspace := p }, [])
  (s, problems ++ ["root: " ++ s.workspace.text])

def readyLog : List String := ["Initialized"]

def hover (s : Session) (uri : String) (pos : Position) : Option String :=
  (Token.at? (s.text uri).toList pos).map Token.hover

end Session

end LayoutScript
